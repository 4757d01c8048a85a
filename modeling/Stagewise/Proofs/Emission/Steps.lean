import Stagewise.Proofs.Emission.Availability
import Stagewise.Proofs.Emission.Moves

namespace Stagewise

/-- A scope has the result of an instruction: the instruction belongs to it, or is a load that is
done there for a later scope. -/
def Source.Supplies (src : Source) (owner : Scope) (i : InstId) : Prop :=
  src.table.instScope i = some owner ∨ src.RaisedTo owner i

namespace Emission

inductive CopyStep (src : Source) : Emission → Emission → Prop
  | read {s t : Emission} : ReadStep src (.carrying src.Supplies) s t → CopyStep src s t
  | inst {s t : Emission} {scope : Scope} {pred : Option BlockId} {i : InstId} {inst : Inst}
      {d : Draft} : src.table.instScope i = some scope → src.func.insts[i]? = some inst →
      s.drafts[scope.val]? = some d →
      Copied src (.carrying src.Supplies) scope pred i inst (s.setDraft scope (d.noteVisit pred i)) t →
      CopyStep src s t
  | steer {s : Emission} {scope : Scope} {d d' : Draft} {forks after : List Fork} {m : Move} :
      s.drafts[scope.val]? = some d → d.Takes forks m d' after →
      CopyStep src s (s.setDraft scope d')
  | branch {s : Emission} {scope : Scope} {d : Draft} {site : BranchSite} {cond : Value} :
      s.drafts[scope.val]? = some d → Denotes src s scope site.cond cond →
      CopyStep src s (s.setDraft scope (d.openFork site cond).2)
  | fanout (s : Emission) (fanout : List FanOut) : CopyStep src s { s with fanout := fanout }

abbrev Copying (src : Source) : Emission → Emission → Prop := Relation.ReflTransGen (CopyStep src)

variable {src : Source} {s t : Emission}

theorem CopyStep.quiet (h : CopyStep src s t) :
    t.types = s.types ∧ t.ledger.fixed = s.ledger.fixed := by
  cases h with
  | read hr => exact ⟨hr.quiet.types, hr.quiet.fixed⟩
  | inst _ _ _ hc => exact ⟨hc.quiet.types, hc.quiet.fixed⟩
  | steer _ _ | branch _ _ => exact ⟨rfl, rfl⟩
  | fanout _ => exact ⟨rfl, rfl⟩

theorem Copying.sameRecords (h : Copying src s t) :
    t.types = s.types ∧ t.ledger.fixed = s.ledger.fixed := by
  induction h with
  | refl => exact ⟨rfl, rfl⟩
  | tail _ hs ih => exact ⟨hs.quiet.1.trans ih.1, hs.quiet.2.trans ih.2⟩

theorem Does.copying {deed : Deed} {s t : Stage} (h : Does src deed s t) :
    Copying src s.state t.state := by
  cases h with
  | @visit s _ _ scope pred i inst _ hs hi hd hc =>
    refine .single (.inst hs hi hd (hc.mono ?_ fun _ _ => trivial))
    rintro owner dst j hlt ⟨rfl, ⟨-, ho⟩ | ⟨rfl, g, path, hop, hg⟩⟩
    · exact .inl ho
    · exact .inr ⟨inst, g, path, dst, hi, hop, hg, hs, hlt⟩
  | fork hr hco hd =>
    have hr : Copying src _ _ := Relation.ReflTransGen.mono (fun _ _ h => CopyStep.read h) _ _
      (hr.mono (fun _ _ _ _ h => .inl h.2.2) fun _ _ => trivial)
    exact hr.tail (.branch hd hco)
  | steer hd ht => exact .single (.steer hd ht)
  | note _ => exact .single (.fanout _ _)
  | loop block => exact .single (.read (.report trivial))

theorem Run.copying {deeds : List Deed} {s t : Stage} (h : Run src deeds s t) :
    Copying src s.state t.state := by
  induction h with
  | nil => exact .refl
  | cons hdo _ ih => exact hdo.copying.trans ih

end Emission

namespace Source

open Emission

theorem sat_copyAll_copying {src : Source} (tree : PostDominators) (s : Emission) :
    Act.Sat Act.Any (src.copyAll tree) s fun _ t => Copying src s t := by
  refine (sat_copyAll_run tree s).mono ?_
  rintro _ t ⟨-, deeds, hr, -⟩
  exact hr.copying

end Source

end Stagewise
