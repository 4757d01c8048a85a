import Stagewise.Proofs.Emission.Laying
import Stagewise.Proofs.Emission.Moves

namespace Stagewise

namespace Source

open Emission

variable {src : Source}

/-- A branch of a function, with the block where a tree has its arms come together. -/
structure BranchesAt (src : Source) (tree : PostDominators) (site : BranchSite) : Prop where
  terminator : src.func.terminator? site.block
    = some (.branch site.cond site.ifTrue site.ifFalse)
  join : site.join = tree.nearestCommon? site.ifTrue site.ifFalse

inductive Explains (src : Source) (tree : PostDominators) : Problem → Prop
  | inst {scope : Scope} {i : InstId} {inst : Inst} {p : Problem} :
      src.table.instScope i = some scope → src.func.insts[i]? = some inst →
      src.Hinders scope i inst p → Explains src tree p
  | branch {scope : Scope} {site : BranchSite} {p : Problem} : src.BranchesAt tree site →
      (src.wantedScopes site).contains scope = true → src.Refuses scope site.cond p →
      Explains src tree p
  | loop (block : BlockId) : Explains src tree (.unsupportedLoop block)

end Source

namespace Emission

variable {src : Source} {allowed : Permit} {s t u : Emission} {tree : PostDominators}

def Reports (R : Problem → Prop) (s t : Emission) : Prop :=
  ∀ p ∈ t.problems, p ∈ s.problems ∨ R p

variable {R : Problem → Prop}

theorem Reports.trans (h : Reports R s t) (h' : Reports R t u) :
    Reports R s u :=
  fun p hp => (h' p hp).elim (h p) .inr

theorem Reports.mono {R' : Problem → Prop} (h : Reports R s t) (hR : ∀ p, R p → R' p) :
    Reports R' s t :=
  fun p hp => (h p hp).imp_right (hR p)

theorem reports_note {p : Problem} (hp : R p) :
    Reports R s { s with problems := Problem.note s.problems p } :=
  fun q hq => (Problem.mem_note.mp hq).imp_right fun h : q = p => h ▸ hp

theorem Reads.reports (h : Reads src allowed s t) : Reports allowed.reports s t := by
  induction h with
  | refl => exact fun _ hp => .inl hp
  | tail _ hs ih =>
    refine ih.trans ?_
    cases hs with
    | report hp => exact reports_note hp
    | declareGlobal _ _ _ | declare _ _ | openRead _ _ _ _ _ => exact fun _ hp => .inl hp

theorem Copied.reports {scope : Scope} {pred : Option BlockId} {i : InstId} {inst : Inst}
    (h : Copied src allowed scope pred i inst s t) : Reports allowed.reports s t := by
  cases h with
  | emitted hr _ _ _ _ | known _ _ _ hr _ _ | missing _ _ _ hr _ _ | unsupported _ _ hr _ _ =>
    exact (hr.reports :)
  | raised _ _ _ hr _ _ hr' _ _ => exact (hr.reports :).trans hr'.reports
  | array _ _ _ _ _ _ hr _ _ => exact (hr.reports :)
  | skipped _ hr => exact hr.reports

theorem Does.reports {deed : Deed} {s t : Stage} (h : Does src deed s t)
    (hs : ∀ x site, .fork site ∈ deed.moves x →
      src.BranchesAt tree site ∧ (src.wantedScopes site).contains x = true) :
    Reports (src.Explains tree) s.state t.state := by
  cases h with
  | visit hsc hi _ hc => exact (hc.reports :).mono fun _ hp => .inst hsc hi hp
  | @fork _ _ _ scope site _ _ hr _ _ =>
    obtain ⟨hsi, hw⟩ := hs scope site (by simp [Deed.moves])
    exact (hr.reports :).mono fun _ hp => .branch hsi hw hp
  | steer _ _ | note _ => exact fun _ hp => .inl hp
  | loop block => exact reports_note (.loop block)

theorem Run.reports {deeds : List Deed} {s t : Stage} (h : Run src deeds s t)
    (hs : ∀ x site, .fork site ∈ deeds.flatMap (Deed.moves x) →
      src.BranchesAt tree site ∧ (src.wantedScopes site).contains x = true) :
    Reports (src.Explains tree) s.state t.state := by
  induction h with
  | nil => exact fun _ hp => .inl hp
  | cons hdo _ ih =>
    simp only [List.flatMap_cons, List.mem_append] at hs
    exact (hdo.reports fun x site h => hs x site (.inl h)).trans
      (ih fun x site h => hs x site (.inr h))

end Emission

namespace Source

open Emission

variable {src : Source}

theorem reports_copyAll (tree : PostDominators) (s : Emission) :
    Act.Sat Act.Any (src.copyAll tree) s fun _ t => Reports (src.Explains tree) s t := by
  refine (sat_copyAll_run tree s).mono ?_
  rintro _ t ⟨hfo, deeds, hr, hm⟩
  refine (hr.reports fun x site hf => ?_ :)
  rw [hm, moves] at hf
  split at hf
  · obtain ⟨hs, hw⟩ := mem_moves_fork.mp hf
    obtain ⟨ht, hj⟩ := (Route.follows_of_found hfo).site_eq hs
    exact ⟨⟨ht, hj⟩, hw⟩
  · cases hf

theorem reports_emitTable (tree : PostDominators) (table : ScopeTable) (s : Emission) :
    Act.Sat Act.Any (src.emitTable tree table) s fun _ t => Reports (src.Explains tree) s t := by
  have hla : ∀ records t, Act.Sat Act.Any (src.layOutAll records) t fun _ u =>
      Reports (src.Explains tree) t u := fun records t =>
    (sat_layOutAll_lays records).mono fun _ _ hl _ hp => .inl (hl.problems ▸ hp)
  unfold emitTable layOutTable
  simp only [Act.sat_bind, Act.sat_get, Act.sat_pure]
  refine (reports_copyAll tree s).mono fun _ t ht => (hla _ t).mono fun _ u hu => ?_
  exact (hla _ u).mono fun _ v hv => ht.trans (hu.trans hv)

end Source

end Stagewise
