import Stagewise.Proofs.Flow.Control

namespace Stagewise

open Relation

namespace Function

variable {f : Function} {x v w : BlockId}

theorem exists_branch_of_postDominates (hv : f.CanReturn v) (hw : w ∈ f.successors v)
    (hx : f.PostDominates x w) (hn : ¬f.PostDominates x v) :
    ∃ cond ifTrue ifFalse, f.terminator? v = some (.branch cond ifTrue ifFalse) ∧
      (w = ifTrue ∨ w = ifFalse) := by
  have he : v ≠ f.exitNode := Nat.ne_of_lt (mem_successors_lt hw)
  cases ht : f.terminator? v with
  | none => simp [successors, ht] at hw
  | some term =>
    cases term with
    | ret => simp [successors, ht, Terminator.successors] at hw
    | jump target =>
      simp only [successors, ht, Option.elim_some, Terminator.successors,
        List.mem_singleton] at hw
      subst hw
      refine absurd (PostDominates.of_next hv he fun u hu _ => ?_) hn
      have hu : u = w := by
        simpa [exitSuccessors, returns, successors, ht, Terminator.successors] using hu
      exact hu ▸ hx
    | branch cond ifTrue ifFalse =>
      refine ⟨cond, ifTrue, ifFalse, rfl, ?_⟩
      simpa [successors, ht, Terminator.successors] using hw

theorem Leads.canReturn {P : Nat → Prop} {u : Nat} (h : f.Leads P u v) (hu : f.CanReturn u) :
    f.CanReturn v := by
  induction h with
  | here => exact hu
  | step _ he _ ih => exact .step (Finset.notMem_empty _) he ih

end Function

namespace Classifier

variable {p : Program} {f : Function} {strategy : Strategy} {t : PostDominators}
  {b v join : BlockId}

/-- A block that decides, at once or through others, whether another one runs. -/
abbrev Decides (c : Classifier) (q b : BlockId) : Prop :=
  ReflTransGen (fun b q => q ∈ c.parents b) b q

/-- All that must be passed from a block on, but not from the join on, is decided by a branch. -/
def Encloses (c : Classifier) (b join v : BlockId) : Prop :=
  ∀ x < c.func.numBlocks, c.func.PostDominates x v → ¬c.func.PostDominates x join → c.Decides b x

theorem Encloses.step (hr : f.TargetsInRange) (ht : t.Exact f)
    (h : (classifierOf p f strategy t).Encloses b join v) {w : BlockId} (hv : f.CanReturn v)
    (hj : ¬f.PostDominates v join) (hw : w ∈ f.successors v) :
    (classifierOf p f strategy t).Encloses b join w := by
  intro x hx hxw hxj
  by_cases hxv : f.PostDominates x v
  · exact h x hx hxv hxj
  · obtain ⟨cond, ifTrue, ifFalse, hte, ha⟩ :=
      Function.exists_branch_of_postDominates hv hw hxw hxv
    have hp : v ∈ (classifierOf p f strategy t).parents x :=
      mem_parents_of_postDominates hr ht hte ha hx hxw fun _ => hxv
    exact .head hp (h v (Function.mem_successors_lt hw) (.refl hv) hj)

theorem Encloses.exists_last (hr : f.TargetsInRange) (ht : t.Exact f) (hj : join < f.numBlocks)
    (hc : f.CanReturn join) (hv : v ≠ join)
    (hwa : f.Leads (fun x => f.place join < f.place x) join v)
    (h : (classifierOf p f strategy t).Encloses b join v) :
    ∃ q, join ∈ f.successors q ∧ (classifierOf p f strategy t).Decides b q := by
  induction hwa with
  | here => exact absurd rfl hv
  | @step v w hp he hres ih =>
    have hre : f.CanReturn v := .step (Finset.notMem_empty _) he (hres.canReturn hc)
    have hn : ¬f.PostDominates v join := fun hpo =>
      Nat.not_le.mpr hp (ht.spans.place_le_of_above ((ht.above_iff v join hc).mpr hpo))
    by_cases hw : w = join
    · subst hw
      have he := Function.mem_successors_of_mem_exitSuccessors (Nat.ne_of_lt hj) he
      exact ⟨v, he, h v (Function.mem_successors_lt he) (.refl hre) hn⟩
    · have hex : w ≠ f.exitNode := by
        cases hres with
        | here => exact absurd rfl hw
        | step hp _ _ =>
          rintro rfl
          rw [Function.place_exitNode hr] at hp
          exact Nat.not_lt_zero _ hp
      have he := Function.mem_successors_of_mem_exitSuccessors hex he
      exact ih hw (h.step hr ht hre hn he)

/-- Some predecessor of the block where the arms of a branch come together is the branch itself, or a
block that it decides about. -/
theorem exists_decided_predecessor (hr : f.TargetsInRange) (ht : t.Exact f) {cond : Value}
    {ifTrue ifFalse : BlockId} (hte : f.terminator? b = some (.branch cond ifTrue ifFalse))
    (hj : t.nearestCommon? ifTrue ifFalse = some join) :
    ∃ q, join ∈ f.successors q ∧ (classifierOf p f strategy t).Decides b q := by
  obtain ⟨hT, hF, hlt, hca, hc⟩ := ht.nearestCommon?_eq_some hr hj
  have he : f.successors b = [ifTrue, ifFalse] := by
    simp [Function.successors, hte, Terminator.successors]
  have hed : ifFalse ∈ f.exitSuccessors b :=
    Function.mem_exitSuccessors_of_mem_successors (by simp [he])
  by_cases hs : ifTrue = join
  · exact ⟨b, by simp [he, hs], .refl⟩
  · have hp := ((hc join).mp (.refl hca)).1
    have hw := ht.spans.leads_of_above ((ht.above_iff join ifTrue hT).mpr hp)
    refine Encloses.exists_last hr ht hlt hca hs hw fun x hx hxT hxj => ?_
    have hxF : ¬f.PostDominates x ifFalse := fun hxF => hxj ((hc x).mpr ⟨hxT, hxF⟩)
    refine .single (mem_parents_of_postDominates hr ht hte (.inl rfl) hx hxT fun hne hxb => ?_)
    exact hxF (hxb.next hne hed hF)

end Classifier

end Stagewise
