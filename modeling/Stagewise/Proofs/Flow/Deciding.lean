import Stagewise.Proofs.Classification.Placement
import Stagewise.Proofs.Flow.Control
import Stagewise.Proofs.Flow.ReturnPaths

namespace Stagewise

namespace PostDominators

variable {f : Function} {t : PostDominators} {arm b p stop u : BlockId}

variable {fuel : Nat}

theorem Exact.above_of_mem_chainWithin (ht : t.Exact f) {stop : Option BlockId}
    (h : u ∈ t.chainWithin stop fuel b) : t.Above u b := by
  induction fuel generalizing b with
  | zero => simp [chainWithin] at h
  | succ fuel ih =>
    simp only [chainWithin] at h
    split at h
    · simp at h
    · rcases List.mem_cons.mp h with rfl | h
      · exact .here
      · cases hi : t.immediate? b with
        | none => simp [hi] at h
        | some v =>
          rw [hi] at h
          exact .up (ht.parent?_of_immediate? hi).1 (ih h)

theorem Exact.stops_below (ht : t.Exact f) (ha : t.Above stop b)
    (h : u ∈ t.chainWithin (some stop) fuel b) : t.Above stop u ∧ u ≠ stop := by
  induction fuel generalizing b with
  | zero => simp [chainWithin] at h
  | succ fuel ih =>
    simp only [chainWithin] at h
    split at h
    · simp at h
    · next hne =>
      have hb : stop ≠ b := fun he => hne (congrArg some he.symm)
      rcases List.mem_cons.mp h with rfl | h
      · exact ⟨ha, hb.symm⟩
      · cases hi : t.immediate? b with
        | none => simp [hi] at h
        | some v =>
          rw [hi] at h
          exact ih (ha.parent (ht.parent?_of_immediate? hi).1 hb) h

theorem Exact.chainWithin_add (ht : t.Exact f) {stop : Option BlockId}
    (hb : b ≠ f.exitNode) (hf : f.place b < fuel) (extra : Nat) :
    t.chainWithin stop (fuel + extra) b = t.chainWithin stop fuel b := by
  induction fuel generalizing b with
  | zero => omega
  | succ fuel ih =>
    rw [Nat.add_right_comm]
    simp only [chainWithin]
    cases hi : t.immediate? b with
    | none => rfl
    | some v =>
      obtain ⟨hp, hv⟩ := ht.parent?_of_immediate? hi
      have hpl := ht.spans.earlier hp hb
      simp only [Option.elim_some, ih (Nat.ne_of_lt hv) (Nat.lt_of_lt_of_le hpl (by omega))]

theorem Exact.decided_eq_chainWithin (hr : f.TargetsInRange) (ht : t.Exact f)
    (ha : arm < f.numBlocks) {budget : Nat} (hb : t.parent.size + 1 ≤ budget) :
    t.chainWithin (t.immediate? p) budget arm = t.decided p arm := by
  obtain ⟨extra, rfl⟩ := Nat.exists_eq_add_of_le hb
  have hp : f.place arm ≤ f.returnOrder.length := List.idxOf_le_length
  have hl := Function.length_returnOrder_le hr
  have hs := ht.spans.size
  exact ht.chainWithin_add (Nat.ne_of_lt ha) (by omega) extra

theorem Exact.not_postDominates_of_mem_decided (hr : f.TargetsInRange) (ht : t.Exact f)
    (hu : u < f.numBlocks) (har : arm ∈ f.exitSuccessors p) (hc : f.CanReturn arm)
    (h : u ∈ t.decided p arm) (hne : u ≠ p) : ¬f.PostDominates u p := by
  intro hpo
  have hex : u ≠ f.exitNode := Nat.ne_of_lt hu
  obtain ⟨stop, hpa⟩ := Option.isSome_iff_exists.mp ((ht.placed_iff p).mpr hpo.1)
  have hb : t.Above u stop := ((ht.above_iff u p hpo.1).mpr hpo).parent hpa hne
  have hs : stop ≠ f.exitNode := by
    rintro rfl
    exact hex (ht.spans.above_exitNode hb)
  have hi : t.immediate? p = some stop := by
    rw [immediate?, hpa]
    exact ht.block?_eq_some_iff.mpr ⟨rfl, hs⟩
  have hp : p ≠ f.exitNode := Nat.ne_of_lt (Function.mem_exitSuccessors_lt har)
  have hlt := ht.spans.earlier hpa hp
  have hps : p ∉ ({stop} : Finset Nat) := by
    rw [Finset.mem_singleton]
    rintro rfl
    omega
  -- the arm can return, and not without passing where the branch cannot avoid to go
  have hpas : f.PostDominates stop arm :=
    ⟨hc, fun he => ((ht.above_iff stop p hpo.1).mp (.up hpa .here)).2 (.step hps har he)⟩
  rw [decided, hi] at h
  obtain ⟨ha, hn⟩ := ht.stops_below ((ht.above_iff stop arm hc).mpr hpas) h
  have hpl := ht.spans.parent_placed hpa
  exact hn (ht.spans.above_antisymm hr hpl hb ha)

/-- The climb from an arm passes what post-dominates it, up to what post-dominates the branch. -/
theorem Exact.mem_decided_iff (hr : f.TargetsInRange) (ht : t.Exact f) (hu : u < f.numBlocks)
    (har : arm ∈ f.successors p) :
    u ∈ t.decided p arm ↔
      (u = arm ∨ f.PostDominates u arm) ∧ ¬(u ≠ p ∧ f.PostDominates u p) := by
  have hed := Function.mem_exitSuccessors_of_mem_successors har
  by_cases hc : f.CanReturn arm
  · constructor
    · intro h
      refine ⟨.inr ((ht.above_iff u arm hc).mp (ht.above_of_mem_chainWithin h)), fun hp => ?_⟩
      exact ht.not_postDominates_of_mem_decided hr hu hed hc h hp.1 hp.2
    · rintro ⟨hpo, hno⟩
      have hpo : f.PostDominates u arm := by
        rcases hpo with rfl | hpo
        · exact .refl hc
        · exact hpo
      exact ht.mem_decided hr hed hpo (Nat.ne_of_lt hu) fun hne hp => hno ⟨hne, hp⟩
  · -- nothing returns from the arm, so the walk up the tree ends where it starts
    have hn : t.parent? arm = none :=
      Option.not_isSome_iff_eq_none.mp fun hse => hc ((ht.placed_iff arm).mp hse)
    constructor
    · intro h
      obtain rfl : u = arm := by
        cases ht.above_of_mem_chainWithin h with
        | here => rfl
        | up hpa => simp [hn] at hpa
      refine ⟨.inl rfl, fun hp => hc ?_⟩
      have ha := (ht.above_iff u p hp.2.1).mpr hp.2
      have hpl := ht.spans.placed_of_above ha ((ht.placed_iff p).mpr hp.2.1)
      exact ht.spans.canReturn_of_isSome hpl
    · rintro ⟨rfl | hpo, -⟩
      · have hs : some u ≠ t.immediate? p := fun he => hc <| ht.spans.canReturn_of_isSome
          (ht.spans.parent_placed (ht.parent?_of_immediate? he.symm).1)
        simp [decided, chainWithin, hs]
      · exact absurd hpo.1 hc

end PostDominators

namespace Function

variable {f : Function} {t : PostDominators} {b p : BlockId}

theorem mem_decidedBy_iff (hr : f.TargetsInRange) (ht : t.Exact f) (hb : b < f.numBlocks) :
    b ∈ f.decidedBy t p ↔
      (∃ cond ifTrue ifFalse, f.terminator? p = some (.branch cond ifTrue ifFalse)) ∧
      (∃ arm ∈ f.successors p, b = arm ∨ f.PostDominates b arm) ∧
      ¬(b ≠ p ∧ f.PostDominates b p) := by
  unfold decidedBy
  split
  · next cond ifTrue ifFalse hte =>
    have hs : f.successors p = [ifTrue, ifFalse] := by
      simp [successors, hte, Terminator.successors]
    have hm := fun arm (ha : arm ∈ f.successors p) => ht.mem_decided_iff hr hb ha
    rw [List.mem_append, hm ifTrue (by simp [hs]), hm ifFalse (by simp [hs]),
      ← or_and_right, hs]
    simp [hte]
  · next hno =>
    have hn : ¬∃ cond ifTrue ifFalse, f.terminator? p = some (.branch cond ifTrue ifFalse) := by
      rintro ⟨cond, ifTrue, ifFalse, hte⟩
      exact hno cond ifTrue ifFalse hte
    simp [hn]

/-- The branches listed for a block are those with an arm that the block post-dominates, but that
it does not strictly post-dominate. Every list ascends, and the walks up the tree that find them
come to their ends: a larger budget changes nothing. -/
theorem controlDependence_iff_forall_returnPath (hr : f.TargetsInRange) :
    ∃ t lists, PostDominators.ofFunction f = .ok t ∧ f.controlDependence t = .ok lists ∧
      lists.size = f.numBlocks ∧
      (∀ p, ∀ arm ∈ f.successors p, ∀ budget, t.parent.size + 1 ≤ budget →
        t.chainWithin (t.immediate? p) budget arm = t.decided p arm) ∧
      ∀ b parents, lists[b]? = some parents → parents.Pairwise (· < ·) ∧
        ∀ p, p ∈ parents ↔
          (∃ cond ifTrue ifFalse, f.terminator? p = some (.branch cond ifTrue ifFalse)) ∧
          (∃ arm ∈ f.successors p, b = arm ∨ f.AllReturnsPass arm b) ∧
          ¬(b ≠ p ∧ f.AllReturnsPass p b) := by
  obtain ⟨t, hok, ht⟩ := PostDominators.ofFunction_exact hr
  have hbranches := Classifier.branchesInRange_of_targetsInRange hr
  have hsize : (f.controlParents t).size = f.numBlocks := by simp [controlParents, blockIds]
  refine ⟨t, f.controlParents t, hok, by simp [controlDependence, hbranches], hsize, ?_, ?_⟩
  · intro p arm harm budget hbudget
    exact ht.decided_eq_chainWithin hr (hr p arm harm) hbudget
  · intro b parents hparents
    have hb : b < f.numBlocks := hsize ▸ (Array.getElem?_eq_some_iff.mp hparents).1
    rw [getElem?_controlParents hb, Option.some.injEq] at hparents
    subst hparents
    refine ⟨List.pairwise_lt_range.filter _, fun p => ?_⟩
    have hpass : ∀ {w}, w < f.numBlocks → (f.PostDominates b w ↔ f.AllReturnsPass w b) :=
      fun hw => postDominates_iff_returnPath hr hb hw
    rw [List.mem_filter, List.contains_iff_mem, mem_decidedBy_iff hr ht hb]
    by_cases hp : p < f.numBlocks
    · have hmem : p ∈ f.blockIds := List.mem_range.mpr hp
      rw [hpass hp, and_iff_right hmem]
      refine and_congr_right fun _ => and_congr_left fun _ => exists_congr fun arm => ?_
      exact and_congr_right fun harm => or_congr Iff.rfl (hpass (hr p arm harm))
    · have hnone : f.successors p = [] :=
        List.eq_nil_iff_forall_not_mem.mpr fun arm harm => hp (mem_successors_lt harm)
      simp [blockIds, hp, hnone]

end Function

theorem controlDependence_tangled : tangled.TargetsInRange ∧
    ∃ t lists, PostDominators.ofFunction tangled = .ok t ∧ tangled.controlDependence t = .ok lists ∧
      lists = #[[], [0, 2], [0, 1], [1], [2], [4], [2], []] ∧
      ∀ b parents, lists[b]? = some parents → parents.Pairwise (· < ·) ∧
        ∀ p, p ∈ parents ↔
          (∃ cond ifTrue ifFalse, tangled.terminator? p = some (.branch cond ifTrue ifFalse)) ∧
          (∃ arm ∈ tangled.successors p, b = arm ∨ tangled.AllReturnsPass arm b) ∧
          ¬(b ≠ p ∧ tangled.AllReturnsPass p b) := by
  have hr := tangled_targetsInRange
  obtain ⟨t, lists, hok, hlists, -, -, hiff⟩ := Function.controlDependence_iff_forall_returnPath hr
  refine ⟨hr, t, lists, hok, hlists, ?_, hiff⟩
  have hfound : (PostDominators.ofFunction tangled).toOption.any (fun t =>
      (tangled.controlDependence t).toOption ==
        some #[[], [0, 2], [0, 1], [1], [2], [4], [2], []]) = true := by decide +kernel
  simpa [hok, hlists, Except.toOption] using hfound

end Stagewise
