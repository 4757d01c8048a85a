import Stagewise.Proofs.Flow.ReturnPaths

namespace Stagewise

namespace Function

variable {f : Function} {b : BlockId}

theorem ReturnPath.lt {path : List BlockId} (h : f.ReturnPath b path) : b < f.numBlocks := by
  cases h with
  | here hr =>
    have he : f.exitNode ∈ f.exitSuccessors b := by simp [exitSuccessors, hr]
    exact mem_exitSuccessors_lt he
  | step hc _ => exact mem_exitSuccessors_lt (mem_exitSuccessors_of_mem_successors hc)

theorem mem_tail_returnOrder_iff_returnPath (hr : f.TargetsInRange) :
    b ∈ f.returnOrder.tail ↔ ∃ path, f.ReturnPath b path := by
  rw [mem_tail_returnOrder hr]
  constructor
  · intro h
    exact (canReturn_iff_returnPath hr h.1).mp h.2
  · rintro ⟨path, hp⟩
    exact ⟨hp.lt, (canReturn_iff_returnPath hr hp.lt).mpr ⟨path, hp⟩⟩

theorem exists_listed_before (hr : f.TargetsInRange) {before after : List Nat}
    (ho : f.returnOrder = before ++ b :: after) (hb : b ≠ f.exitNode) :
    f.returns b = true ∧ f.exitNode ∈ before ∨ ∃ c ∈ f.successors b, c ∈ before := by
  obtain ⟨_, hi⟩ := returnOrder_inv hr
  obtain ⟨c, hc, hbe⟩ := (hi.found before b after ho).resolve_left hb
  have hm : c ∈ before := by simpa using hbe
  have he := (mem_exitPredecessors hr).mp hc
  unfold exitSuccessors at he
  split at he
  · next hre => exact .inl ⟨hre, List.mem_singleton.mp he ▸ hm⟩
  · exact .inr ⟨c, he, hm⟩

end Function

namespace PostDominators

variable {f : Function} {s t : PostDominators} {a b u v w m : Nat} {nodes : List Nat}

theorem Spans.meets_meet (hr : f.TargetsInRange) (hs : t.Spans f)
    (ha : (t.parent? a).isSome) (hb : (t.parent? b).isSome) : t.Meets a b (t.meet a b) := by
  have hp := f.place_le hr (hs.canReturn_of_isSome ha)
  have hp' := f.place_le hr (hs.canReturn_of_isSome hb)
  have hsi := hs.size
  exact hs.meets_meetWithin hr ha hb (by omega)

theorem parent?_refine_ne (f : Function) (t : PostDominators) (h : v ≠ w) :
    (refine f t w).parent? v = t.parent? v := by
  unfold refine
  split
  · simp only [parent?]
    rw [Array.getElem?_setIfInBounds_ne (Ne.symm h)]
  · rfl

theorem parent?_foldl_refine (f : Function) (t : PostDominators) (h : v ∉ nodes) :
    (nodes.foldl (refine f) t).parent? v = t.parent? v := by
  induction nodes generalizing t with
  | nil => rfl
  | cons w nodes ih =>
    have hne : v ≠ w := fun he => h (he ▸ List.mem_cons_self)
    rw [List.foldl_cons, ih _ fun hm => h (List.mem_cons_of_mem w hm), parent?_refine_ne f t hne]

theorem refine_eq_self (h : (refine f t v).parent? v = t.parent? v) : refine f t v = t := by
  have hs : (refine f t v).parent.size = t.parent.size := by
    unfold refine
    split <;> simp
  have hp : (refine f t v).position = t.position := by
    unfold refine
    split <;> rfl
  refine eq_of_sameParents hs hp ?_
  have hsa : ∀ x, (refine f t v).parent? x = t.parent? x := by
    intro x
    by_cases hx : x = v
    · rw [hx, h]
    · exact parent?_refine_ne f t hx
  simp [sameParents, parentCode, hsa]

theorem refine_eq_of_foldl_eq (hnd : nodes.Nodup) (h : nodes.foldl (refine f) t = t) :
    ∀ v ∈ nodes, refine f t v = t := by
  induction nodes with
  | nil => simp
  | cons w nodes ih =>
    obtain ⟨hw, hnd⟩ := List.nodup_cons.mp hnd
    rw [List.foldl_cons] at h
    have ht : refine f t w = t := by
      apply refine_eq_self
      rw [← parent?_foldl_refine f (refine f t w) hw, h]
    rw [ht] at h
    intro v hv
    rcases List.mem_cons.mp hv with rfl | hv
    · exact ht
    · exact ih hnd h v hv

theorem exists_settle_eq_iterate (f : Function) (order : List Nat) (fuel : Nat)
    (t : PostDominators) : ∃ k ≤ fuel, settle f order fuel t = (round f order)^[k] t := by
  induction fuel generalizing t with
  | zero => exact ⟨0, le_rfl, rfl⟩
  | succ fuel ih =>
    simp only [settle]
    split
    · exact ⟨0, Nat.zero_le _, rfl⟩
    · obtain ⟨k, hk, heq⟩ := ih (round f order t)
      exact ⟨k + 1, Nat.succ_le_succ hk, by rw [heq, Function.iterate_succ_apply]⟩

theorem exists_round_unchanged (hr : f.TargetsInRange) :
    ∃ k ≤ f.numBlocks + 1, ∃ t, t = (round f f.returnOrder)^[k] (initial f f.returnOrder) ∧
      ofFunction f = .ok t ∧ ∀ v ∈ f.returnOrder.tail, refine f t v = t := by
  have hnd : f.returnOrder.tail.Nodup := (f.nodup_returnOrder hr).tail
  have hf : ∀ {t : PostDominators}, t.Exact f → ∀ v ∈ f.returnOrder.tail, refine f t v = t :=
    fun he => refine_eq_of_foldl_eq hnd (he.round_eq hr)
  have hok := ofFunction_eq_settle hr
  have hs := settle_exact hr afterRounds_initial (numBlocks_lt_rounds f)
  obtain ⟨k, -, hk⟩ := exists_settle_eq_iterate f f.returnOrder
    ((f.numBlocks + 2) * (f.numBlocks + 2)) (initial f f.returnOrder)
  rw [hk] at hok hs
  by_cases hle : k ≤ f.numBlocks + 1
  · exact ⟨k, hle, _, rfl, hok, hf hs⟩
  · -- the tree is found after as many rounds as there are blocks, and kept from then on
    have he := (afterRounds_iterate hr (f.numBlocks + 1)).exact (by omega) (by omega)
    have hsa : (round f f.returnOrder)^[k] (initial f f.returnOrder)
        = (round f f.returnOrder)^[f.numBlocks + 1] (initial f f.returnOrder) := by
      obtain ⟨j, rfl⟩ := Nat.exists_eq_add_of_le' (Nat.le_of_not_le hle)
      rw [Function.iterate_add_apply, Function.iterate_fixed (he.round_eq hr)]
    rw [hsa] at hok
    exact ⟨f.numBlocks + 1, le_rfl, _, rfl, hok, hf he⟩

/-- The order of the search is the exit and then the blocks from which a path returns, each once and
after the exit or a successor. Throughout the rounds, a parent of a listed block is earlier in the
order and has a parent itself, and any two climbs from nodes with parents meet at such a node. After
at most one round more than there are blocks, no block's turn changes the tree. -/
theorem rounds_safe (hr : f.TargetsInRange) :
    f.returnOrder = f.exitNode :: f.returnOrder.tail ∧ f.returnOrder.Nodup ∧
    (∀ b, b ∈ f.returnOrder.tail ↔ ∃ path, f.ReturnPath b path) ∧
    (∀ before b after, f.returnOrder = before ++ b :: after → b ≠ f.exitNode →
      f.returns b = true ∧ f.exitNode ∈ before ∨ ∃ c ∈ f.successors b, c ∈ before) ∧
    (∀ s, Passes f s →
      (∀ v ∈ f.returnOrder, s.positionOf v = f.returnOrder.idxOf v) ∧
      (∀ v ∈ f.returnOrder.tail, ∀ u, s.parent? v = some u →
        s.positionOf u < s.positionOf v ∧ (s.parent? u).isSome = true) ∧
      ∀ a b, (s.parent? a).isSome = true → (s.parent? b).isSome = true →
        s.Meets a b (s.meet a b) ∧ (s.parent? (s.meet a b)).isSome = true) ∧
    ∃ k ≤ f.numBlocks + 1, ∃ t, t = (round f f.returnOrder)^[k] (initial f f.returnOrder) ∧
      ofFunction f = .ok t ∧ ∀ v ∈ f.returnOrder.tail, refine f t v = t := by
  refine ⟨f.returnOrder_eq_cons hr, f.nodup_returnOrder hr,
    fun b => f.mem_tail_returnOrder_iff_returnPath hr,
    fun before b after ho hb => f.exists_listed_before hr ho hb, fun s hpass => ?_,
    exists_round_unchanged hr⟩
  have hs := hpass.spans hr
  have hposition : ∀ v ∈ f.returnOrder, s.positionOf v = f.place v := fun v hv =>
    hs.position v ((f.mem_returnOrder hr).mp hv).le_exitNode
  refine ⟨hposition, fun v hv u hu => ?_, fun a b ha hb => ?_⟩
  · have hexit : v ≠ f.exitNode := Nat.ne_of_lt ((f.mem_tail_returnOrder hr).mp hv).1
    have hplaced := hs.parent_placed hu
    have hlisted := (f.mem_returnOrder hr).mpr (hs.canReturn_of_isSome hplaced)
    rw [hposition u hlisted, hposition v (List.mem_of_mem_tail hv)]
    exact ⟨hs.earlier hu hexit, hplaced⟩
  · exact ⟨hs.meets_meet hr ha hb, (hs.meet_above hr ha hb).1⟩

end PostDominators

theorem rounds_tangled : tangled.TargetsInRange ∧
    tangled.returnOrder = [8, 3, 6, 4, 2, 1, 0, 7] ∧
    (∀ b, b ∈ tangled.returnOrder.tail ↔ ∃ path, tangled.ReturnPath b path) ∧
    ∃ k ≤ 9, ∃ t, t = (PostDominators.round tangled tangled.returnOrder)^[k]
        (PostDominators.initial tangled tangled.returnOrder) ∧
      PostDominators.ofFunction tangled = .ok t ∧
      (∀ v ∈ tangled.returnOrder.tail, PostDominators.refine tangled t v = t) ∧
      t.Meets 4 7 6 := by
  have hr := tangled_targetsInRange
  obtain ⟨-, -, hlisted, -, hpasses, k, hk, t, ht, hok, hfixed⟩ := PostDominators.rounds_safe hr
  refine ⟨hr, by decide +kernel, hlisted, k, hk, t, ht, hok, hfixed, ?_⟩
  have hfound : (PostDominators.ofFunction tangled).toOption.any (fun t =>
      t.meet 4 7 == 6 && (t.parent? 4).isSome && (t.parent? 7).isSome) = true := by decide +kernel
  simp only [hok, Except.toOption, Option.any_some, Bool.and_eq_true, beq_iff_eq] at hfound
  have hpass : PostDominators.Passes tangled t := ⟨k, [], _, rfl, ht⟩
  have hmeets := ((hpasses t hpass).2.2 4 7 hfound.1.2 hfound.2).1
  rwa [hfound.1.1] at hmeets

end Stagewise
