import Mathlib.Data.List.Nodup
import Stagewise.Scope.Set

namespace Stagewise

namespace ScopeSet

variable {x y : ScopeSet} {s t : Scope}

theorem lt_of_contains (h : x.contains s = true) : s.val < Scope.limit := by
  simp only [contains, Bool.and_eq_true, decide_eq_true_eq] at h
  exact h.1

@[simp] theorem contains_diff (x y : ScopeSet) (s : Scope) :
    (x.diff y).contains s = (x.contains s && !y.contains s) := by
  by_cases hs : s.val < 32
  · simp [contains, diff, hs, Scope.limit]
  · simp [contains, diff, hs, Scope.limit]

theorem contains_single (s t : Scope) :
    (single s).contains t = (decide (s = t) && decide (t.val < Scope.limit)) := by
  by_cases ht : t.val < 32
  · by_cases hs : s.val < 32
    · have hv : s = t ↔ t.val = s.val := ⟨fun h => h ▸ rfl, fun h => Fin.ext h.symm⟩
      simp [contains, single, bit, ht, hs, Scope.limit, hv, eq_comm]
    · have hne : s ≠ t := fun h => hs (h ▸ ht)
      simp [contains, single, bit, hs, Scope.limit, hne]
  · simp [contains, ht, Scope.limit]

theorem contains_ofList {xs : List Scope} :
    (ofList xs).contains s = true ↔ s ∈ xs ∧ s.val < Scope.limit := by
  have hf : ∀ y : ScopeSet, (xs.foldl insert y).contains s = true ↔
      y.contains s = true ∨ s ∈ xs ∧ s.val < Scope.limit := by
    induction xs with
    | nil => simp
    | cons z xs ih =>
      intro y
      have hi : (y.insert z).contains s = (y.contains s || (single z).contains s) := by
        simp [contains, insert, single, Bool.and_or_distrib_left]
      rw [List.foldl_cons, ih, hi, contains_single, Bool.or_eq_true, Bool.and_eq_true,
        decide_eq_true_eq, decide_eq_true_eq, List.mem_cons]
      constructor
      · rintro ((h | ⟨rfl, h⟩) | ⟨h, hlt⟩)
        · exact .inl h
        · exact .inr ⟨.inl rfl, h⟩
        · exact .inr ⟨.inr h, hlt⟩
      · rintro (h | ⟨rfl | h, hlt⟩)
        · exact .inl (.inl h)
        · exact .inl (.inr ⟨rfl, hlt⟩)
        · exact .inr ⟨h, hlt⟩
  rw [ofList, hf]
  simp

theorem mem_candidates : s ∈ candidates ↔ s.val < Scope.limit := by
  simp only [candidates, List.mem_map, List.mem_range]
  constructor
  · rintro ⟨k, hk, rfl⟩
    simp only [Scope.ofNat, Scope.limit] at *
    omega
  · intro hs
    exact ⟨s.val, hs, Fin.ext (Nat.mod_eq_of_lt s.isLt)⟩

theorem mem_toList : s ∈ x.toList ↔ x.contains s = true := by
  rw [toList, List.mem_filter, mem_candidates]
  exact ⟨fun h => h.2, fun h => ⟨lt_of_contains h, h⟩⟩

theorem nodup_toList (x : ScopeSet) : x.toList.Nodup := by
  refine List.Nodup.filter _ ?_
  decide

theorem contains_first_iff {n : Nat} :
    (first n).contains s = true ↔ s.val < min n Scope.limit := by
  rw [contains_eq, Bool.and_eq_true, decide_eq_true_eq]
  unfold first
  split
  · next h =>
    simp only [Scope.limit] at h ⊢
    simp only [BitVec.getLsbD_ofNat, Nat.one_shiftLeft, Nat.testBit_two_pow_sub_one,
      Bool.and_eq_true, decide_eq_true_eq]
    omega
  · next h =>
    simp only [Scope.limit] at h ⊢
    simp only [BitVec.getLsbD_allOnes, decide_eq_true_eq]
    omega

theorem contains_first {n : Nat} (hn : n ≤ Scope.limit) :
    (first n).contains s = true ↔ s.val < n := by
  rw [contains_first_iff, Nat.min_eq_left hn]

theorem isEmpty_iff : x.isEmpty = true ↔ ∀ s, x.contains s = false := by
  simp only [isEmpty, beq_iff_eq]
  constructor
  · intro h s
    simp [contains, h]
  · intro h
    refine BitVec.eq_of_getLsbD_eq fun i hi => ?_
    have := h (.ofNat i)
    have hm : i % 256 = i := Nat.mod_eq_of_lt (by omega)
    simpa [contains, Scope.ofNat, Scope.limit, hm, hi] using this

theorem mem_toList_inter :
    s ∈ (x.inter y).toList ↔ x.contains s = true ∧ y.contains s = true := by
  rw [mem_toList, contains_inter, Bool.and_eq_true]

theorem toList_ne_nil (h : ¬x.isEmpty = true) : x.toList ≠ [] := by
  intro hn
  refine h (isEmpty_iff.mpr fun s => ?_)
  by_contra hs
  rw [Bool.not_eq_false, ← mem_toList, hn] at hs
  simp at hs

theorem ext_contains (h : ∀ s, x.contains s = true ↔ y.contains s = true) :
    x = y := by
  obtain ⟨bits⟩ := x
  obtain ⟨bits'⟩ := y
  congr 1
  refine BitVec.eq_of_getLsbD_eq fun i hi => ?_
  have hm : i % 256 = i := Nat.mod_eq_of_lt (by omega)
  have := h (.ofNat i)
  simp only [contains, Scope.ofNat, Scope.limit, hm, hi, decide_true, Bool.true_and] at this
  exact Bool.eq_iff_iff.mpr this

theorem exists_contains (h : x.isEmpty = false) : ∃ s, x.contains s = true := by
  by_contra hn
  push Not at hn
  have he : x.isEmpty = true := isEmpty_iff.mpr fun s => by simpa using hn s
  rw [h] at he
  cases he

end ScopeSet

end Stagewise
