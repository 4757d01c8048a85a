import Mathlib.Data.List.Forall2
import Stagewise.Emission.Record

namespace Stagewise

namespace TypePool

/-- The primitive types are where they belong, and elements are numbered before what they are
elements of. -/
structure Grounded (p : TypePool) : Prop where
  int : p.get TypeId.int = .int
  element_lt : ∀ id elem, p.element id = some elem → elem < id

structure Extends (p q : TypePool) : Prop where
  size_le : p.size ≤ q.size
  get : ∀ id, id < p.size → q.get id = p.get id

variable {p q r : TypePool}

theorem Extends.refl (p : TypePool) : p.Extends p := ⟨Nat.le_refl _, fun _ _ => rfl⟩

theorem Extends.trans (h : p.Extends q) (h' : q.Extends r) : p.Extends r := by
  refine ⟨Nat.le_trans h.size_le h'.size_le, fun id hid => ?_⟩
  rw [h'.get id (Nat.lt_of_lt_of_le hid h.size_le), h.get id hid]

theorem lt_size_of_get {id : TypeId} {t : Ty} (h : p.get id = t) (hne : t ≠ .void) :
    id < p.size := by
  by_contra hge
  have hn : p.types[id]? = none := Array.getElem?_eq_none (Nat.not_lt.mp hge)
  exact hne (by rw [← h, get, hn]; rfl)

theorem intern_spec (p : TypePool) (t : Ty) : p.Extends (p.intern t).2 ∧
    (p.intern t).1 < (p.intern t).2.size ∧ (p.intern t).2.get (p.intern t).1 = t := by
  unfold intern
  split
  · next n hn =>
    obtain ⟨hlt, heq, -⟩ := Array.findIdx?_eq_some_iff_getElem.mp hn
    refine ⟨.refl p, hlt, ?_⟩
    simp [get, Array.getElem?_eq_getElem hlt, beq_iff_eq.mp heq]
  · refine ⟨⟨?_, fun id hid => ?_⟩, ?_, ?_⟩
    · simp [size]
    · have hne : id ≠ p.types.size := Nat.ne_of_lt hid
      simp [get, Array.getElem?_push, hne]
    · simp [size]
    · simp [get, size]

theorem grounded_iff : p.Grounded ↔ p.get TypeId.int = .int ∧
    ∀ id ∈ List.range p.size, ∀ elem ∈ p.element id, elem < id := by
  refine ⟨fun h => ⟨h.int, fun id _ elem he => h.element_lt id elem he⟩, fun ⟨hi, h⟩ =>
    ⟨hi, fun id elem he => h id (List.mem_range.mpr ?_) elem he⟩⟩
  refine lt_size_of_get rfl fun hv => ?_
  rw [element, hv] at he
  cases he

instance : Decidable p.Grounded := decidable_of_iff _ grounded_iff.symm

theorem internArrays_spec (p : TypePool) (slots : List ArraySlot) :
    p.Extends (p.internArrays slots).2 ∧
    List.Forall₂ (fun slot id => id < (p.internArrays slots).2.size ∧
      (p.internArrays slots).2.get id = .array slot.elem slot.len) slots
      (p.internArrays slots).1 := by
  induction slots generalizing p with
  | nil => exact ⟨.refl p, .nil⟩
  | cons slot rest ih =>
    obtain ⟨he, hlt, hg⟩ := p.intern_spec (.array slot.elem slot.len)
    obtain ⟨he', hr⟩ := ih (p.intern (.array slot.elem slot.len)).2
    refine ⟨he.trans he', .cons ⟨Nat.lt_of_lt_of_le hlt he'.size_le, ?_⟩ hr⟩
    exact (he'.get _ hlt).trans hg

section Objects

variable {id : TypeId}

theorem element_eq {elem : TypeId} {len : Nat} (h : p.get id = .array elem len) :
    p.element id = some elem := by simp [element, h]

theorem isObjectWithin_extends (hp : p.Grounded) (h : p.Extends q) {depth depth' : Nat}
    (hid : id < p.size) (hd : id < depth) (hd' : id < depth') :
    q.isObjectWithin depth' id = p.isObjectWithin depth id := by
  induction depth generalizing depth' id with
  | zero => exact absurd hd (Nat.not_lt_zero _)
  | succ depth ih =>
    cases depth' with
    | zero => exact absurd hd' (Nat.not_lt_zero _)
    | succ depth' =>
      simp only [isObjectWithin, h.get id hid]
      split
      · rfl
      · next elem len hg =>
        have he : elem < id := hp.element_lt id elem (element_eq hg)
        exact ih (Nat.lt_trans he hid) (Nat.lt_of_lt_of_le he (Nat.lt_succ_iff.mp hd))
          (Nat.lt_of_lt_of_le he (Nat.lt_succ_iff.mp hd'))
      · rfl

theorem isObject_extends (hp : p.Grounded) (h : p.Extends q) (hid : id < p.size) :
    q.isObject id = p.isObject id :=
  isObjectWithin_extends hp h hid (Nat.lt_succ_of_lt hid)
    (Nat.lt_succ_of_lt (Nat.lt_of_lt_of_le hid h.size_le))

end Objects

end TypePool

end Stagewise
