import Mathlib.Data.Finset.Card
import Stagewise.Proofs.Semantics.Types

namespace Stagewise

def Ty.parts : Ty → List TypeId
  | .vector elem _ => [elem]
  | .array elem _ => [elem]
  | .struct fields _ => fields
  | _ => []

namespace TypePool

variable {p q : TypePool} {id : TypeId} {t : Ty}

def Closed (p : TypePool) : Prop := ∀ t ∈ p.types, ∀ part ∈ t.parts, part < p.size

instance : Decidable p.Closed :=
  inferInstanceAs (Decidable (∀ t ∈ p.types, ∀ part ∈ t.parts, part < p.size))

theorem Closed.part_lt (h : p.Closed) {part : TypeId} (hp : part ∈ (p.get id).parts) :
    part < p.size := by
  have hid : id < p.size := lt_size_of_get rfl fun hv => by
    rw [hv] at hp
    cases hp
  refine h (p.get id) ?_ part hp
  rw [get, Array.getElem?_eq_getElem hid]
  exact Array.getElem_mem hid

section Extends

theorem Closed.element_lt (hp : p.Closed) {elem : TypeId} (h : p.element id = some elem) :
    elem < p.size := by
  refine hp.part_lt (show elem ∈ (p.get id).parts from ?_)
  unfold element at h
  split at h
  · next hg => simp_all [Ty.parts]
  · next hg => simp_all [Ty.parts]
  · cases h

theorem Closed.member_lt (hp : p.Closed) {index : Nat} {part : TypeId}
    (h : p.member id index = some part) : part < p.size := by
  refine hp.part_lt (show part ∈ (p.get id).parts from ?_)
  unfold member at h
  split at h
  · next hg =>
    rw [hg]
    exact List.mem_of_getElem? h
  · next hg => simp_all [Ty.parts]
  · next hg => simp_all [Ty.parts]
  · cases h

theorem Closed.memberPath (hp : p.Closed) (h : p.Extends q) (hid : id < p.size) (path : List Nat) :
    q.memberPath id path = p.memberPath id path ∧
      ∀ part ∈ p.memberPath id path, part < p.size := by
  induction path generalizing id with
  | nil =>
    refine ⟨rfl, fun part hpa => ?_⟩
    obtain rfl := Option.some.inj hpa
    exact hid
  | cons index path ih =>
    have hs : q.member id index = p.member id index := by simp only [member, h.get id hid]
    simp only [TypePool.memberPath, hs]
    cases hm : p.member id index with
    | none => simp
    | some part => exact ih (hp.member_lt hm)

end Extends

section Objects

variable {depth : Nat}

theorem isObjectWithin_succ (h : p.isObjectWithin depth id = true) :
    p.isObjectWithin (depth + 1) id = true := by
  induction depth generalizing id with
  | zero => cases h
  | succ depth ih =>
    unfold isObjectWithin at h ⊢
    split at h
    · rfl
    · exact ih h
    · cases h

theorem isObjectWithin_of_le {depth' : Nat} (hle : depth ≤ depth')
    (h : p.isObjectWithin depth id = true) : p.isObjectWithin depth' id = true := by
  induction hle with
  | refl => exact h
  | step _ ih => exact isObjectWithin_succ ih

def objectsWithin (p : TypePool) (depth : Nat) : Finset TypeId :=
  (Finset.range p.size).filter fun id => p.isObjectWithin depth id = true

theorem mem_objectsWithin :
    id ∈ p.objectsWithin depth ↔ id < p.size ∧ p.isObjectWithin depth id = true := by
  simp [objectsWithin]

theorem Closed.lt_card_objectsWithin (hp : p.Closed) (hid : id < p.size)
    (h : p.isObjectWithin (depth + 1) id = true) (hn : p.isObjectWithin depth id = false) :
    depth < (p.objectsWithin (depth + 1)).card := by
  induction depth generalizing id with
  | zero => exact Finset.card_pos.mpr ⟨id, mem_objectsWithin.mpr ⟨hid, h⟩⟩
  | succ depth ih =>
    obtain ⟨elem, len, hg⟩ : ∃ elem len, p.get id = .array elem len := by
      unfold isObjectWithin at h hn
      split at h
      · next hg => simp [hg] at hn
      · next elem len hg => exact ⟨elem, len, hg⟩
      · cases h
    have he : elem < p.size := hp.element_lt (element_eq hg)
    have hf : depth < (p.objectsWithin (depth + 1)).card := by
      refine ih he ?_ ?_
      · unfold isObjectWithin at h
        simpa only [hg] using h
      · unfold isObjectWithin at hn
        simpa only [hg] using hn
    have hm : p.objectsWithin (depth + 1) ⊂ p.objectsWithin (depth + 1 + 1) := by
      refine Finset.ssubset_iff_subset_ne.mpr ⟨fun x hx => ?_, fun heq => ?_⟩
      · obtain ⟨hlt, hx⟩ := mem_objectsWithin.mp hx
        exact mem_objectsWithin.mpr ⟨hlt, isObjectWithin_succ hx⟩
      · have hme := mem_objectsWithin.mpr ⟨hid, h⟩
        rw [← heq] at hme
        simp [(mem_objectsWithin.mp hme).2] at hn
    have := Finset.card_lt_card hm
    omega

theorem Closed.isObject_of_within (hp : p.Closed) (hid : id < p.size)
    (h : p.isObjectWithin depth id = true) : p.isObject id = true := by
  induction depth with
  | zero => cases h
  | succ depth ih =>
    cases hf : p.isObjectWithin depth id with
    | true => exact ih hf
    | false =>
      have hlt := hp.lt_card_objectsWithin hid h hf
      have hle : (p.objectsWithin (depth + 1)).card ≤ p.size := by
        calc (p.objectsWithin (depth + 1)).card ≤ (Finset.range p.size).card :=
              Finset.card_filter_le _ _
          _ = p.size := Finset.card_range _
      exact isObjectWithin_of_le (by omega) h

theorem Closed.isObjectWithin_eq (hp : p.Closed) (h : p.Extends q) (hid : id < p.size) (depth : Nat) :
    q.isObjectWithin depth id = p.isObjectWithin depth id := by
  induction depth generalizing id with
  | zero => rfl
  | succ depth ih =>
    simp only [isObjectWithin, h.get id hid]
    split
    · rfl
    · next elem len hg => exact ih (hp.element_lt (element_eq hg))
    · rfl

theorem Closed.isObject_eq (hp : p.Closed) (h : p.Extends q) (hid : id < p.size) :
    q.isObject id = p.isObject id := by
  rw [Bool.eq_iff_iff]
  constructor
  · intro hq
    exact hp.isObject_of_within hid ((hp.isObjectWithin_eq h hid _).symm.trans hq)
  · intro hp'
    refine isObjectWithin_of_le (Nat.succ_le_succ h.size_le) ?_
    exact (hp.isObjectWithin_eq h hid _).trans hp'

end Objects

section Fields

/-- The description of a type that is no array, as an element of an array of a given length. -/
def lanesOf (p : TypePool) (id : TypeId) (elements : Nat) : SlotType :=
  let (ty, rows) := match p.get id with
    | .vector elem len => (elem, len)
    | _ => (id, 1)
  SlotType.ofBase (p.get ty) rows elements

theorem ofType_of_array {elem : TypeId} {len : Nat} (hg : p.get id = .array elem len) :
    SlotType.ofType p id = p.lanesOf elem len := by
  unfold SlotType.ofType
  rw [hg]
  rfl

theorem ofType_of_not_array (hg : ∀ elem len, p.get id ≠ .array elem len) :
    SlotType.ofType p id = p.lanesOf id 0 := by
  unfold SlotType.ofType
  cases h : p.get id with
  | array elem len => exact absurd h (hg elem len)
  | _ => rfl

theorem Closed.lanesOf_eq (hp : p.Closed) (h : p.Extends q) (hid : id < p.size) (elements : Nat) :
    q.lanesOf id elements = p.lanesOf id elements := by
  unfold lanesOf
  rw [h.get id hid]
  cases hg : p.get id with
  | vector elem rows =>
    have he : elem < p.size := hp.part_lt (by rw [hg]; exact List.mem_singleton_self _)
    simp only [h.get elem he]
  | _ => simp only [h.get id hid, hg]

theorem Closed.slotType_eq (hp : p.Closed) (h : p.Extends q) (hid : id < p.size) :
    SlotType.ofType q id = SlotType.ofType p id := by
  by_cases ha : ∃ elem len, p.get id = .array elem len
  · obtain ⟨elem, len, hg⟩ := ha
    rw [ofType_of_array hg, ofType_of_array ((h.get id hid).trans hg)]
    exact hp.lanesOf_eq h (hp.part_lt (by rw [hg]; exact List.mem_singleton_self _)) len
  · have hn : ∀ elem len, p.get id ≠ .array elem len := fun elem len hg =>
      ha ⟨elem, len, hg⟩
    rw [ofType_of_not_array hn, ofType_of_not_array fun elem len hg =>
      hn elem len ((h.get id hid).symm.trans hg)]
    exact hp.lanesOf_eq h hid 0

theorem Closed.slotType_array (hp : p.Closed) (h : p.Extends q) {elem : TypeId} {len : Nat}
    (hg : q.get id = .array elem len) (he : elem < p.size) :
    SlotType.ofType q id = p.lanesOf elem len := by
  rw [ofType_of_array hg]
  exact hp.lanesOf_eq h he len

end Fields

section Interning

/-- A larger pool finds a type where the smaller one has put it. -/
theorem intern_of_extends (h : (p.intern t).2.Extends q) : q.intern t = ((p.intern t).1, q) := by
  obtain ⟨-, hlt, hg⟩ := p.intern_spec t
  have hfi : ∀ j, j < (p.intern t).1 → (p.intern t).2.get j ≠ t := by
    unfold intern
    split
    · next n hn =>
      obtain ⟨hn, -, hb⟩ := Array.findIdx?_eq_some_iff_getElem.mp hn
      intro j hj heq
      refine hb j hj ?_
      rw [get, Array.getElem?_eq_getElem (hj.trans hn)] at heq
      exact beq_iff_eq.mpr heq
    · next hno =>
      intro j hj heq
      have hj : j < p.types.size := hj
      rw [get, Array.getElem?_push_lt hj, Option.getD_some] at heq
      have hne := Array.findIdx?_eq_none_iff.mp hno p.types[j] (Array.getElem_mem hj)
      exact beq_eq_false_iff_ne.mp hne heq
  have hi : ∀ j (hj : j < q.types.size), q.types[j] = q.get j := by
    intro j hj
    rw [get, Array.getElem?_eq_getElem hj, Option.getD_some]
  have hs : (p.intern t).1 < q.types.size := Nat.lt_of_lt_of_le hlt h.size_le
  have hf : q.types.findIdx? (· == t) = some (p.intern t).1 := by
    refine Array.findIdx?_eq_some_iff_getElem.mpr ⟨hs, ?_, fun j hj heq => ?_⟩
    · rw [hi _ hs, h.get _ hlt]
      exact beq_iff_eq.mpr hg
    · refine hfi j hj ?_
      rw [← h.get j (hj.trans hlt), ← hi j (hj.trans hs)]
      exact beq_iff_eq.mp heq
  generalize (p.intern t).1 = n at hf
  simp only [intern, hf]

theorem internArrays_of_extends {slots : List ArraySlot} (h : (p.internArrays slots).2.Extends q) :
    q.internArrays slots = ((p.internArrays slots).1, q) := by
  induction slots generalizing p with
  | nil => rfl
  | cons slot rest ih =>
    obtain ⟨hr, -⟩ := (p.intern (.array slot.elem slot.len)).2.internArrays_spec rest
    have hf : q.intern (.array slot.elem slot.len) = ((p.intern (.array slot.elem slot.len)).1, q) :=
      intern_of_extends (hr.trans h)
    have ho : q.internArrays rest
        = (((p.intern (.array slot.elem slot.len)).2.internArrays rest).1, q) := ih h
    simp only [internArrays, hf, ho]

end Interning

end TypePool

end Stagewise
