import Stagewise.Proofs.Semantics.ClosedTypes

namespace Stagewise

namespace TypePool

variable {p : TypePool} {id : TypeId} {t : Ty} {log : List (Ty × TypeId)}

/-- A pool with the types that were interned and the numbers that were given for them. A type is made
of types whose numbers were given before; those of the primitive types are given from the start. -/
inductive Built : List (Ty × TypeId) → TypePool → Prop
  | fresh : Built Ty.primitives.zipIdx empty
  | intern {log : List (Ty × TypeId)} {p : TypePool} {t : Ty} : Built log p →
      (∀ part ∈ t.parts, part ∈ log.map Prod.snd) → Built ((t, (p.intern t).1) :: log) (p.intern t).2

/-- Interning finds a type that is there, or adds one that is not. -/
theorem intern_cases (p : TypePool) (t : Ty) : (p.intern t).2 = p ∨
    (p.intern t).1 = p.size ∧ (p.intern t).2.size = p.size + 1 ∧ ∀ id < p.size, p.get id ≠ t := by
  unfold intern
  split
  · exact .inl rfl
  · next hno =>
    refine .inr ⟨rfl, by simp [size], fun id hid => ?_⟩
    rw [get, Array.getElem?_eq_getElem hid, Option.getD_some]
    exact beq_eq_false_iff_ne.mp (Array.findIdx?_eq_none_iff.mp hno _ (Array.getElem_mem hid))

structure Sound (log : List (Ty × TypeId)) (p : TypePool) : Prop where
  given : ∀ e ∈ log, e.2 < p.size ∧ p.get e.2 = e.1
  inj : ∀ i < p.size, ∀ j < p.size, p.get i = p.get j → i = j
  part_lt : ∀ id, ∀ part ∈ (p.get id).parts, part < id
  int : (.int, TypeId.int) ∈ log

/-- Each type of a pool that was built has one number, behind those of its parts. -/
theorem Built.sound (h : Built log p) : Sound log p := by
  induction h with
  | fresh =>
    refine ⟨by decide, by decide, fun id part hp => ?_, by decide⟩
    match id with
    | 0 | 1 | 2 | 3 | _ + 4 => cases hp
  | @intern log p t hb hp ih =>
    obtain ⟨he, hlt, hg⟩ := p.intern_spec t
    have hgi : ∀ e ∈ (t, (p.intern t).1) :: log, e.2 < (p.intern t).2.size ∧ (p.intern t).2.get e.2 = e.1 := by
      refine List.forall_mem_cons.mpr ⟨⟨hlt, hg⟩, fun e hm => ?_⟩
      obtain ⟨hid, hge⟩ := ih.given e hm
      exact ⟨Nat.lt_of_lt_of_le hid he.size_le, (he.get _ hid).trans hge⟩
    rcases p.intern_cases t with hs | ⟨hn, hs, hne⟩
    · rw [hs] at hgi ⊢
      exact ⟨hgi, ih.inj, ih.part_lt, List.mem_cons_of_mem _ ih.int⟩
    · rw [hn] at hg
      have hold : ∀ i < (p.intern t).2.size, i < p.size ∧ (p.intern t).2.get i = p.get i ∨ i = p.size :=
        fun i hi => (Nat.lt_succ_iff_lt_or_eq.mp (Nat.lt_of_lt_of_eq hi hs)).imp_left fun h => ⟨h, he.get i h⟩
      refine ⟨hgi, fun i hi j hj heq => ?_, fun id part hpa => ?_, List.mem_cons_of_mem _ ih.int⟩
      · rcases hold i hi with ⟨hi, hgi⟩ | rfl <;> rcases hold j hj with ⟨hj, hgj⟩ | rfl
        · exact ih.inj i hi j hj (hgi ▸ hgj ▸ heq)
        · exact absurd (hgi.symm.trans (heq.trans hg)) (hne i hi)
        · exact absurd (hgj.symm.trans (heq.symm.trans hg)) (hne j hj)
        · rfl
      · have hid : id < (p.intern t).2.size := lt_size_of_get rfl fun hv => by
          rw [hv] at hpa
          cases hpa
        rcases hold id hid with ⟨-, hgo⟩ | rfl
        · exact ih.part_lt id part (hgo ▸ hpa)
        · obtain ⟨e, hm, rfl⟩ := List.mem_map.mp (hp part (hg ▸ hpa))
          exact (ih.given e hm).1

theorem Sound.grounded (h : Sound log p) : p.Grounded := by
  refine ⟨(h.given _ h.int).2, fun id elem he => h.part_lt id elem ?_⟩
  unfold element at he
  split at he
  · next hg => simp_all [Ty.parts]
  · next hg => simp_all [Ty.parts]
  · cases he

theorem Grounded.isObject_eq (hp : p.Grounded) (id : TypeId) : p.isObject id =
    match p.get id with
    | .texture _ => true
    | .array elem _ => p.isObject elem
    | _ => false := by
  rw [isObject, isObjectWithin]
  cases hg : p.get id with
  | array elem len =>
    have hid : id < p.size := lt_size_of_get hg (by simp)
    have he := (hp.element_lt id elem (element_eq hg)).trans hid
    exact (isObjectWithin_extends hp (.refl p) he he (Nat.lt_succ_of_lt he)).symm
  | _ => rfl

/-- Peels array layers off a type for as long as there are any; `none` if there is no end of them. -/
def endsInTexture? (p : TypePool) (id : TypeId) : Option Bool :=
  match p.get id with
  | .texture _ => some true
  | .array elem _ => p |>.endsInTexture? elem
  | _ => some false
partial_fixpoint

/-- What is left of a type without its array layers. -/
inductive Peels (p : TypePool) : TypeId → Ty → Prop
  | bare {id : TypeId} : (∀ elem len, p.get id ≠ .array elem len) → Peels p id (p.get id)
  | layer {id elem : TypeId} {len : Nat} {t : Ty} : p.get id = .array elem len → Peels p elem t →
      Peels p id t

theorem Grounded.endsInTexture?_eq (hp : p.Grounded) (id : TypeId) :
    p.endsInTexture? id = some (p.isObject id) := by
  induction id using Nat.strongRecOn with
  | ind id ih =>
    rw [endsInTexture?, hp.isObject_eq]
    split
    · rfl
    · next elem len hg => exact ih elem (hp.element_lt id elem (element_eq hg))
    · rfl

theorem Grounded.isObject_iff_peels (hp : p.Grounded) (id : TypeId) :
    p.isObject id = true ↔ ∃ kind, p.Peels id (.texture kind) := by
  constructor
  · intro ho
    induction id using Nat.strongRecOn with
    | ind id ih =>
      rw [hp.isObject_eq] at ho
      split at ho
      · next kind hg => exact ⟨kind, hg ▸ .bare (by simp [hg])⟩
      · next elem len hg =>
        obtain ⟨kind, hk⟩ := ih elem (hp.element_lt id elem (element_eq hg)) ho
        exact ⟨kind, .layer hg hk⟩
      · cases ho
  · rintro ⟨kind, hk⟩
    generalize ht : Ty.texture kind = t at hk
    induction hk with
    | bare _ => rw [hp.isObject_eq, ← ht]
    | layer hg _ ih =>
      rw [hp.isObject_eq, hg]
      exact ih ht

/-- A number that was given stands for its type from then on, and for no other type. To peel off array
layers comes to an end. -/
theorem Built.one_to_one (h : Built log p) :
    (∀ t id, (t, id) ∈ log → p.get id = t) ∧
      (∀ t id t' id', (t, id) ∈ log → (t', id') ∈ log → (id = id' ↔ t = t')) ∧
      ∀ id, p.endsInTexture? id = some (p.isObject id) ∧
        (p.isObject id = true ↔ ∃ kind, p.Peels id (.texture kind)) := by
  have hs := h.sound
  refine ⟨fun t id hm => (hs.given _ hm).2, fun t id t' id' hm hm' => ?_, fun id =>
    ⟨hs.grounded.endsInTexture?_eq id, hs.grounded.isObject_iff_peels id⟩⟩
  obtain ⟨hid, hg⟩ := hs.given _ hm
  obtain ⟨hid', hg'⟩ := hs.given _ hm'
  constructor
  · rintro rfl
    exact hg.symm.trans hg'
  · rintro rfl
    exact hs.inj id hid id' hid' (hg.trans hg'.symm)

theorem one_to_one_nestedArrays : ∃ log p, Built log p ∧
    log.map Prod.snd = [5, 6, 5, 4, 0, 1, 2, 3] ∧ p.get 6 = .array 5 3 ∧
    p.endsInTexture? 6 = some (p.isObject 6) ∧ ∃ kind, p.Peels 6 (.texture kind) := by
  have h1 := Built.fresh.intern (t := .texture .planar) (by decide +kernel)
  have h2 := (h1.intern (t := .array 4 2) (by decide +kernel)).intern (t := .array 5 3) (by decide +kernel)
  have h3 := h2.intern (t := .array 4 2) (by decide +kernel)
  obtain ⟨hg, -, ho⟩ := h3.one_to_one
  exact ⟨_, _, h3, by decide +kernel, hg _ _ (by decide +kernel), (ho 6).1, (ho 6).2.mp (by decide +kernel)⟩

end TypePool

end Stagewise
