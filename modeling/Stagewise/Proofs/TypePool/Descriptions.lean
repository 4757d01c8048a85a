import Stagewise.Proofs.Emission.Handover
import Stagewise.Proofs.Semantics.ClosedTypes

namespace Stagewise

namespace TypePool

variable {p q : TypePool} {id : TypeId}

/-- A type without its outermost array layer. -/
def strip (p : TypePool) (id : TypeId) : TypeId :=
  match p.get id with
  | .array elem _ => elem
  | _ => id

def IsTexture (p : TypePool) (id : TypeId) : Prop := ∃ kind, p.get id = .texture kind

/-- An array of arrays, for which there is no description. -/
def IsNested (p : TypePool) (id : TypeId) : Prop := ∃ elem len, p.get (p.strip id) = .array elem len

/-- A vector of textures, or an array of such vectors, which is described by its lanes. -/
def HasTextureLanes (p : TypePool) (id : TypeId) : Prop :=
  ∃ elem len, p.get (p.strip id) = .vector elem len ∧ p.IsTexture elem

theorem kind_eq_texture_iff (p : TypePool) (id : TypeId) :
    (SlotType.ofType p id).kind = .texture ↔ p.IsTexture (p.strip id) ∨ p.HasTextureLanes id := by
  have ho : ∃ n, SlotType.ofType p id = p.lanesOf (p.strip id) n := by
    unfold strip
    cases hg : p.get id with
    | array elem len => exact ⟨len, ofType_of_array hg⟩
    | _ => exact ⟨0, ofType_of_not_array (by simp [hg])⟩
  obtain ⟨n, ho⟩ := ho
  rw [ho, lanesOf, HasTextureLanes, IsTexture]
  cases hs : p.get (p.strip id) with
  | vector elem len => cases he : p.get elem <;> simp [SlotType.ofBase, SlotType.none, IsTexture, he]
  | _ => simp [SlotType.ofBase, SlotType.none, hs]

theorem not_nested_of_texture (h : p.IsTexture (p.strip id)) :
    ¬p.IsNested id ∧ ¬p.HasTextureLanes id := by
  obtain ⟨kind, hk⟩ := h
  simp [IsNested, HasTextureLanes, hk]

theorem IsNested.not_lanes (h : p.IsNested id) : ¬p.HasTextureLanes id := by
  obtain ⟨elem, len, hn⟩ := h
  simp [HasTextureLanes, hn]

theorem isObject_of_texture (h : p.IsTexture (p.strip id)) : p.isObject id = true := by
  obtain ⟨kind, hk⟩ := h
  have hs := lt_size_of_get hk nofun
  obtain ⟨n, hn⟩ := Nat.exists_eq_add_one_of_ne_zero (Nat.ne_zero_of_lt hs)
  rw [isObject, hn, isObjectWithin]
  unfold strip at hk
  split at hk
  · next elem len hg => simp [hg, isObjectWithin, hk]
  · simp [hk]

theorem strip_of_array {elem : TypeId} {len : Nat} (h : p.get id = .array elem len) :
    p.strip id = elem := by
  simp [strip, h]

theorem texture_or_array {depth : Nat} (h : p.isObjectWithin depth id = true) : p.IsTexture id ∨
    ∃ depth' elem len, p.get id = .array elem len ∧ p.isObjectWithin depth' elem = true := by
  cases depth with
  | zero => cases h
  | succ depth =>
    unfold isObjectWithin at h
    split at h
    · next kind hg => exact .inl ⟨kind, hg⟩
    · next elem len hg => exact .inr ⟨depth, elem, len, hg, h⟩
    · cases h

theorem texture_or_nested (h : p.isObject id = true) : p.IsTexture (p.strip id) ∨ p.IsNested id := by
  rcases texture_or_array h with ⟨kind, hg⟩ | ⟨depth, elem, len, hg, he⟩
  · exact .inl ⟨kind, by simp [strip, hg]⟩
  · rw [IsNested, strip_of_array hg]
    exact (texture_or_array he).imp_right fun ⟨_, inner, n, hi, _⟩ => ⟨inner, n, hi⟩

/-- The description of a type says of handles what is so, but for arrays of arrays of handles and for
vectors of textures. -/
theorem kind_agrees_iff (p : TypePool) (id : TypeId) :
    ((SlotType.ofType p id).kind = .texture ↔ p.isObject id = true) ↔
      ¬(p.isObject id = true ∧ p.IsNested id) ∧ ¬p.HasTextureLanes id := by
  have hl := @IsNested.not_lanes p id
  have ht := @not_nested_of_texture p id
  have ho := @isObject_of_texture p id
  have hr := @texture_or_nested p id
  rw [kind_eq_texture_iff]
  tauto

/-- Interning gives at most one number a new meaning. -/
theorem get_intern (p : TypePool) (t : Ty) (hid : p.size ≤ id) :
    (p.intern t).2.get id = .void ∨ (p.intern t).2.get id = t := by
  unfold intern
  split
  · exact .inl (by simp [get, Array.getElem?_eq_none hid])
  · simp only [get, Array.getElem?_push]
    split
    · exact .inr rfl
    · exact .inl (by simp [Array.getElem?_eq_none hid])

theorem get_internArrays (slots : List ArraySlot) (hid : p.size ≤ id) :
    (p.internArrays slots).2.get id = .void ∨
      ∃ slot ∈ slots, (p.internArrays slots).2.get id = .array slot.elem slot.len := by
  induction slots generalizing p with
  | nil => exact .inl (by simp [internArrays, get, Array.getElem?_eq_none hid])
  | cons slot rest ih =>
    by_cases hlt : id < (p.intern (.array slot.elem slot.len)).2.size
    · obtain ⟨he, -⟩ := (p.intern (.array slot.elem slot.len)).2.internArrays_spec rest
      simp only [internArrays, he.get id hlt]
      exact (p.get_intern _ hid).imp_right fun h => ⟨slot, List.mem_cons_self, h⟩
    · refine (ih (Nat.not_lt.mp hlt)).imp_right fun h => ?_
      obtain ⟨slot', hm, h⟩ := h
      exact ⟨slot', List.mem_cons_of_mem _ hm, h⟩

theorem IsTexture.strip_eq (h : p.IsTexture id) : p.strip id = id := by
  obtain ⟨kind, hk⟩ := h
  simp [strip, hk]

theorem Extends.isTexture (h : p.Extends q) (ht : p.IsTexture id) : q.IsTexture id := by
  obtain ⟨kind, hk⟩ := ht
  exact ⟨kind, (h.get id (lt_size_of_get hk nofun)).trans hk⟩

theorem Extends.strip (h : p.Extends q) (hid : id < p.size) : q.strip id = p.strip id := by
  rw [TypePool.strip, h.get id hid, TypePool.strip]

/-- The description of a field, a type that was there or an array of such types, in a pool to which no
textures were added. -/
theorem kind_field {handles : Bool} (he : p.Extends q) (ht : ∀ id, q.IsTexture id → p.IsTexture id)
    (ha : ∀ id elem len, p.size ≤ id → q.get id = .array elem len → p.isObject elem = handles)
    (hf : p.isObject id = handles ∨ ∃ elem len, q.get id = .array elem len ∧ p.isObject elem = handles) :
    (SlotType.ofType q id).kind = .texture ↔
      if handles then ¬q.IsNested id else q.HasTextureLanes id := by
  have hob : ∀ {elem}, p.IsTexture elem → p.isObject elem = true := fun h =>
    isObject_of_texture (h.strip_eq.symm ▸ h)
  have hl := @IsNested.not_lanes q id
  have hx := @not_nested_of_texture q id
  rw [kind_eq_texture_iff]
  cases handles with
  | true =>
    have hor : q.IsTexture (q.strip id) ∨ q.IsNested id := by
      rcases hf with ho | ⟨elem, len, hg, ho⟩
      · have hid : id < p.size := by
          rcases texture_or_array ho with ⟨kind, hk⟩ | ⟨-, elem, len, hg, -⟩
          · exact lt_size_of_get hk nofun
          · exact lt_size_of_get hg nofun
        rw [IsNested, he.strip hid]
        refine (texture_or_nested ho).imp he.isTexture fun ⟨elem, len, hg⟩ => ⟨elem, len, ?_⟩
        exact (he.get _ (lt_size_of_get hg nofun)).trans hg
      · rw [IsNested, strip_of_array hg]
        refine (texture_or_array ho).imp he.isTexture fun ⟨_, inner, n, hi, _⟩ => ⟨inner, n, ?_⟩
        exact (he.get _ (lt_size_of_get hi nofun)).trans hi
    rw [if_pos rfl]
    tauto
  | false =>
    have hno : ¬q.IsTexture (q.strip id) := by
      intro hq
      have hp := ht _ hq
      by_cases hg : ∃ elem len, q.get id = .array elem len ∧ p.isObject elem = false
      · obtain ⟨elem, len, hg, ho⟩ := hg
        rw [strip_of_array hg] at hp
        simp [hob hp] at ho
      · have ho := hf.resolve_right hg
        by_cases hid : id < p.size
        · rw [he.strip hid] at hp
          simp [isObject_of_texture hp] at ho
        · have hs : q.strip id = id := by
            unfold strip
            split
            · next elem len hge => exact absurd ⟨elem, len, hge, ha id elem len (Nat.not_lt.mp hid) hge⟩ hg
            · rfl
          obtain ⟨kind, hk⟩ := hs ▸ hp
          exact hid (lt_size_of_get hk nofun)
    simp only [Bool.false_eq_true, if_false]
    tauto

end TypePool

namespace Source

variable {src : Source} {key : RecordKey} {name : String} {s t : Emission} {l : TransferLayout}

theorem get_layoutOf (types : TypePool) (key : RecordKey) (name : String) (values : List ValueSlot)
    (arrays : List ArraySlot) (id : TypeId) (hid : types.size ≤ id) :
    (∃ slot ∈ arrays, (layoutOf types key name values arrays).2.get id = .array slot.elem slot.len) ∨
      (layoutOf types key name values arrays).2.get id = .void ∨
      ∃ fields, (layoutOf types key name values arrays).2.get id = .struct fields true := by
  by_cases hlt : id < (types.internArrays arrays).2.size
  · obtain ⟨he, -⟩ := (types.internArrays arrays).2.intern_spec
      (.struct (values.map ValueSlot.ty ++ (types.internArrays arrays).1) true)
    simp only [layoutOf, he.get id hlt]
    exact (TypePool.get_internArrays arrays hid).symm.imp_right .inl
  · exact .inr ((TypePool.get_intern _ _ (Nat.not_lt.mp hlt)).imp_right fun h => ⟨_, h⟩)

theorem layoutOf_layOut (h : (src.layOut key name).run s = (.ok (some l), t)) :
    layoutOf s.types key name (s.ledger.valuesOf s.types key) (s.ledger.arraysOf s.types key)
      = (l, t.types) := by
  rw [run_layOut] at h
  simp only at h
  split at h
  · cases h
  · obtain ⟨heq, hw⟩ := (sat_wireRecord (.inl Act.tolerant_any)).of_run h
    obtain ⟨drafts, rfl, -⟩ := hw.frame
    obtain rfl := Option.some.inj heq
    rfl

/-- The slots of a record of handles say texture but for arrays of arrays, and those of other records
for lanes of textures only. -/
theorem slots_layOut (h : (src.layOut key name).run s = (.ok (some l), t)) :
    l.slots.length = l.fields.length ∧ ∀ e ∈ l.fields.zip l.slots, e.2.kind = .texture ↔
      if l.objects then ¬t.types.IsNested e.1 else t.types.HasTextureLanes e.1 := by
  have hl := layoutOf_layOut h
  have hnew := get_layoutOf s.types key name (s.ledger.valuesOf s.types key)
    (s.ledger.arraysOf s.types key)
  obtain ⟨-, hkey, hgrows, ids, hfields, -, hids⟩ := laidAs_layoutOf s.types key name
    (s.ledger.valuesOf s.types key) (s.ledger.arraysOf s.types key)
  have hslots : l.slots = l.fields.map (SlotType.ofType t.types) := by
    obtain ⟨rfl, heq⟩ := Prod.mk.inj hl
    rw [← heq]
  rw [hl] at hnew hkey hgrows hfields hids
  have hobj : l.objects = key.objects := congrArg RecordKey.objects hkey
  have harray : ∀ slot ∈ s.ledger.arraysOf s.types key, s.types.isObject slot.elem = l.objects :=
    fun slot hm => hobj ▸ congrArg RecordKey.objects (Ledger.mem_arraysOf.mp hm).2
  refine ⟨by rw [hslots, List.length_map], fun e he => ?_⟩
  rw [hslots, ← List.map_prod_left_eq_zip] at he
  obtain ⟨field, hm, rfl⟩ := List.mem_map.mp he
  refine TypePool.kind_field hgrows (fun id ht => ?_) (fun id elem len hid hg => ?_) ?_
  · obtain ⟨kind, hk⟩ := ht
    by_cases hid : id < s.types.size
    · exact ⟨kind, (hgrows.get id hid).symm.trans hk⟩
    · rcases hnew id (Nat.not_lt.mp hid) with ⟨slot, -, hs⟩ | hs | ⟨fields, hs⟩ <;> simp [hs] at hk
  · rcases hnew id hid with ⟨slot, hs, hs'⟩ | hs | ⟨fields, hs⟩
    · obtain ⟨rfl, -⟩ := Ty.array.inj (hg.symm.trans hs')
      exact harray slot hs
    · simp [hs] at hg
    · simp [hs] at hg
  · rw [hfields] at hm
    rcases List.mem_append.mp hm with hm | hm
    · obtain ⟨slot, hs, rfl⟩ := List.mem_map.mp hm
      exact .inl (hobj ▸ congrArg RecordKey.objects (Ledger.mem_valuesOf.mp hs).2)
    · obtain ⟨slot, hs, hg⟩ := exists_of_forall₂ hids.flip hm
      exact .inr ⟨slot.elem, slot.len, hg, harray slot hs⟩

/-- A description says texture just for types of handles, but for arrays of arrays and for lanes of
textures. The slots of every record say so of its fields with the same two exceptions. -/
theorem kinds_layOut :
    (∀ (p : TypePool) (id : TypeId),
      ((SlotType.ofType p id).kind = .texture ↔ p.isObject id = true) ↔
        ¬(p.isObject id = true ∧ p.IsNested id) ∧ ¬p.HasTextureLanes id) ∧
    ∀ (src : Source) (key : RecordKey) (name : String) (s t : Emission) (l : TransferLayout),
      (src.layOut key name).run s = (.ok (some l), t) →
        l.slots.length = l.fields.length ∧ ∀ e ∈ l.fields.zip l.slots, e.2.kind = .texture ↔
          if l.objects then ¬t.types.IsNested e.1 else t.types.HasTextureLanes e.1 :=
  ⟨TypePool.kind_agrees_iff, fun _ _ _ _ _ _ => slots_layOut⟩

end Source

def handleTypes : TypePool :=
  ((((TypePool.empty.intern (.texture .planar)).2.intern (.array 4 2)).2.intern (.array 5 3)).2.intern
    (.vector 4 2)).2

theorem exists_laid {x : Act Emission (Option TransferLayout)} {s : Emission}
    {P : TransferLayout → Bool} (h : (x.run s).1.toOption.any (Option.any P) = true) :
    ∃ l, x.run s = (.ok (some l), (x.run s).2) ∧ P l = true := by
  rcases hr : x.run s with ⟨_ | _ | l, t⟩ <;> rw [hr] at h
  · cases h
  · cases h
  · exact ⟨l, rfl, h⟩

/-- A record of plain data and one of handles. -/
theorem kinds_layOut_records :
    (∃ l t, (spreadingSource.layOut ⟨0, 1, false⟩ "early_to_late").run spreadingCopied
        = (.ok (some l), t) ∧ l.objects = false ∧ l.slots.map SlotType.kind = [.float] ∧
      ∀ e ∈ l.fields.zip l.slots, e.2.kind = .texture ↔
        if l.objects then ¬t.types.IsNested e.1 else t.types.HasTextureLanes e.1) ∧
    (∃ l t, (unissuedSource.layOut ⟨0, 1, true⟩ "handles").run unissuedCopied
        = (.ok (some l), t) ∧ l.objects = true ∧ l.slots.map SlotType.kind = [.texture] ∧
      ∀ e ∈ l.fields.zip l.slots, e.2.kind = .texture ↔
        if l.objects then ¬t.types.IsNested e.1 else t.types.HasTextureLanes e.1) ∧
    (((SlotType.ofType handleTypes 5).kind = .texture ↔ handleTypes.isObject 5 = true) ↔
      ¬(handleTypes.isObject 5 = true ∧ handleTypes.IsNested 5) ∧ ¬handleTypes.HasTextureLanes 5) := by
  have hdata : ((spreadingSource.layOut ⟨0, 1, false⟩ "early_to_late").run
      spreadingCopied).1.toOption.any (Option.any fun l =>
        !l.objects && l.slots.map SlotType.kind == [.float]) = true := by decide +kernel
  have hhandles : ((unissuedSource.layOut ⟨0, 1, true⟩ "handles").run
      unissuedCopied).1.toOption.any (Option.any fun l =>
        l.objects && l.slots.map SlotType.kind == [.texture]) = true := by decide +kernel
  obtain ⟨data, hd, hdata⟩ := exists_laid hdata
  obtain ⟨handles, hh, hhandles⟩ := exists_laid hhandles
  simp only [Bool.and_eq_true, Bool.not_eq_true', beq_iff_eq] at hdata hhandles
  obtain ⟨hkinds, hslots⟩ := Source.kinds_layOut
  exact ⟨⟨data, _, hd, hdata.1, hdata.2, (hslots _ _ _ _ _ _ hd).2⟩,
    ⟨handles, _, hh, hhandles.1, hhandles.2, (hslots _ _ _ _ _ _ hh).2⟩, hkinds handleTypes 5⟩

/-- An array of arrays of textures is one of handles but is not described as such, and a vector of
textures is described as one of handles. -/
theorem kind_disagrees_handleTypes :
    handleTypes.isObject 6 = true ∧ (SlotType.ofType handleTypes 6).kind ≠ .texture ∧
      handleTypes.isObject 7 = false ∧ (SlotType.ofType handleTypes 7).kind = .texture := by
  decide +kernel

end Stagewise
