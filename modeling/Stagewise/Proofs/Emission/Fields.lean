import Stagewise.Proofs.Emission.Patching

namespace Stagewise

namespace Draft

variable {src : Source} {L : TransferLayout → Prop} {F : Nat → Prop} {x : Scope}
  {R : InstId → Prop} {d d' : Draft} {l : TransferLayout} {name : String} {k : Nat} {e : InstId}
  {op : Operation}

/-- An instruction of a part loads or stores within a field of the binding of a name. -/
def UsesField (d : Draft) (name : String) (k : Nat) (e : InstId) : Prop :=
  ∃ inst addr g decl, d.builder.func.insts[e]? = some inst ∧ inst.op.address? = some addr ∧
    addr.global? = some g ∧ d.program.globals[g]? = some decl ∧ decl.name = name ∧
    addr.field? = some k

theorem Edits.usesField (h : d.Edits src L F x R d') (hd : d.Rooted src)
    (hn : ∀ decl ∈ src.program.globals, decl.name ≠ name) (hu : d'.UsesField name k e) :
    d.UsesField name k e ∨ F k ∧ ∃ l, L l ∧ l.name = name := by
  obtain ⟨inst, addr, g, decl, he, ha, hg, hde, rfl, hk⟩ := hu
  rcases h.written e inst he with ⟨hol, -⟩ | hw
  · have hb := List.getElem?_eq_getElem (hd.addresses e inst addr g hol ha hg)
    obtain rfl := Option.mem_unique (getElem?_extend h.bindings hb) hde
    exact .inl ⟨inst, addr, g, _, hol, ha, hg, hb, rfl, hk⟩
  · rcases hw.address ha hg with ⟨g0, -, decl0, hd0, decl', hd', heq⟩ | ⟨l, j, ho, hj⟩
    · obtain rfl := Option.mem_unique hd' hde
      exact absurd heq.symm (hn decl0 (List.mem_of_getElem? hd0))
    · obtain rfl := Option.mem_unique hj hk
      obtain ⟨decl', hd', heq⟩ := ho.calls
      obtain rfl := Option.mem_unique hd' hde
      exact .inr ⟨ho.field, l, ho.layout, heq.symm⟩

theorem usesField_append {block : BlockId} {ty : TypeId}
    (h : (d.append block ty op).2.UsesField name k e) :
    d.UsesField name k e ∨ e = d.builder.func.numInsts ∧ op.address? ≠ none := by
  obtain ⟨inst, addr, g, decl, he, ha, hr⟩ := h
  rcases Function.insertAt_getElem?_cases he with ho | ⟨rfl, rfl⟩
  · exact .inl ⟨inst, addr, g, decl, ho, ha, hr⟩
  · exact .inr ⟨rfl, by simp only [ha]; simp⟩

theorem usesField_setOp {i : InstId} (h : (d.setOp i op).UsesField name k e) :
    d.UsesField name k e ∨ e = i := by
  obtain ⟨inst, addr, g, decl, he, hr⟩ := h
  rcases Function.setOp_getElem?_cases he with ⟨ho, -⟩ | ⟨heq, -⟩
  · exact .inl ⟨inst, addr, g, decl, ho, hr⟩
  · exact .inr heq

section Stores

variable {record : GlobalId} {slot : ValueSlot} {v : Value}

/-- An instruction stores a value, or the first of its lanes, into a field. It stands behind the value,
or in the entry block if the value is no instruction. -/
def Stores (d : Draft) (record : GlobalId) (f : Nat) (slot : ValueSlot) (v : Value) (e : InstId) :
    Prop :=
  if slot.scalarized then
    ∃ lane, d.builder.func.insts[lane]? = some ⟨.extract v (.const (.int TypeId.int 0)), slot.ty,
        d.homeOf v⟩ ∧
      d.builder.func.insts[e]? = some ⟨.store (.inst lane) (.member record [f]), TypeId.void,
        d.homeOf v⟩ ∧
      (v.inst?.toList ++ [lane, e]).Sublist (d.builder.func.instsOf (d.homeOf v))
  else
    d.builder.func.insts[e]? = some ⟨.store v (.member record [f]), TypeId.void, d.homeOf v⟩ ∧
      (v.inst?.toList ++ [e]).Sublist (d.builder.func.instsOf (d.homeOf v))

theorem Edits.homeOf (h : d.Edits src L F x R d') (hv : v.Placed d) : d'.homeOf v = d.homeOf v := by
  cases v with
  | inst j =>
    have hj := Array.getElem?_eq_getElem (hv j rfl)
    rcases h.exists_inst hj with ⟨hj', -⟩ | ⟨-, -, addr, hj'⟩ <;>
      simp only [Draft.homeOf, hj, hj', Option.elim]
  | const c | global g => exact h.entry

theorem Stores.edits (h : d.Stores record k slot v e) (hv : v.Placed d)
    (he : d.Edits src L F x R d') : d'.Stores record k slot v e := by
  unfold Stores at h ⊢
  rw [he.homeOf hv]
  by_cases hs : slot.scalarized = true
  · rw [if_pos hs] at h ⊢
    obtain ⟨lane, hla, hst, hl⟩ := h
    exact ⟨lane, he.getElem? hla (by simp), he.getElem? hst (by simp),
      hl.trans (he.sublist _)⟩
  · rw [if_neg hs] at h ⊢
    exact ⟨he.getElem? h.1 (by simp), h.2.trans (he.sublist _)⟩

theorem homeOf_append (hv : v.Placed d) (block : BlockId) (ty : TypeId) (op : Operation) :
    (d.append block ty op).2.homeOf v = d.homeOf v := by
  cases v with
  | inst j =>
    show ((d.builder.func.append block ty op).2.insts[j]?.elim _ _) = _
    rw [Function.append_getElem?_insts block ty op (hv j rfl)]
    rfl
  | const c => rfl
  | global g => rfl

/-- Storing a field adds one instruction that uses a field. -/
theorem exists_stores_storeField (h : d.Rooted src) (hv : v.Placed d) (record : GlobalId) (k : Nat)
    (slot : ValueSlot) : ∃ e, (d.storeField record k slot v).Stores record k slot v e ∧
      ∀ name j e', (d.storeField record k slot v).UsesField name j e' →
        d.UsesField name j e' ∨ e' = e := by
  have hh := h.homeOf_lt hv
  cases hs : slot.scalarized with
  | false =>
    rw [storeField_whole hs]
    refine ⟨d.builder.func.numInsts, ?_, fun name j e' hu => (usesField_append hu).imp_right And.left⟩
    rw [Stores, if_neg (by simp [hs]), homeOf_append hv]
    refine ⟨Function.append_getElem?_insts_self .., ?_⟩
    rw [show (d.append (d.homeOf v) _ _).2.builder.func.instsOf (d.homeOf v) = _ from
      Function.append_instsOf _ _ hh]
    exact (h.mem_homeOf hv).append (.refl _)
  | true =>
    rw [storeField_lane hs]
    let d1 := (d.append (d.homeOf v) slot.ty (.extract v (.const (.int TypeId.int 0)))).2
    have hh1 : d.homeOf v < d1.builder.func.numBlocks :=
      (Function.insertAt_numBlocks ..).symm ▸ hh
    have hv1 : v.Placed d1 := hv.mono (by rw [numInsts_append]; exact Nat.le_succ _)
    refine ⟨d1.builder.func.numInsts, ?_, fun name j e' hu => ?_⟩
    · rw [Stores, if_pos hs, homeOf_append hv1, homeOf_append hv]
      refine ⟨d.builder.func.numInsts, ?_, Function.append_getElem?_insts_self .., ?_⟩
      · exact (continues_append d1 _ _ _).insts _ _ (Function.append_getElem?_insts_self ..)
      · rw [show (d1.append (d.homeOf v) _ _).2.builder.func.instsOf (d.homeOf v) = _ from
          Function.append_instsOf _ _ hh1,
          show d1.builder.func.instsOf (d.homeOf v) = _ from Function.append_instsOf _ _ hh,
          List.append_assoc]
        exact (h.mem_homeOf hv).append (.refl _)
    · rcases usesField_append hu with hu | ⟨rfl, -⟩
      · rcases usesField_append hu with hu | ⟨-, hne⟩
        · exact .inl hu
        · exact absurd rfl hne
      · exact .inr rfl

end Stores

/-- Of a record, a part has no other binding under its name, and uses only the fields before one. -/
structure Confined (l : TransferLayout) (k : Nat) (d : Draft) : Prop where
  record : ∀ decl ∈ d.program.globals, decl.name = l.name → decl = .plain l.name l.record
  used : ∀ j e, d.UsesField l.name j e → j < k

theorem confined_edits (h : d.Edits src (· = l) (· < k) x R d') (hd : d.Rooted src)
    (hf : ∀ decl ∈ d.program.globals, decl.name ≠ l.name)
    (hn : ∀ decl ∈ src.program.globals, decl.name ≠ l.name) : d'.Confined l k := by
  refine ⟨fun decl hde heq => ?_, fun j e hu => ?_⟩
  · rcases h.names decl hde with ho | ⟨decl', hd', hso⟩ | ⟨_, rfl, -, rfl⟩
    · exact absurd heq (hf decl ho)
    · exact absurd (hso.trans heq) (hn decl' hd')
    · rfl
  · rcases h.usesField hd hn hu with ⟨_, _, _, decl, _, _, _, hde, heq, _⟩ | ⟨hj, -⟩
    · exact absurd heq (hf decl (List.mem_of_getElem? hde))
    · exact hj

theorem Confined.getElem? {g : GlobalId} (h : d.Confined l k) (hg : d.Calls g l.name) :
    d.program.globals[g]? = some (.plain l.name l.record) := by
  obtain ⟨decl, hd, hn⟩ := hg
  rw [hd, h.record decl (List.mem_of_getElem? hd) hn]

end Draft

namespace Emission

variable {src : Source} {s t : Emission} {L : TransferLayout → Prop} {F : Nat → Prop}
  {R : Scope → InstId → Prop} {d : Draft}

/-- A field of a record carries a slot: the part that makes the value stores it there, the read of
the slot loads it from there, and nothing else in the two parts uses the field. -/
structure Carries (s : Emission) (slot : ValueSlot) (layout : TransferLayout) (f : Nat) : Prop where
  src : layout.src = slot.src
  dst : layout.dst = slot.dst
  field : layout.fields[f]? = some slot.ty
  stored : ∃ d record v e, s.drafts[slot.src.val]? = some d ∧
    d.program.globals[record]? = some (.plain layout.name layout.record) ∧
    d.copies.lookup slot.source = some v ∧ d.Stores record f slot v e ∧
    ∀ e', d.UsesField layout.name f e' → e' = e
  loaded : ∃ d record, s.drafts[slot.dst.val]? = some d ∧
    d.program.globals[record]? = some (.plain layout.name layout.record) ∧
    d.builder.func.insts[slot.read]? = some ⟨.load (.member record [f]), slot.ty, d.entry⟩ ∧
    ∀ e', d.UsesField layout.name f e' → e' = slot.read

theorem placed_of_lookup (hd : d.Rooted src) {i : InstId} {v : Value}
    (hv : d.copies.lookup i = some v) : v.Placed d :=
  (hd.copies (i, v) (mem_of_lookup hv)).1

theorem Carries.edits {slot : ValueSlot} {layout : TransferLayout} {f : Nat}
    (h : s.Carries slot layout f) (hs : s.Rooted src) (hr : s.Edits src L F R t)
    (hn : ∀ decl ∈ src.program.globals, decl.name ≠ layout.name) (hR : ¬R slot.dst slot.read)
    (hF : F f → ∀ l, L l → l.name ≠ layout.name) : t.Carries slot layout f := by
  have hfi : ∀ {x : Scope} {d d' : Draft} {e : InstId}, d.Rooted src →
      d.Edits src L F x (R x) d' → (∀ e', d.UsesField layout.name f e' → e' = e) →
      ∀ e', d'.UsesField layout.name f e' → e' = e := fun hd he ho e' hu =>
    ho e' ((he.usesField hd hn hu).resolve_right fun ⟨hf, l, hl, heq⟩ => hF hf l hl heq)
  refine ⟨h.src, h.dst, h.field, ?_, ?_⟩
  · obtain ⟨d, record, v, e, hd, hre, hv, hst, ho⟩ := h.stored
    obtain ⟨d', hd', he⟩ := hr.drafts _ d hd
    exact ⟨d', record, v, e, hd', getElem?_extend he.bindings hre, he.copies ▸ hv,
      hst.edits (placed_of_lookup (hs.drafts _ d hd) hv) he, hfi (hs.drafts _ d hd) he ho⟩
  · obtain ⟨d, record, hd, hre, hrea, ho⟩ := h.loaded
    obtain ⟨d', hd', he⟩ := hr.drafts _ d hd
    refine ⟨d', record, hd', getElem?_extend he.bindings hre, ?_,
      hfi (hs.drafts _ d hd) he ho⟩
    rw [he.entry]
    exact he.kept _ _ hrea hR

section Wiring

variable {l : TransferLayout} {values : List ValueSlot} {arrays : List ArraySlot} {k : Nat}

/-- Wiring a value leaves one store and one load of its field, in two different parts. -/
theorem carries_wireValue {slot : ValueSlot} {v : Value} {stored loaded : GlobalId} {e : Draft}
    (hs : s.Rooted src) (hne : l.src ≠ l.dst) (hsl : slot.src = l.src ∧ slot.dst = l.dst)
    (hf : l.fields[k]? = some slot.ty) (hd : s.drafts[l.src.val]? = some d)
    (hst : d.Calls stored l.name) (hv : d.copies.lookup slot.source = some v)
    (he : s.drafts[l.dst.val]? = some e) (hl : e.Calls loaded l.name)
    (hr : e.builder.func.insts[slot.read]? = some ⟨.load .pending, slot.ty, e.entry⟩)
    (hus : ∀ scope, s.Meets scope (·.Confined l k)) :
    ((s.setDraft l.src (d.storeField stored k slot v)).setDraft l.dst
      (e.setOp slot.read (.load (.member loaded [k])))).Carries slot l k := by
  obtain ⟨i, hsto, ho⟩ := Draft.exists_stores_storeField (hs.drafts _ d hd)
    (placed_of_lookup (hs.drafts _ d hd) hv) stored k slot
  have he1 : (s.setDraft l.src (d.storeField stored k slot v)).drafts[l.dst.val]? = some e := by
    rw [getElem?_setDraft_ne fun hva => hne (Fin.ext hva.symm), he]
  obtain ⟨func, hfu⟩ := d.storeField_eq stored k slot v
  refine ⟨hsl.1.symm, hsl.2.symm, hf, ?_, ?_⟩
  · refine ⟨d.storeField stored k slot v, stored, v, i, ?_, ?_, ?_, hsto, fun e' hu => ?_⟩
    · rw [hsl.1, getElem?_setDraft_ne fun hva => hne (Fin.ext hva)]
      exact getElem?_setDraft_self hd
    · rw [Draft.storeField_program]
      exact (hus _ d hd).getElem? hst
    · rw [hfu]
      exact hv
    · refine (ho _ k e' hu).resolve_left fun hu => ?_
      exact Nat.lt_irrefl k ((hus _ d hd).used k e' hu)
  · refine ⟨e.setOp slot.read (.load (.member loaded [k])), loaded, ?_, (hus _ e he).getElem? hl,
      ?_, fun e' hu => ?_⟩
    · rw [hsl.2]
      exact getElem?_setDraft_self he1
    · show (e.builder.func.setOp slot.read _).insts[slot.read]? = _
      rw [Function.setOp_getElem?_insts, if_pos rfl, hr]
      rfl
    · refine (Draft.usesField_setOp hu).resolve_left fun hu => ?_
      exact Nat.lt_irrefl k ((hus _ e he).used k e' hu)

/-- What wiring a record under a new name relies on: its two parts are different, each of its values
awaits a read of its own, and its arrays have other reads, which are all different. -/
structure Wirable (src : Source) (l : TransferLayout) (values : List ValueSlot)
    (arrays : List ArraySlot) (s : Emission) : Prop where
  rooted : s.Rooted src
  ne : l.src ≠ l.dst
  free : ∀ scope, s.Meets scope fun d => ∀ decl ∈ d.program.globals, decl.name ≠ l.name
  name : ∀ decl ∈ src.program.globals, decl.name ≠ l.name
  size : values.length + arrays.length ≤ l.fields.length
  fields : ∀ (j : Nat) (slot : ValueSlot), values[j]? = some slot → l.fields[j]? = some slot.ty
  apart : values.Pairwise (·.read ≠ ·.read)
  awaited : ∀ slot ∈ values, slot ∈ s.ledger.values ∧ slot.src = l.src ∧ slot.dst = l.dst ∧
    ∃ d, s.drafts[l.dst.val]? = some d ∧
      d.builder.func.insts[slot.read]? = some ⟨.load .pending, slot.ty, d.entry⟩
  copied : ∀ slot ∈ arrays, slot ∈ s.ledger.arrays ∧ slot.src = l.src ∧ slot.dst = l.dst ∧
    ∀ r ∈ slot.reads, ∀ x ∈ values, x.read ≠ r.1
  distinct : ∀ slot ∈ arrays, (slot.reads.map Prod.fst).Nodup
  separate : arrays.Pairwise fun a b => ∀ r ∈ a.reads, ∀ r' ∈ b.reads, r.1 ≠ r'.1

section Wirable

variable (hs : Wirable src l values arrays s)
include hs

theorem Wirable.not_readsAt {i j : Nat} {e : InstId} (hi : ReadsAt values arrays i e) (hlt : i < j) :
    ¬ReadsAt values arrays j e := by
  rintro (⟨b, hb, heq⟩ | ⟨j, b, rfl, hb, r', hr', heq⟩)
  · obtain ⟨hj, rfl⟩ := List.getElem?_eq_some_iff.mp hb
    rcases hi with ⟨a, ha, rfl⟩ | ⟨i, a, rfl, -⟩
    · obtain ⟨hil, rfl⟩ := List.getElem?_eq_some_iff.mp ha
      exact List.pairwise_iff_getElem.mp hs.apart i j hil hj hlt heq
    · omega
  · rcases hi with ⟨a, ha, rfl⟩ | ⟨i, a, rfl, ha, r, hr, rfl⟩
    · exact (hs.copied b (List.mem_of_getElem? hb)).2.2.2 r' hr' a (List.mem_of_getElem? ha) heq
    · obtain ⟨hil, rfl⟩ := List.getElem?_eq_some_iff.mp ha
      obtain ⟨hj, rfl⟩ := List.getElem?_eq_some_iff.mp hb
      exact List.pairwise_iff_getElem.mp hs.separate i j hil hj (by omega) r hr r' hr' heq

section

variable (h : Wiring src l values arrays s k t)
include h

theorem Wirable.edits :
    s.Edits src (· = l) (· < k) (fun x e => x = l.dst ∧ ∃ f, f < k ∧ ReadsAt values arrays f e) t :=
  (h.edits hs.rooted hs.size (fun slot hsl => ⟨(hs.awaited slot hsl).1, (hs.awaited slot hsl).2.2.1⟩)
    fun slot hsl => ⟨(hs.copied slot hsl).1, (hs.copied slot hsl).2.1, (hs.copied slot hsl).2.2.1⟩).1

theorem Wirable.edits_step {k' : Nat} {u : Emission} (hst : WireStep src l values arrays t k k' u) :
    t.Edits src (· = l) (fun f => k ≤ f ∧ f < k')
      (fun x e => x = l.dst ∧ ∃ f, (k ≤ f ∧ f < k') ∧ ReadsAt values arrays f e) u := by
  have he := hs.edits h
  refine hst.edits he.rooted hs.size (fun slot hsl => ?_) fun slot hsl => ?_
  · exact ⟨he.values ▸ (hs.awaited slot hsl).1, (hs.awaited slot hsl).2.2.1⟩
  · obtain ⟨hm, hsr, hd, -⟩ := hs.copied slot hsl
    exact ⟨he.arrays ▸ hm, hsr, hd⟩

theorem Wirable.confined (scope : Scope) : t.Meets scope (·.Confined l k) := by
  intro d' hd'
  obtain ⟨d, hd, he⟩ := (hs.edits h).back hd'
  exact Draft.confined_edits he (hs.rooted.drafts _ d hd) (hs.free scope d hd) hs.name

theorem Wirable.carries {j : Nat} {slot : ValueSlot} (hj : j < k) (hsl : values[j]? = some slot) :
    t.Carries slot l j := by
  induction h with
  | declared _ _ => exact absurd hj (Nat.not_lt_zero j)
  | @step k k' t u hw hst ih =>
    have hed := hs.edits hw
    have hre : ReadsAt values arrays j slot.read := .inl ⟨slot, hsl, rfl⟩
    by_cases ho : j < k
    · refine (ih ho).edits hed.rooted (hs.edits_step hw hst) hs.name ?_ fun hf => by omega
      exact fun ⟨_, f, hf, hr⟩ => hs.not_readsAt hre (Nat.lt_of_lt_of_le ho hf.1) hr
    have hlt := (List.getElem?_eq_some_iff.mp hsl).1
    cases hst with
    | global _ _ _ => exact absurd hj ho
    | @value _ new stored loaded v d e hn hd hsto hv he hl =>
      obtain rfl : j = k := by omega
      obtain rfl := Option.mem_unique hn hsl
      obtain ⟨-, hsr, hds, e0, he0, hr⟩ := hs.awaited new (List.mem_of_getElem? hn)
      have he' : t.drafts[l.dst.val]? = some e := by
        rwa [getElem?_setDraft_ne fun hva => hs.ne (Fin.ext hva.symm)] at he
      obtain ⟨e1, he1, hk⟩ := hed.drafts _ e0 he0
      obtain rfl := Option.mem_unique he' he1
      refine carries_wireValue hed.rooted hs.ne ⟨hsr, hds⟩ (hs.fields j new hn) hd hsto hv
        he' hl ?_ (hs.confined hw)
      -- no field before is the slot's, so its read still waits
      rw [hk.entry]
      exact hk.kept _ _ hr fun ⟨_, f, hf, hb⟩ => hs.not_readsAt hb hf hre
    | array _ _ _ _ _ _ => omega

end

end Wirable

end Wiring

end Emission

end Stagewise
