import Stagewise.Proofs.Emission.Delivery

namespace Stagewise

namespace RecordKey

theorem rank_injective : Function.Injective rank := by
  rintro ⟨a, b, x⟩ ⟨a', b', x'⟩ h
  have hx : x.toNat < 2 := by cases x <;> decide
  have hx' : x'.toNat < 2 := by cases x' <;> decide
  simp only [rank] at h
  obtain rfl : a = a' := Fin.ext (by omega)
  obtain rfl : b = b' := Fin.ext (by omega)
  have ho : x.toNat = x'.toNat := by omega
  cases x <;> cases x' <;> first | rfl | cases ho

theorem mem_insert {k x : RecordKey} {l : List RecordKey} : x ∈ insert k l ↔ x = k ∨ x ∈ l := by
  induction l with
  | nil => simp [insert]
  | cons y rest ih =>
    unfold insert
    split
    · simp
    · split
      · next heq =>
        obtain rfl := rank_injective heq
        simp
      · rw [List.mem_cons, List.mem_cons, ih]
        exact or_left_comm

end RecordKey

namespace Ledger

theorem mem_pending {l : Ledger} {types : TypePool} {k : RecordKey} : k ∈ l.pending types ↔
    ((∃ slot ∈ l.values, valueKey types slot = k) ∨ ∃ slot ∈ l.arrays, arrayKey types slot = k) ∧
      k ∉ l.fixed := by
  have hf : ∀ (ks acc : List RecordKey),
      k ∈ ks.foldl (fun keys k => k.insert keys) acc ↔ k ∈ ks ∨ k ∈ acc := by
    intro ks
    induction ks with
    | nil => simp
    | cons x ks ih =>
      intro acc
      rw [List.foldl_cons, ih, RecordKey.mem_insert, List.mem_cons]
      exact or_left_comm.trans or_assoc.symm
  simp only [pending, hf, List.not_mem_nil, or_false, List.mem_filter, List.mem_append,
    List.mem_map, List.contains_eq_mem, Bool.not_eq_true', decide_eq_false_iff_not]

end Ledger

namespace Source

variable {types types' : TypePool} {inst : Inst}

theorem isSplat_extends (h : types.Extends types') (hi : inst.ty < types.size) :
    isSplat types' inst = isSplat types inst := by
  simp only [isSplat, TypePool.isVector, h.get _ hi]

theorem fieldType_extends (h : types.Extends types') (hi : inst.ty < types.size) :
    fieldType types' inst = fieldType types inst := by
  simp only [fieldType, isSplat_extends h hi, TypePool.element, h.get _ hi]

theorem fieldLanes_extends (h : types.Extends types') (hi : inst.ty < types.size) :
    fieldLanes types' inst = fieldLanes types inst := by
  simp only [fieldLanes, isSplat_extends h hi, TypePool.lengthOf, h.get _ hi]

end Source

namespace Draft

variable {d : Draft} {types : TypePool} {inst : Inst} {read : InstId} {value : Value}

/-- Where a vector of equal lanes is read, it is made of its first lane: whatever the vector was, all
its lanes are there again. -/
def Rebroadcasts (types : TypePool) (d : Draft) (inst : Inst) (read : InstId) (value : Value) : Prop :=
  ∀ a b mask, inst.op = .shuffle a b mask → Source.isSplat types inst = true →
    ∃ lane result spread vector, value = .inst result ∧
      [read, lane, result].Sublist (d.builder.func.instsOf d.entry) ∧
      d.builder.func.insts[lane]? = some spread ∧ d.builder.func.insts[result]? = some vector ∧
      ∀ (α : Type) (M : Machine α) (w : InstId → Datum α) (m : Memory α) (x y : Datum α),
        w read = (Datum.shuffle x y mask).part 0 →
        w lane = M.compute d.program (M.operand types d.program w m) m spread →
        w result = M.compute d.program (M.operand types d.program w m) m vector →
        ∀ k n, types.lengthOf inst.ty = some n → k < n → k < mask.length →
          (w result).part k = (Datum.shuffle x y mask).part k

theorem Renews.rebroadcasts (h : d.Renews inst.ty (Source.fieldLanes types inst) read value)
    (hi : types.get TypeId.int = .int) : d.Rebroadcasts types inst read value := by
  intro a b mask hop hs
  obtain ⟨elem, len, hty⟩ : ∃ elem len, types.get inst.ty = .vector elem len := by
    simp only [Source.isSplat, hop, Bool.and_eq_true, TypePool.isVector] at hs
    split at hs
    · next elem len hg => exact ⟨elem, len, hg⟩
    · simp at hs
  have hm : ∀ j ∈ mask, j = 0 := by
    simp only [Source.isSplat, hop, Bool.and_eq_true, List.all_eq_true, beq_iff_eq] at hs
    exact hs.1
  have hl : Source.fieldLanes types inst = some len := by
    simp [Source.fieldLanes, hs, TypePool.lengthOf, hty]
  rw [hl] at h
  obtain ⟨lane, result, rfl, hla, hr, ho⟩ := h
  refine ⟨lane, result, _, _, rfl, ho, hla, hr, fun α M w m x y hre hw hw' k n hn hk hk' => ?_⟩
  obtain rfl : len = n := by simpa [TypePool.lengthOf, hty] using hn
  have hp : 0 < len := Nat.zero_lt_of_lt hk
  have hz : M.index (M.operand types d.program w m (.const (.int TypeId.int 0))) = 0 := by
    simpa [Machine.operand, Machine.constant, Constant.int, hi] using M.index_int 0
  have hsp : w lane = .node ((List.replicate len (M.literal elem .undef)).modify 0 fun _ => w read) := by
    rw [hw]
    simp only [Machine.compute, hz]
    simp [Machine.operand, Machine.constant, Constant.undef, hty, Datum.put]
  rw [hw', Datum.part_shuffle_of_zero hm hk',
    ← Datum.part_shuffle_of_zero hm (Nat.zero_lt_of_lt hk'), ← hre]
  simp only [Machine.compute]
  rw [Datum.part_shuffle_of_zero (fun j hj => (List.mem_replicate.mp hj).2) (by simpa using hk)]
  simp [Machine.operand, hsp, Datum.parts, hp]

end Draft

namespace Source

open Emission

variable {src : Source} {s₁ s : Emission} {d : Draft} {i : InstId} {value : Value}
  {layouts : List TransferLayout} {slot : ValueSlot}

structure Obtains (src : Source) (types : TypePool) (d : Draft) (i : InstId) (value : Value)
    (slot : ValueSlot) : Prop where
  source : slot.source = i
  earlier : slot.src < slot.dst
  supplied : src.Supplies slot.src i
  value : ∃ inst, src.func.insts[i]? = some inst ∧ slot.ty = fieldType types inst ∧
    slot.scalarized = isSplat types inst ∧
    d.Renews inst.ty (fieldLanes types inst) slot.read value ∧
    d.Rebroadcasts types inst slot.read value

theorem Laid.obtains {records : List (RecordKey × String)} (h : Laid src s₁ records layouts s)
    (hs1 : Waiting src s₁) (hin : ∀ inst ∈ src.func.insts, inst.ty < s₁.types.size)
    (hsl : slot ∈ s₁.ledger.values) (hd : s.drafts[slot.dst.val]? = some d)
    (hva : d.reads.lookup slot.source = some value) :
    Obtains src s.types d slot.source value slot := by
  obtain ⟨hlt, hs, d1, inst, hd1, hi, ha⟩ := hs1.posted.slots slot hsl
  obtain ⟨d', hd', hr⟩ := h.edits.drafts _ d1 hd1
  obtain rfl := Option.mem_unique hd' hd
  have hty := hin inst (Array.mem_of_getElem? hi)
  have hex := h.edits.types
  obtain ⟨v, hv, hre⟩ := ha.value
  rw [hr.reads] at hva
  obtain rfl := Option.mem_unique hv hva
  have hr' : d'.Renews inst.ty (fieldLanes s.types inst) slot.read v := by
    rw [fieldLanes_extends hex hty]
    exact Draft.Renews.continues hre (fun e inst' hop he => hr.getElem? he hop) hr.entry hr.sublist
  have hint : s.types.get TypeId.int = .int := by
    rw [hex.get _ (TypePool.lt_size_of_get hs1.grounded.int (by simp))]
    exact hs1.grounded.int
  refine ⟨rfl, hlt, hs, inst, hi, ?_, ?_, hr', hr'.rebroadcasts hint⟩
  · rw [fieldType_extends hex hty, ha.ty]
  · rw [isSplat_extends hex hty, ha.scalarized]

theorem Carries.unique {a b : TransferLayout} {f g : Nat}
    (hn : (layouts.map TransferLayout.name).Nodup) (ha : a ∈ layouts) (hb : b ∈ layouts)
    (hc : s.Carries slot a f) (hc' : s.Carries slot b g) : a = b ∧ f = g := by
  obtain ⟨d, record, hd, hr, hl, -⟩ := hc.loaded
  obtain ⟨d', record', hd', hr', hl', -⟩ := hc'.loaded
  obtain rfl := Option.mem_unique hd hd'
  have hi := Option.mem_unique hl hl'
  simp only [Inst.mk.injEq, Operation.load.injEq, Address.member.injEq, List.cons.injEq] at hi
  obtain ⟨⟨rfl, rfl, -⟩, -⟩ := hi
  have hde := Option.mem_unique hr hr'
  have hna : a.name = b.name := congrArg GlobalDecl.name hde
  exact ⟨List.inj_on_of_nodup_map hn ha hb hna, rfl⟩

/-- When every record that was asked for is laid out once, under names of their own, what a part reads
of an earlier one is served by exactly one field of one record. -/
theorem one_field_per_read {tree : PostDominators} {types : TypePool} {scopes : List String}
    {records : List (RecordKey × String)} {layouts : List TransferLayout} (htypes : types.Grounded)
    (hinsts : ∀ inst ∈ src.func.insts, inst.ty < types.size)
    (hcopy : (src.copyAll tree).run (Emission.start src types scopes) = (.ok (), s₁))
    (hlay : (src.layOutAll records).run s₁ = (.ok layouts, s))
    (hkeys : (records.map Prod.fst).Nodup)
    (hall : ∀ key ∈ s₁.ledger.pending s₁.types, key ∈ records.map Prod.fst)
    (hnodup : (records.map Prod.snd).Nodup)
    (hnames : ∀ name ∈ records.map Prod.snd, ∀ decl ∈ src.program.globals, decl.name ≠ name)
    {dst : Scope} (hd : s.drafts[dst.val]? = some d) (hread : d.reads.lookup i = some value) :
    ∃! p : ValueSlot × TransferLayout × Nat, p.1 ∈ s.ledger.values ∧ p.1.dst = dst ∧
      Obtains src s.types d i value p.1 ∧ p.2.1 ∈ layouts ∧ s.Carries p.1 p.2.1 p.2.2 := by
  have hs₁ := waiting_of_copyAll hcopy htypes hinsts
  have hlaid := (sat_layOutAll_laid hs₁ hkeys hnodup hnames).of_run hlay
  obtain ⟨hsame, hfixed⟩ := ((sat_copyAll_copying tree _).of_run hcopy).sameRecords
  obtain ⟨d₁, hd₁, hr⟩ := hlaid.edits.back hd
  obtain ⟨slot, hslot, rfl, rfl⟩ := hs₁.posted.asked dst d₁ i value hd₁ (hr.reads ▸ hread)
  have hkey : Ledger.valueKey s₁.types slot ∈ records.map Prod.fst := by
    refine hall _ (Ledger.mem_pending.mpr ⟨.inl ⟨slot, hslot, rfl⟩, ?_⟩)
    rw [hfixed]
    exact List.not_mem_nil
  obtain ⟨layout, hlayout, f, hcarries⟩ := hlaid.carried slot hslot hkey
  have hobtains := hlaid.obtains hs₁ (hsame ▸ hinsts) hslot hd hread
  have hvalues := hlaid.edits.values
  refine ⟨(slot, layout, f), ⟨hvalues ▸ hslot, rfl, hobtains, hlayout, hcarries⟩, ?_⟩
  rintro ⟨slot', layout', f'⟩ ⟨hslot', hdst, hobtains', hlayout', hcarries'⟩
  rw [hvalues] at hslot'
  obtain rfl : slot' = slot := hs₁.posted.eq_of_source hslot' hslot hdst hobtains'.source
  have hlayouts : (layouts.map TransferLayout.name).Nodup :=
    hnodup.sublist (by simpa [Function.comp_def] using hlaid.named.map Prod.snd)
  obtain ⟨rfl, rfl⟩ := Carries.unique hlayouts hlayout' hlayout hcarries' hcarries
  rfl

end Source

/-- A vector that is spread from one lane in one stage, and written out in the next. -/
def spreading : Function where
  name := "main"
  entry := 0
  blocks := #[⟨[0, 1, 2], some .ret⟩]
  insts := #[⟨.load (.member 0 []), 4, 0⟩, ⟨.shuffle (.inst 0) (.inst 0) [0, 0, 0], 4, 0⟩,
    ⟨.store (.inst 1) (.member 1 []), .void, 0⟩]
  layout := [0]

def spreadingSource : Source where
  program := ⟨"gray", [.plain "color" 4, .plain "shade" 4], [], [spreading]⟩
  func := spreading
  table := { Classification.unknown (.empty "gray") spreading with
    insts := #[⟨some (.ofNat 0), .ofNat 1⟩, ⟨some (.ofNat 0), .ofNat 1⟩, ⟨some (.ofNat 1), .ofNat 1⟩]
    globals := Array.replicate 2 .unknown }

def spreadingTypes : TypePool := (TypePool.empty.intern (.vector .float 3)).2

def spreadingCopied : Emission :=
  ((spreadingSource.copyAll ⟨#[some 1, some 1], #[1, 0]⟩).run
    (Emission.start spreadingSource spreadingTypes ["early", "late"])).2

def spreadingRecords : List (RecordKey × String) := [(⟨.ofNat 0, .ofNat 1, false⟩, "early_to_late")]

theorem one_field_spreading :
    ∃ s layouts d value, (spreadingSource.layOutAll spreadingRecords).run spreadingCopied
        = (.ok layouts, s) ∧ s.drafts[(1 : Scope).val]? = some d ∧ d.reads.lookup 1 = some value ∧
      ∃! p : ValueSlot × TransferLayout × Nat, p.1 ∈ s.ledger.values ∧ p.1.dst = 1 ∧
        Source.Obtains spreadingSource s.types d 1 value p.1 ∧ p.2.1 ∈ layouts ∧
        s.Carries p.1 p.2.1 p.2.2 := by
  have hok : ((spreadingSource.copyAll ⟨#[some 1, some 1], #[1, 0]⟩).run
      (Emission.start spreadingSource spreadingTypes ["early", "late"])).1.isOk = true := by
    decide +kernel
  have hok' : ((spreadingSource.layOutAll spreadingRecords).run spreadingCopied).1.isOk = true := by
    decide +kernel
  obtain ⟨_, hcopy⟩ := Act.exists_run_of_isOk hok
  obtain ⟨layouts, hlay⟩ := Act.exists_run_of_isOk hok'
  have hread : (((spreadingSource.layOutAll spreadingRecords).run spreadingCopied).2.drafts[(1 : Scope).val]?.bind
      (·.reads.lookup 1)).isSome = true := by decide +kernel
  obtain ⟨value, hvalue⟩ := Option.isSome_iff_exists.mp hread
  obtain ⟨d, hd, hvalue⟩ := Option.bind_eq_some_iff.mp hvalue
  refine ⟨_, layouts, d, value, hlay, hd, hvalue, ?_⟩
  exact Source.one_field_per_read (by decide +kernel) (by decide +kernel) hcopy hlay (by decide)
    (by decide +kernel) (by decide) (by decide +kernel) hd hvalue

/-- A texture that is picked at run time, and two reads whose type has a number that the pool has not
given out yet. -/
def unissued : Function where
  name := "main"
  entry := 0
  blocks := #[⟨[0, 1, 2, 3, 4], some .ret⟩]
  insts := #[⟨.load (.member 1 []), .int, 0⟩, ⟨.load (.element 0 [.dynamic (.inst 0)]), 4, 0⟩,
    ⟨.load (.member 0 [0]), 6, 0⟩, ⟨.load (.element 0 [.dynamic (.inst 0), .fixed 0]), 6, 0⟩,
    ⟨.binary .add (.inst 2) (.inst 0), .int, 0⟩]
  layout := [0]

def unissuedSource : Source where
  program := ⟨"retyped", [.plain "maps" 5, .plain "pick" .int], [], [unissued]⟩
  func := unissued
  table := { Classification.unknown (.empty "retyped") unissued with
    insts := (Array.replicate 5 ⟨some (.ofNat 1), .ofNat 1⟩).set! 2 ⟨some (.ofNat 0), .ofNat 1⟩
    globals := #[⟨some (.ofNat 0), .ofNat 1⟩, ⟨some (.ofNat 1), .ofNat 1⟩] }

def crossingTypes : TypePool :=
  ((TypePool.empty.intern (.texture .planar)).2.intern (.vector 4 2)).2

def unissuedCopied : Emission :=
  ((unissuedSource.copyAll ⟨#[some 1, some 1], #[1, 0]⟩).run
    (Emission.start unissuedSource crossingTypes ["early", "late"])).2

def unissuedRecords : List (RecordKey × String) :=
  [(⟨.ofNat 0, .ofNat 1, true⟩, "handles"), (⟨.ofNat 0, .ofNat 1, false⟩, "data")]

theorem copyAll_unissued : (unissuedSource.copyAll ⟨#[some 1, some 1], #[1, 0]⟩).run
    (Emission.start unissuedSource crossingTypes ["early", "late"]) = (.ok (), unissuedCopied) := by
  have hok : ((unissuedSource.copyAll ⟨#[some 1, some 1], #[1, 0]⟩).run
      (Emission.start unissuedSource crossingTypes ["early", "late"])).1.isOk = true := by
    decide +kernel
  exact (Act.exists_run_of_isOk hok).choose_spec

def unissuedLaid : Emission := ((unissuedSource.layOutAll unissuedRecords).run unissuedCopied).2

/-- The handles are laid out first. Their array is given the number that the value has as its type, so
that the value belongs to the record that is finished, and no field carries it. -/
theorem no_field_unissued :
    (unissuedSource.copyAll ⟨#[some 1, some 1], #[1, 0]⟩).run
      (Emission.start unissuedSource crossingTypes ["early", "late"]) = (.ok (), unissuedCopied) ∧
    (unissuedRecords.map Prod.fst).Nodup ∧ (unissuedRecords.map Prod.snd).Nodup ∧
    (∀ name ∈ unissuedRecords.map Prod.snd, ∀ decl ∈ unissuedSource.program.globals,
      decl.name ≠ name) ∧
    (∀ key ∈ unissuedCopied.ledger.pending unissuedCopied.types,
      key ∈ unissuedRecords.map Prod.fst) ∧
    ∃ layouts d value, (unissuedSource.layOutAll unissuedRecords).run unissuedCopied
        = (.ok layouts, unissuedLaid) ∧
      unissuedLaid.drafts[(1 : Scope).val]? = some d ∧ d.reads.lookup 2 = some value ∧
      ∀ slot ∈ unissuedLaid.ledger.values, ∀ layout f, ¬unissuedLaid.Carries slot layout f := by
  refine ⟨copyAll_unissued, by decide, by decide, by decide +kernel, by decide +kernel, ?_⟩
  have hok : ((unissuedSource.layOutAll unissuedRecords).run unissuedCopied).1.isOk = true := by
    decide +kernel
  have hread : (unissuedLaid.drafts[(1 : Scope).val]?.bind (·.reads.lookup 2)).isSome = true := by
    decide +kernel
  have hwaits : ∀ slot ∈ unissuedLaid.ledger.values, ∀ d ∈ unissuedLaid.drafts[slot.dst.val]?,
      ∀ inst ∈ d.builder.func.insts[slot.read]?, inst.op = .load .pending := by decide +kernel
  obtain ⟨layouts, hlay⟩ := Act.exists_run_of_isOk hok
  obtain ⟨value, hvalue⟩ := Option.isSome_iff_exists.mp hread
  obtain ⟨d, hd, hvalue⟩ := Option.bind_eq_some_iff.mp hvalue
  refine ⟨layouts, d, value, hlay, hd, hvalue, fun slot hslot layout f hcarries => ?_⟩
  obtain ⟨e, record, he, -, hload, -⟩ := hcarries.loaded
  cases hwaits slot hslot e he _ hload

end Stagewise
