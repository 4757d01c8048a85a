import Stagewise.Proofs.Emission.Handover

namespace Stagewise

namespace Emission

/-- The fields of array slots deliver what a read asks for. The part that owns the binding begins with
copies of elements only, among them those of the slot at all its positions; the read, which stands for
an indexed load of the source, loads the element at its index. -/
structure Delivers (source : Source) (types : TypePool) (layouts : List TransferLayout)
    (field : ArraySlot → TransferLayout × Nat) (s : Emission) (slot : ArraySlot)
    (r : InstId × Value) : Prop where
  layout : (field slot).1 ∈ layouts
  src : (field slot).1.src = slot.src
  dst : (field slot).1.dst = slot.dst
  lt : (field slot).2 < (field slot).1.fields.length
  spans : source.Spans types slot
  copied : ∃ d front rest, s.drafts[slot.src.val]? = some d ∧
    d.builder.func.instsOf d.entry = Draft.inTurn front ++ rest ∧
    (∀ y ∈ front, ∃ slot' ∈ s.ledger.arrays, ∃ p < slot'.len,
      d.CopiesElement source slot' (field slot').1 (field slot').2 p y) ∧
    ∀ p < slot.len, ∃ y ∈ front, d.CopiesElement source slot (field slot).1 (field slot).2 p y
  loaded : ∃ d, s.drafts[slot.dst.val]? = some d ∧ d.Fetches source slot r ∧
    d.ReadsElement (field slot).1 (field slot).2 r

end Emission

namespace Source

open Emission

variable {src : Source} {s₁ s : Emission} {records : List (RecordKey × String)}
  {layouts : List TransferLayout} {l l' : TransferLayout} {a b slot : ArraySlot} {f f' : Nat}

theorem Waiting.nodup_arrays (h : Waiting src s) : s.ledger.arrays.Nodup :=
  h.accounted.apart.imp fun {_ _} hab heq => hab.2 (by subst heq; exact ⟨rfl, rfl, rfl, rfl⟩)

theorem HasField.eq_of_slot (hs1 : Waiting src s₁) (hk : (layouts.map TransferLayout.key).Nodup)
    (hl : l ∈ layouts) (hl' : l' ∈ layouts) (h : s₁.HasField l slot f) (h' : s₁.HasField l' slot f') :
    (l, f) = (l', f') := by
  obtain ⟨i, hi, rfl⟩ := h
  obtain ⟨j, hj, rfl⟩ := h'
  have hke := (Ledger.mem_arraysOf.mp (List.mem_of_getElem? hi)).2
  have hk' := (Ledger.mem_arraysOf.mp (List.mem_of_getElem? hj)).2
  obtain rfl := List.inj_on_of_nodup_map hk hl hl' (hke.symm.trans hk')
  have hij : i = j := (List.getElem?_inj (List.getElem?_eq_some_iff.mp hi).1
    (hs1.nodup_arrays.filter _)).mp (hi.trans hj.symm)
  rw [hij]

theorem HasField.eq_of_field (ha : s₁.HasField l a f) (hb : s₁.HasField l b f) : a = b := by
  obtain ⟨i, hi, rfl⟩ := ha
  obtain ⟨j, hj, heq⟩ := hb
  obtain rfl := Nat.add_left_cancel heq
  exact Option.mem_unique hi hj

/-- When every record that was asked for is laid out once, under names of their own, there is a field for
each array slot such that every read gets the element it asks for, and two reads of one part have the
same field exactly if they read the same binding along the same path. -/
theorem elements_delivered {tree : PostDominators} {types : TypePool} {scopes : List String}
    (htypes : types.Grounded) (hinsts : ∀ inst ∈ src.func.insts, inst.ty < types.size)
    (hcopy : (src.copyAll tree).run (Emission.start src types scopes) = (.ok (), s₁))
    (hlay : (src.layOutAll records).run s₁ = (.ok layouts, s))
    (hkeys : (records.map Prod.fst).Nodup)
    (hall : ∀ key ∈ s₁.ledger.pending s₁.types, key ∈ records.map Prod.fst)
    (hnodup : (records.map Prod.snd).Nodup)
    (hnames : ∀ name ∈ records.map Prod.snd, ∀ decl ∈ src.program.globals, decl.name ≠ name) :
    ∃ field : ArraySlot → TransferLayout × Nat,
      (∀ slot ∈ s.ledger.arrays, ∀ r ∈ slot.reads, s.Delivers src types layouts field slot r) ∧
      ∀ a ∈ s.ledger.arrays, ∀ b ∈ s.ledger.arrays, a.dst = b.dst →
        (field a = field b ↔ a.global = b.global ∧ a.path = b.path) := by
  have hs₁ := waiting_of_copyAll hcopy htypes hinsts
  have hlaid := (sat_layOutAll_laid hs₁ hkeys hnodup hnames).of_run hlay
  have hsame : s₁.types = types := ((sat_copyAll_copying tree _).of_run hcopy).sameRecords.1
  have hlayouts : (layouts.map TransferLayout.key).Nodup :=
    hkeys.sublist (by simpa [Function.comp_def] using hlaid.named.map Prod.fst)
  have : Nonempty (TransferLayout × Nat) := ⟨⟨"", 0, 0, false, 0, [], []⟩, 0⟩
  have hexists : ∀ slot ∈ s₁.ledger.arrays, ∃ p : TransferLayout × Nat, p.1 ∈ layouts ∧
      s₁.HasField p.1 slot p.2 ∧ ∀ r ∈ slot.reads, s.Meets slot.dst (·.Patched p.1 r.1) := by
    intro slot hslot
    have hasked : s₁.ledger.Asked s₁.types (Ledger.arrayKey s₁.types slot) := .inr ⟨slot, hslot, rfl⟩
    have hkey := hall _ (Ledger.mem_pending.mpr ⟨hasked, by simp [hs₁.fixed]⟩)
    obtain ⟨l, hl, hlkey, d, hd, hpatched⟩ := hlaid.patched _ hkey hasked
    obtain ⟨j, hj⟩ := List.mem_iff_getElem?.mp (Ledger.mem_arraysOf.mpr ⟨hslot, hlkey.symm⟩)
    refine ⟨(l, (s₁.ledger.valuesOf s₁.types l.key).length + j), hl, ⟨j, hj, rfl⟩, fun r hr e he => ?_⟩
    exact Option.mem_unique hd he ▸ hpatched _ (Ledger.readOf_array hslot hr)
  choose! field hfield using hexists
  rw [hlaid.edits.arrays]
  refine ⟨field, fun slot hslot r hr => ?_, fun a ha b hb hdst => ⟨fun heq => ?_, fun heq => ?_⟩⟩
  · obtain ⟨hl, hf, hpatched⟩ := hfield slot hslot
    obtain ⟨hlt, hreads⟩ := hs₁.posted.arrays slot hslot
    obtain ⟨⟨d₁, inst, hd₁, -⟩, -⟩ := hreads r hr
    obtain ⟨d, hd, he⟩ := hlaid.edits.drafts _ d₁ hd₁
    have he₁ : s₁.drafts[slot.src.val]? = some _ := Array.getElem?_eq_getElem
      (Nat.lt_trans hlt (Array.getElem?_eq_some_iff.mp hd₁).1)
    obtain ⟨e, hed, hedits⟩ := hlaid.edits.drafts _ _ he₁
    obtain ⟨front, more, hlist, honly, hcopies⟩ := hlaid.fronts slot.src _ e he₁ hed
    have hkey : Ledger.arrayKey s₁.types slot = (field slot).1.key := by
      obtain ⟨j, hj, -⟩ := hf
      exact (Ledger.mem_arraysOf.mp (List.mem_of_getElem? hj)).2
    have hdst : (field slot).1.dst = slot.dst := congrArg RecordKey.dst hkey.symm
    have hloads := hlaid.addressed _ hl slot _ hf d (hdst ▸ hd) r hr
    refine ⟨hl, congrArg RecordKey.src hkey.symm, hdst, ?_, hsame ▸ hs₁.accounted.spans slot hslot,
      ⟨e, front, _, hed, hedits.entry ▸ hlist, fun y hy => ?_, fun p hp =>
        hcopies slot _ _ ⟨rfl, hl, hf⟩ p hp⟩, d, hd,
      (hs₁.accounted.fetched slot hslot r hr d₁ hd₁).retains he.retains, hloads⟩
    · obtain ⟨record, inst, -, hinst, hop⟩ := hloads
      obtain ⟨inst', addr, -, k, hinst', hop', -, hk, -, hklt⟩ := hpatched r hr d hd
      obtain rfl := Option.mem_unique hinst hinst'
      obtain rfl := Operation.load.inj (hop.symm.trans hop')
      exact Option.some.inj hk ▸ hklt
    · obtain ⟨-, slot', l', f', p, ⟨-, hl', hf'⟩, hp, hcopied⟩ := honly y hy
      have hslot' : slot' ∈ s₁.ledger.arrays := by
        obtain ⟨j, hj, -⟩ := hf'
        exact (Ledger.mem_arraysOf.mp (List.mem_of_getElem? hj)).1
      obtain ⟨hown, hfown, -⟩ := hfield slot' hslot'
      have heq := HasField.eq_of_slot hs₁ hlayouts hown hl' hfown hf'
      refine ⟨slot', hlaid.edits.arrays ▸ hslot', p, hp, ?_⟩
      rw [show field slot' = (l', f') from heq]
      exact hcopied
  · obtain ⟨-, hfa, -⟩ := hfield a ha
    obtain ⟨-, hfb, -⟩ := hfield b hb
    obtain rfl := HasField.eq_of_field hfa (heq ▸ hfb)
    exact ⟨rfl, rfl⟩
  · -- the same binding is owned by the same scope, and slots of one path were merged
    obtain ⟨hglobal, hpath⟩ := heq
    have hsrc : a.src = b.src := Option.some.inj ((hs₁.accounted.spans a ha).owned.symm.trans
      (hglobal ▸ (hs₁.accounted.spans b hb).owned))
    by_contra hne
    exact (hs₁.accounted.apart_of_ne ha hb fun hab => hne (congrArg field hab)).2
      ⟨hsrc, hdst, hglobal, hpath⟩

end Source

/-- Two members of one of three lights, which is picked in the second stage, are added there. -/
def lighting : Function where
  name := "main"
  entry := 0
  blocks := #[⟨[0, 1, 2, 3, 4], some .ret⟩]
  insts := #[⟨.load (.member 1 []), .int, 0⟩,
    ⟨.load (.element 0 [.dynamic (.inst 0), .fixed 1]), .float, 0⟩,
    ⟨.load (.element 0 [.dynamic (.inst 0), .fixed 0]), .float, 0⟩,
    ⟨.binary .add (.inst 1) (.inst 2), .float, 0⟩, ⟨.store (.inst 3) (.member 2 []), .void, 0⟩]
  layout := [0]

def lightingSource : Source where
  program := ⟨"lit", [.plain "lights" 5, .plain "pick" .int, .plain "out" .float], [], [lighting]⟩
  func := lighting
  table := { Classification.unknown (.empty "lit") lighting with
    insts := Array.replicate 5 ⟨some (.ofNat 1), .ofNat 1⟩
    globals := #[⟨some (.ofNat 0), .ofNat 1⟩, ⟨some (.ofNat 1), .ofNat 1⟩, .unknown] }

def lightingTypes : TypePool :=
  ((TypePool.empty.intern (.struct [.float, .float] false)).2.intern (.array 4 3)).2

def lightingCopied : Emission :=
  ((lightingSource.copyAll ⟨#[some 1, some 1], #[1, 0]⟩).run
    (Emission.start lightingSource lightingTypes ["early", "late"])).2

theorem elements_delivered_lighting :
    ∃ s layouts, (lightingSource.layOutAll spreadingRecords).run lightingCopied = (.ok layouts, s) ∧
      s.ledger.arrays.map (fun slot => (slot.path, slot.len, slot.reads.length))
        = [([none, some 1], 3, 1), ([none, some 0], 3, 1)] ∧
      ∃ field : ArraySlot → TransferLayout × Nat,
        (∀ slot ∈ s.ledger.arrays, ∀ r ∈ slot.reads,
          s.Delivers lightingSource lightingTypes layouts field slot r) ∧
        ∀ a ∈ s.ledger.arrays, ∀ b ∈ s.ledger.arrays, a.dst = b.dst →
          (field a = field b ↔ a.global = b.global ∧ a.path = b.path) := by
  have hok : ((lightingSource.copyAll ⟨#[some 1, some 1], #[1, 0]⟩).run
      (Emission.start lightingSource lightingTypes ["early", "late"])).1.isOk = true := by
    decide +kernel
  have hok' : ((lightingSource.layOutAll spreadingRecords).run lightingCopied).1.isOk = true := by
    decide +kernel
  obtain ⟨_, hcopy⟩ := Act.exists_run_of_isOk hok
  obtain ⟨layouts, hlay⟩ := Act.exists_run_of_isOk hok'
  refine ⟨_, layouts, hlay, by decide +kernel, ?_⟩
  exact Source.elements_delivered (by decide +kernel) (by decide +kernel) hcopy hlay (by decide)
    (by decide +kernel) (by decide) (by decide +kernel)

/-- Nor does a field deliver the element that is read with such a type. -/
theorem not_delivered_unissued :
    (unissuedSource.copyAll ⟨#[some 1, some 1], #[1, 0]⟩).run
      (Emission.start unissuedSource crossingTypes ["early", "late"]) = (.ok (), unissuedCopied) ∧
    (unissuedRecords.map Prod.fst).Nodup ∧ (unissuedRecords.map Prod.snd).Nodup ∧
    (∀ name ∈ unissuedRecords.map Prod.snd, ∀ decl ∈ unissuedSource.program.globals,
      decl.name ≠ name) ∧
    (∀ key ∈ unissuedCopied.ledger.pending unissuedCopied.types,
      key ∈ unissuedRecords.map Prod.fst) ∧
    ∃ layouts, (unissuedSource.layOutAll unissuedRecords).run unissuedCopied
        = (.ok layouts, unissuedLaid) ∧
      ∃ slot ∈ unissuedLaid.ledger.arrays, ∃ r ∈ slot.reads, ∀ field,
        ¬unissuedLaid.Delivers unissuedSource crossingTypes layouts field slot r := by
  refine ⟨copyAll_unissued, by decide, by decide, by decide +kernel, by decide +kernel, ?_⟩
  have hok : ((unissuedSource.layOutAll unissuedRecords).run unissuedCopied).1.isOk = true := by
    decide +kernel
  have hwaits : ∃ slot ∈ unissuedLaid.ledger.arrays, ∃ r ∈ slot.reads,
      ∀ d ∈ unissuedLaid.drafts[slot.dst.val]?, ∀ inst ∈ d.builder.func.insts[r.1]?,
        inst.op = .load .pending := by decide +kernel
  obtain ⟨layouts, hlay⟩ := Act.exists_run_of_isOk hok
  obtain ⟨slot, hslot, r, hr, hwaits⟩ := hwaits
  refine ⟨layouts, hlay, slot, hslot, r, hr, fun field hdelivers => ?_⟩
  obtain ⟨d, hd, -, record, inst, -, hinst, hop⟩ := hdelivers.loaded
  rw [hwaits d hd inst hinst] at hop
  cases hop

end Stagewise
