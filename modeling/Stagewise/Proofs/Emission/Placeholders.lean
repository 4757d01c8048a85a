import Stagewise.Proofs.Emission.Handover
import Stagewise.Proofs.Emission.Layout

namespace Stagewise

/-- A record has the name that the table gives it, or one that is made from its scopes. -/
def ScopeTable.Names (t : ScopeTable) (l : TransferLayout) : Prop :=
  (l.key, l.name) ∈ t.records ∨ l.name = t.generatedName l.key

theorem Draft.Wires.address?_ne_pending {src : Source} {L : TransferLayout → Prop} {F : Nat → Prop}
    {x : Scope} {d : Draft} {op : Operation} (h : d.Wires src L F x op) :
    op.address? ≠ some .pending := by
  cases h <;> simp [Operation.address?]

namespace Source

open Emission

variable {src : Source} {s₁ s : Emission} {done : List (RecordKey × String)}
  {layouts : List TransferLayout} {e : InstId}

variable {tree : PostDominators} {types : TypePool} {table : ScopeTable} {d : Draft} {n : Nat}

theorem sat_emitTable_served
    (hty : types.Grounded) (hi : ∀ inst ∈ src.func.insts, inst.ty < types.size) :
    Act.Sat Act.Any (src.emitTable tree table) (Emission.start src types table.scopes)
      fun layouts t => ∃ s₁ done, Waiting src s₁ ∧ Served src s₁ done layouts t ∧
        (∀ r ∈ done, r ∈ table.records ∨ r.2 = table.generatedName r.1) ∧
        ∀ key, s₁.ledger.Asked s₁.types key → key ∈ done.map Prod.fst := by
  unfold emitTable layOutTable
  simp only [Act.sat_bind, Act.sat_get, Act.sat_pure]
  refine Act.sat_any_iff.mpr fun _ s₁ hc => ?_
  have hs1 := waiting_of_copyAll hc hty hi
  refine ((served_nil hs1).sat_layOutAll hs1 table.records).mono fun named s hs => ?_
  refine (hs.sat_layOutAll hs1 _).mono fun others t ht => ?_
  refine ⟨s₁, _, hs1, ht, fun r hr => ?_, fun key hk => ?_⟩
  · rcases List.mem_append.mp hr with hr | hr
    · exact .inl hr
    · obtain ⟨k, -, rfl⟩ := List.mem_map.mp hr
      exact .inr rfl
  · by_cases hin : key ∈ table.records.map Prod.fst
    · rw [List.map_append]
      exact List.mem_append_left _ hin
    · rw [List.map_append]
      refine List.mem_append_right _ (List.mem_map.mpr ⟨(key, table.generatedName key), ?_, rfl⟩)
      refine List.mem_map.mpr ⟨key, Ledger.mem_pending.mpr ⟨(hs.asked_iff hs1 key).mpr hk, ?_⟩, rfl⟩
      exact fun hf => hin ((hs.fixed key).mp hf)

theorem Served.address?_ne_pending (h : Served src s₁ done layouts s) (hs1 : Waiting src s₁)
    (ha : ∀ key, s₁.ledger.Asked s₁.types key → key ∈ done.map Prod.fst)
    {inst : Inst} (hd : s.drafts[n]? = some d) (hi : d.builder.func.insts[e]? = some inst) :
    inst.op.address? ≠ some .pending := by
  intro hp
  -- an instruction that waits was there before, and is no read of a record
  have hb : ∃ d1, s₁.drafts[n]? = some d1 ∧ d1.builder.func.insts[e]? = some inst ∧
      ∀ x : Scope, x.val = n → ¬ReadOfAny s₁ (done.map Prod.fst) x e := by
    by_cases hn : n < 256
    · obtain ⟨d1, hd1, he⟩ := h.edits.back (show s.drafts[(⟨n, hn⟩ : Scope).val]? = some d from hd)
      rcases he.written e inst hi with ⟨ho, hno⟩ | hw
      · exact ⟨d1, hd1, ho, fun x hx => (Fin.ext hx : x = ⟨n, hn⟩) ▸ hno⟩
      · exact absurd hp hw.address?_ne_pending
    · rw [h.edits.others n (Nat.not_lt.mp hn)] at hd
      exact ⟨d, hd, hi, fun x hx => absurd x.isLt (by omega)⟩
  obtain ⟨d1, hd1, hi1, hno⟩ := hb
  rcases hs1.accounted.expected n d1 e inst hd1 hi1 hp with
    ⟨slot, hs, hds, rfl⟩ | ⟨slot, hs, hds, r, hr, rfl⟩
  · exact hno slot.dst hds ⟨_, ha _ (.inl ⟨slot, hs, rfl⟩), rfl, Ledger.readOf_value hs⟩
  · exact hno slot.dst hds ⟨_, ha _ (.inr ⟨slot, hs, rfl⟩), rfl, Ledger.readOf_array hs hr⟩

theorem functions_of_emitTable
    (hr : (src.emitTable tree table).run (Emission.start src types table.scopes)
      = (.ok layouts, s)) (hd : s.drafts[n]? = some d) :
    d.finish.program.functions = [d.builder.finish] := by
  obtain ⟨-, hs, ho⟩ := (@sat_emitTable_figures src (fun _ => false) tree table
    types).of_run hr fun _ _ => rfl
  have hf : d.program.functions = [] := by
    by_cases hlt : n < 256
    · exact (hs ⟨n, hlt⟩ d hd).functions
    · exact (ho n d (Nat.le_of_not_lt hlt) hd).functions
  simp [Draft.finish, Program.addFunction, hf]

theorem eq_finish_of_emitTable
    (hr : (src.emitTable tree table).run (Emission.start src types table.scopes)
      = (.ok layouts, s)) (hd : s.drafts[n]? = some d) {g : Function}
    (hg : g ∈ d.finish.program.functions) : g = d.builder.finish := by
  rw [functions_of_emitTable hr hd] at hg
  exact List.mem_singleton.mp hg

end Source

variable {p : Program} {types : TypePool} {f : Function} {table : ScopeTable} {strategy : Strategy}

/-- If the types of all instructions are in the pool, no load of a split waits for its address: each
read that was asked for loads a field of a record that the table names, or of one with a generated
name, and no record is left to lay out. -/
theorem placeholders_patched {τ : Type} {hook : Classifier → Act Classifier.State τ} {extra : τ}
    {out : SplitOutput} {types' : TypePool} (htypes : types.Grounded)
    (hinsts : ∀ inst ∈ f.insts, inst.ty < types.size)
    (h : splitWith p types f table strategy hook = .ok (out, extra, types')) :
    (∀ part ∈ out.partitions, ∀ g ∈ part.program.functions, ∀ inst ∈ g.insts,
      inst.op.address? ≠ some .pending) ∧
    ∃ tree final, (Source.emitTable ⟨p, f, out.classification⟩ tree table).run
        (Emission.start ⟨p, f, out.classification⟩ types table.scopes)
        = (.ok out.transfers, final) ∧
      out.partitions = final.partitions ∧ types' = final.types ∧
      final.ledger.pending types' = [] ∧
      ∀ key e, final.ledger.ReadOf types' key e → ∃ layout ∈ out.transfers,
        layout.key = key ∧ table.Names layout ∧
        ∃ d, final.drafts[key.dst.val]? = some d ∧ d.Patched layout e := by
  obtain ⟨tree, final, hrun, hpartitions, rfl⟩ := exists_emitted_of_splitWith_eq h
  obtain ⟨s₁, done, hs₁, hserved, hnames, hall⟩ :=
    (Source.sat_emitTable_served htypes hinsts).of_run hrun
  refine ⟨fun part hpart g hg inst hinst => ?_, tree, final, hrun, hpartitions, rfl, ?_,
    fun key e hread => ?_⟩
  · rw [hpartitions] at hpart
    obtain ⟨d, hd, rfl⟩ := List.mem_map.mp hpart
    obtain ⟨n, hn⟩ := List.mem_iff_getElem?.mp hd
    rw [Array.getElem?_toList] at hn
    obtain rfl := Source.eq_finish_of_emitTable hrun hn hg
    obtain ⟨e, he⟩ := Array.mem_iff_getElem?.mp hinst
    exact hserved.address?_ne_pending hs₁ hall hn he
  · refine List.eq_nil_iff_forall_not_mem.mpr fun key hkey => ?_
    obtain ⟨hasked, hopen⟩ := Ledger.mem_pending.mp hkey
    exact hopen ((hserved.fixed key).mpr (hall key ((hserved.asked_iff hs₁ key).mp hasked)))
  · have hread₁ := (hserved.readOf_iff hs₁ key e).mp hread
    obtain ⟨layout, hlayout, hkey, d, hd, hpatched⟩ :=
      hserved.patched key (hall key hread₁.asked) hread₁.asked
    exact ⟨layout, hlayout, hkey, hnames _ (hserved.named.subset (List.mem_map_of_mem hlayout)), d, hd,
      hpatched e hread₁⟩

/-- One of two textures, and a value of a type that is still open, cross to the next stage. -/
def crossing (ty : TypeId) : Function where
  name := "main"
  entry := 0
  blocks := #[⟨[0, 1, 2, 3, 4], some .ret⟩]
  insts := #[⟨.load (.member 1 []), .int, 0⟩, ⟨.load (.element 0 [.dynamic (.inst 0)]), 4, 0⟩,
    ⟨.load (.member 2 []), ty, 0⟩, ⟨.store (.inst 1) (.member 3 []), .void, 0⟩,
    ⟨.store (.inst 2) (.member 4 []), .void, 0⟩]
  layout := [0]

def crossingProgram (ty : TypeId) : Program :=
  ⟨"foreign", [.plain "maps" 5, .plain "pick" .int, .plain "odd" ty, .plain "shade" 4,
    .plain "out" ty], [], [crossing ty]⟩

def crossingTable : ScopeTable where
  scopes := ["early", "late"]
  roots := [⟨"maps", .ofNat 0, .ofNat 1⟩, ⟨"pick", .ofNat 1, .ofNat 1⟩, ⟨"odd", .ofNat 0, .ofNat 1⟩]
  sinks := [⟨"shade", .ofNat 1, .ofNat 1⟩, ⟨"out", .ofNat 1, .ofNat 1⟩]
  transfers := [⟨.ofNat 0, .ofNat 1, "handles", true⟩, ⟨.ofNat 0, .ofNat 1, "data", false⟩]

theorem placeholders_patched_crossing :
    ∃ out types', splitWith (crossingProgram .float) crossingTypes (crossing .float) crossingTable
        .plain (fun _ => pure ()) = .ok (out, (), types') ∧
      ∀ part ∈ out.partitions, ∀ g ∈ part.program.functions, ∀ inst ∈ g.insts,
        inst.op.address? ≠ some .pending := by
  have hok : (splitWith (crossingProgram .float) crossingTypes (crossing .float) crossingTable
      .plain fun _ => pure ()).isOk = true := by decide +kernel
  obtain ⟨answer, hsplit⟩ := exists_ok_of_isOk hok
  refine ⟨answer.1, answer.2.2, hsplit, ?_⟩
  exact (placeholders_patched (by decide +kernel) (by decide +kernel) hsplit).1

/-- The number of the open type is given to an array of textures while the handles are laid out, so
that the read of the value is in neither record. -/
theorem placeholder_left_crossing :
    crossingTable.validate = .ok () ∧ ∃ out types',
      split (crossingProgram 6) crossingTypes (crossing 6) crossingTable .plain = .ok (out, types') ∧
      ∃ part ∈ out.partitions, ∃ g ∈ part.program.functions, ∃ inst ∈ g.insts,
        inst.op.address? = some .pending := by
  refine ⟨by decide, ?_⟩
  have hfails : (split (crossingProgram 6) crossingTypes (crossing 6) crossingTable
      .plain).toOption.any (fun answer => answer.1.partitions.any fun part =>
        part.program.functions.any fun g => g.insts.any fun inst =>
          inst.op.address? == some .pending) = true := by decide +kernel
  obtain ⟨answer, hsplit, hfails⟩ := exists_ok_of_any hfails
  refine ⟨answer.1, answer.2, hsplit, ?_⟩
  simpa [Array.any_eq_true, Array.mem_iff_getElem] using hfails

end Stagewise
