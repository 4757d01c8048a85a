import Stagewise.Proofs.Classification.Requirement
import Stagewise.Proofs.Emission.GuardedWrites
import Stagewise.Proofs.Semantics.SourceRun

namespace Stagewise

variable {α : Type} {e : Effect α}

def Effect.name : Effect α → String
  | .write x _ => x.binding
  | .call name _ => name

theorem Effect.name_of_writesTo {name : String} (h : e.writesTo name = true) : e.name = name := by
  cases e with
  | call callee args => cases h
  | write x v => exact beq_iff_eq.mp h

theorem Machine.writeName?_of_effect? {M : Machine α} {p : Program} {eval : Value → Datum α}
    {op : Operation} (h : M.effect? p eval op = some e) : p.writeName? op = some e.name := by
  cases e with
  | write x v =>
    cases op with
    | store u addr => exact storeName?_of_effect? h
    | call callee args => cases callee <;> simp [effect?] at h
    | _ => cases h
  | call name args =>
    cases op with
    | store u addr => simp [effect?] at h
    | call callee args =>
      cases callee with
      | indirect target => cases h
      | direct callee =>
        obtain ⟨d, hd, heq⟩ := Option.map_eq_some_iff.mp h
        obtain ⟨rfl, -⟩ := (Effect.call.injEq ..).mp heq
        simp [Program.writeName?, hd, Effect.name]
    | _ => cases h

namespace Scenario

variable {c : Scenario α} {table : ScopeTable} {insts : List InstId}

def Places (c : Scenario α) (table : ScopeTable) : Prop :=
  ∀ i e z, c.effectOf i = some e → table.sinkScope? e.name = some z →
    c.source.table.instScope i = some z

theorem Places.writes (h : c.Places table) {name : String} {z : Scope}
    (hz : table.sinkScope? name = some z) (x : Scope) :
    (c.script insts x).filter (Effect.writesTo name)
      = if z = x then (insts.filterMap c.effectOf).filter (Effect.writesTo name) else [] := by
  have hi : ∀ i, (if c.source.table.instScope i = some x then c.effectOf i else none).filter
      (Effect.writesTo name)
        = if z = x then (c.effectOf i).filter (Effect.writesTo name) else none := by
    intro i
    cases he : c.effectOf i with
    | none => simp
    | some e =>
      cases hw : e.writesTo name with
      | false => split <;> simp [Option.filter, hw]
      | true =>
        have hs := h i e z he (Effect.name_of_writesTo hw ▸ hz)
        simp only [hs, Option.some.injEq]
        split <;> rfl
  simp only [script, List.filter_filterMap, hi]
  split
  · rfl
  · exact List.filterMap_eq_nil_iff.mpr fun _ _ => rfl

theorem Places.calls (h : c.Places table) (x : Scope) :
    ((c.script insts x).filterMap Effect.call?).filter (fun k => (table.sinkScope? k.1).isSome)
      = ((insts.filterMap c.effectOf).filterMap Effect.call?).filter
          fun k => table.sinkScope? k.1 = some x := by
  simp only [script, List.filter_filterMap, List.filterMap_filterMap]
  refine List.filterMap_congr fun i _ => ?_
  cases he : c.effectOf i with
  | none => simp
  | some e =>
    cases e with
    | write y v => split <;> simp [Effect.call?]
    | call name args =>
      cases hz : table.sinkScope? name with
      | none => split <;> simp [Effect.call?, Option.filter, hz]
      | some z =>
        have hs := h i _ z he hz
        by_cases hzx : z = x <;> simp [Effect.call?, Option.filter, hz, hs, hzx]

end Scenario

/-- Some runs do for the sinks of a table what the run of a source does: the bindings end up as the
source leaves them in the scope of their sink, and as they were in all others, and the calls of sinks
are those of the source in the same order, each in the scope of its sink. -/
structure ScopeTable.Realizes (table : ScopeTable) (p : Program) (m : Memory α) (source : Run α)
    (runs : List (Run α)) : Prop where
  length : runs.length = table.size
  reached : ∀ name z, table.sinkScope? name = some z → z.val < runs.length
  memory : ∀ decl ∈ p.globals, ∀ z, table.sinkScope? decl.name = some z →
    ∀ (x : Scope) (r : Run α), runs[x.val]? = some r →
      r.memory decl.name = if z = x then source.memory decl.name else m decl.name
  calls : ∀ (x : Scope) (r : Run α), runs[x.val]? = some r →
    r.calls.filter (fun k => (table.sinkScope? k.1).isSome)
      = source.calls.filter fun k => table.sinkScope? k.1 = some x

theorem ScopeTable.sinkScope?_lt {table : ScopeTable} (h : table.validate = .ok ()) {name : String}
    {z : Scope} (hz : table.sinkScope? name = some z) : z.val < table.size := by
  obtain ⟨e, he, rfl⟩ := Option.map_eq_some_iff.mp hz
  obtain ⟨-, before, after, hs, -⟩ := sink?_eq_some he
  exact mentioned_lt h e.scope (by simp [mentioned, hs])

section Split

variable {p : Program} {types types' : TypePool} {f : Function} {table : ScopeTable}
  {strategy : Strategy} {out : SplitOutput} {m : Memory α}

namespace Splits

variable {tree : PostDominators} {state : Classifier.State} {sinks : List SinkResult}
  {transfers : List TransferLayout} {final : Emission}

theorem places (h : Splits p types f table strategy tree state sinks transfers final)
    (hf : ∀ e ∈ table.sinks, e.flags.isEmpty = false)
    (ho : ∀ e ∈ table.sinks, p.Unambiguous e.name) {c : Scenario α}
    (hc : c.source = ⟨p, f, state.table⟩) : c.Places table := by
  intro i effect z hef hz
  rw [Scenario.effectOf, hc] at hef
  obtain ⟨inst, hi, hef⟩ := Option.bind_eq_some_iff.mp hef
  obtain ⟨e, he, rfl⟩ := Option.map_eq_some_iff.mp hz
  obtain ⟨hn, before, after, hs, -⟩ := ScopeTable.sink?_eq_some he
  have hm : e ∈ table.sinks := by simp [hs]
  obtain ⟨site, hsi, rfl, -⟩ := @Classifier.exists_site (classifierOf p f strategy tree) e.name
    (ho e hm) _ _ hi (hn ▸ Machine.writeName?_of_effect? hef)
  have hfi := Classifier.sat_classifyTable_sink.of_run h.classified _ e he site (hn ▸ hsi)
  rw [hc]
  simp [Classification.instScope, hfi.inst_eq, ValueInfo.usedScope, ValueInfo.isUsed,
    hf e hm]

/-- There is one scenario that every part enacts when the parts run in turn. -/
theorem exists_enacts (h : Splits p types f table strategy tree state sinks transfers final)
    (M : Machine α) (hli : f.StraightLine types) (hpo : f.InPool types) (hg : types.Grounded)
    (hs : p.Separates f) (hsc : table.size ≤ Scope.limit) (hcl : final.Clean)
    (hre : (transfers.map TransferLayout.name).Nodup)
    (hf : ∀ decl ∈ p.globals, decl.name ∉ transfers.map TransferLayout.name)
    (hb : M.InBounds types p f m)
    (hm : ∀ l ∈ transfers, (m l.name).HasType final.types l.record) :
    ∃ c : Scenario α, c.source = ⟨p, f, state.table⟩ ∧ c.layouts = transfers ∧
      c.order.filterMap c.effectOf = M.effects types p f m ∧
      ∀ (x : Scope) (r : Run α), (M.runParts final.types (transfers.map TransferLayout.name) m m
        final.partitions)[x.val]? = some r → c.Enacts x m r := by
  have hi : ∀ inst ∈ f.insts, inst.ty < types.size := fun inst h => (hpo inst h).1
  obtain ⟨ht, ledger, hcom⟩ := Source.completes_of_emitTable α hg hi hli.ret
    hsc h.emitted hcl
  obtain ⟨hsi, -⟩ := (@Source.sat_emitTable_figures _ (fun _ => false) tree table types).of_run
    h.emitted fun _ _ => rfl
  obtain ⟨c, hc⟩ : ∃ c, c = M.scenario types final.types ⟨p, f, state.table⟩ ledger transfers m :=
    ⟨_, rfl⟩
  have hco : c.Consistent :=
    hc ▸ M.consistent_scenario hpo ht hli hg hs hb hf
  have hst : c.stock.Stocked := Scenario.stocked_stock hco.fresh (hc ▸ hre)
  have he : ∀ i, c.stock.effectOf i
      = M.effectOf types p f (M.run types p f m).values m i := fun i =>
    (Scenario.effectOf_stock hco.fresh i).trans (hc ▸ M.effectOf_scenario hpo ht i)
  have hp : ∀ name, name ∉ c.records → m name = c.stock.memory name := by
    intro name hn
    rw [Scenario.stock_memory hn, hc]
    rfl
  subst hc
  have hdo := hcom _ rfl rfl rfl rfl hco.stock hst
  refine ⟨_, rfl, rfl, List.filterMap_congr fun i _ => he i, fun x r hr => ?_⟩
  refine hdo.enacts_runParts hco.stock hst hs
    (fun n d hd => Source.functions_of_emitTable h.emitted hd) hp (hsi ▸ hsc)
    (fun j => by rw [Nat.zero_add]) ⟨fun l hl y hy => ?_, fun l _ hlt => ?_⟩ (Nat.zero_add _).symm hr
  · rw [hy.binding]
    exact (hdo.shaped l hl).has (hm l hl) hy
  · exact absurd hlt (Nat.not_lt_zero _)

end Splits

/-- The parts of a straight-line function, run in the order of their scopes and with nothing in
common but the records, do for the sinks what the function does. Operations and calls may compute
anything from their operands. The types of the function are in the pool, it does not read what it
stores, its indices are in bounds, the records have names of their own, and they hold at the start
anything of their types. -/
theorem split_preserves_run (M : Machine α) (hline : f.StraightLine types)
    (hpool : f.InPool types) (hgrounded : types.Grounded) (hseparates : p.Separates f)
    (hscopes : table.size ≤ Scope.limit)
    (hflags : ∀ e ∈ table.sinks, e.flags.isEmpty = false)
    (hone : ∀ e ∈ table.sinks, p.Unambiguous e.name)
    (hsplit : split p types f table strategy = .ok (out, types'))
    (hproblems : ∀ problem ∈ out.problems, ∃ name, problem = .sinkNotFound name)
    (hrecords : (out.transfers.map TransferLayout.name).Nodup)
    (hfresh : ∀ decl ∈ p.globals, decl.name ∉ out.transfers.map TransferLayout.name)
    (hbounds : M.InBounds types p f m)
    (hmemory : ∀ l ∈ out.transfers, (m l.name).HasType types' l.record) :
    table.Realizes p m (M.run types p f m)
      (M.runParts types' (out.transfers.map TransferLayout.name) m m out.partitions) := by
  obtain ⟨tree, state, sinks, transfers, final, hs, rfl, rfl⟩ := exists_splits_of_split_eq hsplit
  obtain ⟨c, hsource, rfl, heffects, henacts⟩ := hs.exists_enacts M hline hpool hgrounded
    hseparates hscopes (fun problem h => hproblems problem (List.mem_append_right _ h)) hrecords
    hfresh hbounds hmemory
  have hplaces := hs.places hflags hone hsource
  obtain ⟨hsourceMemory, hsourceCalls⟩ := M.run_eq_effects (m := m) hline hseparates
  obtain ⟨hsize, -⟩ := (@Source.sat_emitTable_figures _ (fun _ => false) tree table types).of_run
    hs.emitted fun _ _ => rfl
  have hlength : (M.runParts final.types c.records m m final.partitions).length = table.size := by
    rw [M.length_runParts, Emission.partitions, List.length_map, Array.length_toList, hsize]
    rfl
  refine ⟨hlength, fun name z hz => ?_, fun decl hdecl z hz x r hr => ?_, fun x r hr => ?_⟩
  · exact Nat.lt_of_lt_of_eq (ScopeTable.sinkScope?_lt hs.valid hz) hlength.symm
  · rw [(henacts x r hr).memory _ (hfresh decl hdecl), Effect.foldl_on_filter _ rfl,
      hplaces.writes hz, heffects, hsourceMemory]
    split
    · exact (Effect.foldl_on_filter _ rfl).symm
    · rfl
  · rw [(henacts x r hr).calls, hplaces.calls, heffects, hsourceCalls]

end Split

/-- A splat and a step that is picked at run time cross to later stages, where they are written and
passed to a call. -/
def pickedSteps : Function where
  name := "main"
  entry := 0
  blocks := #[⟨[0, 1, 2, 3, 4, 5, 6, 7, 8], some .ret⟩]
  insts := #[⟨.load (.member 0 []), .float, 0⟩,
    ⟨.insert (.const ⟨4, .zero⟩) (.inst 0) (.const (.int .int 0)), 4, 0⟩,
    ⟨.shuffle (.inst 1) (.const ⟨4, .undef⟩) [0, 0], 4, 0⟩, ⟨.load (.member 2 []), .int, 0⟩,
    ⟨.load (.element 1 [.dynamic (.inst 3)]), .float, 0⟩,
    ⟨.binary .add (.inst 0) (.inst 4), .float, 0⟩, ⟨.store (.inst 5) (.member 3 []), .void, 0⟩,
    ⟨.store (.inst 2) (.member 4 []), .void, 0⟩, ⟨.call (.direct 0) [.inst 4], .void, 0⟩]
  layout := [0]

def pickedProgram : Program :=
  ⟨"picked", [.plain "in" .float, .plain "steps" 5, .plain "pick" .int, .plain "near" .float,
    .plain "wide" 4], [⟨"emit", [.float], .void⟩], [pickedSteps]⟩

def pickedTypes : TypePool :=
  ((TypePool.empty.intern (.vector .float 2)).2.intern (.array .float 3)).2

def pickedTable : ScopeTable where
  scopes := ["early", "middle", "late"]
  roots := [⟨"in", .ofNat 0, .ofNat 1⟩, ⟨"steps", .ofNat 0, .ofNat 1⟩, ⟨"pick", .ofNat 1, .ofNat 1⟩]
  sinks := [⟨"near", .ofNat 1, .ofNat 1⟩, ⟨"wide", .ofNat 2, .ofNat 1⟩, ⟨"emit", .ofNat 2, .ofNat 1⟩]
  transfers := [⟨.ofNat 0, .ofNat 1, "first", false⟩]

def addingMachine : Machine Int where
  literal _ k := match k with
    | .int n => .scalar n
    | _ => .scalar 0
  binary _ _ a b := match a, b with
    | .scalar x, .scalar y => .scalar (x + y)
    | _, _ => .blank
  unary _ _ _ := .blank
  cast _ _ _ := .blank
  compare _ _ _ _ := .blank
  select _ _ _ _ := .blank
  call _ _ _ := .blank
  indirect _ _ _ := .blank
  index d := match d with
    | .scalar n => n.toNat
    | _ => 0
  index_int n := Int.toNat_natCast n

def pickedMemory : Memory Int
  | "in" => .scalar 5
  | "steps" => .node [.scalar 10, .scalar 20, .scalar 30]
  | "pick" => .scalar 2
  | "first" => .node [.blank, .node [.blank, .blank, .blank]]
  | _ => .node [.blank]

theorem split_preserves_run_pickedSteps : ∃ out types',
    split pickedProgram pickedTypes pickedSteps pickedTable .plain = .ok (out, types') ∧
    out.transfers.map TransferLayout.name = ["first", "early_to_late", "middle_to_late"] ∧
    (addingMachine.run pickedTypes pickedProgram pickedSteps pickedMemory).memory "near"
      = .scalar 35 ∧
    (addingMachine.run pickedTypes pickedProgram pickedSteps pickedMemory).calls
      = [("emit", [.scalar 30])] ∧
    pickedTable.Realizes pickedProgram pickedMemory
      (addingMachine.run pickedTypes pickedProgram pickedSteps pickedMemory)
      (addingMachine.runParts types' (out.transfers.map TransferLayout.name) pickedMemory
        pickedMemory out.partitions) := by
  have hcheck : (split pickedProgram pickedTypes pickedSteps pickedTable .plain).toOption.any
      (fun answer => answer.1.problems.isEmpty &&
        answer.1.transfers.map TransferLayout.name == ["first", "early_to_late", "middle_to_late"] &&
        answer.1.transfers.all fun l => (pickedMemory l.name).fits answer.2 3 l.record) = true := by
    decide +kernel
  obtain ⟨answer, hsplit, hcheck⟩ := exists_ok_of_any hcheck
  simp only [Bool.and_eq_true, beq_iff_eq, List.all_eq_true, List.isEmpty_iff] at hcheck
  obtain ⟨⟨hproblems, hnames⟩, hfits⟩ := hcheck
  refine ⟨answer.1, answer.2, hsplit, hnames, rfl, rfl, ?_⟩
  refine split_preserves_run addingMachine (by decide +kernel) (by decide +kernel)
    (by decide +kernel) (by decide +kernel) (by decide) (by decide) (by decide +kernel) hsplit
    (by simp [hproblems]) (by rw [hnames]; decide) (by rw [hnames]; decide +kernel)
    (by decide +kernel) fun l hl => ?_
  exact Datum.hasType_of_fits (hfits l hl)

def Datum.scalar? : Datum α → Option α
  | .scalar a => some a
  | _ => none

def crossingMemory : Memory Int
  | "maps" => .node [.scalar 1, .scalar 2]
  | "pick" => .scalar 0
  | "odd" => .scalar 7
  | "handles" => .node [.node [.blank, .blank]]
  | _ => .blank

/-- The pool has not given out the type of a value that crosses. All else is as it should be, but the
value is in no record, and the part that stores it finds nothing to read. -/
theorem run_not_preserved_crossing : ∃ out types',
    split (crossingProgram 6) crossingTypes (crossing 6) crossingTable .plain = .ok (out, types') ∧
    out.problems = [] ∧ (crossing 6).StraightLine crossingTypes ∧ crossingTypes.Grounded ∧
    (crossingProgram 6).Separates (crossing 6) ∧ crossingTable.size ≤ Scope.limit ∧
    (∀ e ∈ crossingTable.sinks, e.flags.isEmpty = false) ∧
    (∀ e ∈ crossingTable.sinks, (crossingProgram 6).Unambiguous e.name) ∧
    (out.transfers.map TransferLayout.name).Nodup ∧
    (∀ decl ∈ (crossingProgram 6).globals, decl.name ∉ out.transfers.map TransferLayout.name) ∧
    addingMachine.InBounds crossingTypes (crossingProgram 6) (crossing 6) crossingMemory ∧
    (∀ l ∈ out.transfers, (crossingMemory l.name).HasType types' l.record) ∧
    (addingMachine.run crossingTypes (crossingProgram 6) (crossing 6) crossingMemory).memory "out"
      = .scalar 7 ∧
    ¬crossingTable.Realizes (crossingProgram 6) crossingMemory
      (addingMachine.run crossingTypes (crossingProgram 6) (crossing 6) crossingMemory)
      (addingMachine.runParts types' (out.transfers.map TransferLayout.name) crossingMemory
        crossingMemory out.partitions) := by
  have hcheck : (split (crossingProgram 6) crossingTypes (crossing 6) crossingTable
      .plain).toOption.any (fun answer => answer.1.problems.isEmpty &&
        answer.1.transfers.map TransferLayout.name == ["handles"] &&
        (answer.1.transfers.all fun l => (crossingMemory l.name).fits answer.2 3 l.record) &&
        (addingMachine.runParts answer.2 (answer.1.transfers.map TransferLayout.name) crossingMemory
          crossingMemory answer.1.partitions)[1]?.any fun r => (r.memory "out").scalar?.isNone) = true := by
    decide +kernel
  obtain ⟨answer, hsplit, hcheck⟩ := exists_ok_of_any hcheck
  simp only [Bool.and_eq_true, beq_iff_eq, List.all_eq_true, List.isEmpty_iff,
    Option.any_eq_true] at hcheck
  obtain ⟨⟨⟨hproblems, hnames⟩, hfits⟩, r, hr, hnone⟩ := hcheck
  refine ⟨answer.1, answer.2, hsplit, hproblems, by decide +kernel, by decide +kernel,
    by decide +kernel, by decide, by decide, by decide +kernel, by rw [hnames]; decide,
    by rw [hnames]; decide +kernel, by decide +kernel,
    fun l hl => Datum.hasType_of_fits (hfits l hl), rfl, fun h => ?_⟩
  have hout := h.memory (.plain "out" 6) (by decide) (.ofNat 1) (by decide) (.ofNat 1) r hr
  rw [show r.memory "out" = .scalar 7 from hout] at hnone
  cases hnone

end Stagewise
