import Stagewise.Proofs.Emission.Guarding
import Stagewise.Proofs.Sketch.Phis
import Stagewise.Proofs.Ssa.Check

namespace Stagewise

namespace Function

/-- The phi at the head of a block lists the blocks that lead to it, each once. -/
def PhiMatches (f : Function) (b : BlockId) (incoming : List (BlockId × Value)) : Prop :=
  (incoming.map Prod.fst).Nodup ∧ ∀ c, c ∈ incoming.map Prod.fst ↔ b ∈ f.successors c

def PhisMatch (f : Function) : Prop :=
  ∀ b, ∀ i ∈ f.instsOf b, ∀ incoming, f.insts[i]?.map Inst.op = some (.phi incoming) →
    f.PhiMatches b incoming

def PhisLead (f : Function) : Prop := ∀ b, ∀ i ∈ f.instsOf b, f.isPhi i = true → i ∈ f.phis b

def Connected (f : Function) : Prop := ∀ b < f.numBlocks, f.Reaches f.entry b

variable {f : Function}

theorem phiMatches_iff {b : BlockId} {incoming : List (BlockId × Value)} :
    f.PhiMatches b incoming ↔ (incoming.map Prod.fst).Nodup ∧
      (∀ c ∈ incoming.map Prod.fst, b ∈ f.successors c) ∧
      ∀ c < f.numBlocks, b ∈ f.successors c → c ∈ incoming.map Prod.fst :=
  ⟨fun h => ⟨h.1, fun c => (h.2 c).mp, fun c _ => (h.2 c).mpr⟩,
    fun h => ⟨h.1, fun c => ⟨h.2.1 c, fun hs => h.2.2 c (mem_successors_lt hs) hs⟩⟩⟩

instance (f : Function) (b : BlockId) (incoming : List (BlockId × Value)) :
    Decidable (f.PhiMatches b incoming) := decidable_of_iff _ phiMatches_iff.symm

/-- Whether an instruction of a block lists the blocks that lead there, if it is a phi. -/
def testPhi (f : Function) (b : BlockId) (i : InstId) : Bool :=
  match f.insts[i]?.map Inst.op with
  | some (.phi incoming) => decide (f.PhiMatches b incoming)
  | _ => true

theorem phisMatch_iff : f.PhisMatch ↔
    ∀ b < f.numBlocks, ∀ i ∈ f.instsOf b, f.testPhi b i = true := by
  have ht : ∀ b i, f.testPhi b i = true ↔ ∀ incoming,
      f.insts[i]?.map Inst.op = some (.phi incoming) → f.PhiMatches b incoming := by
    intro b i
    unfold testPhi
    cases f.insts[i]?.map Inst.op with
    | none => simp
    | some op => cases op <;> simp
  simp only [PhisMatch, ht]
  exact ⟨fun h b _ => h b, fun h b i hi => h b (lt_of_mem_instsOf hi) i hi⟩

instance (f : Function) : Decidable f.PhisMatch := decidable_of_iff _ phisMatch_iff.symm

theorem phisLead_iff : f.PhisLead ↔
    ∀ b < f.numBlocks, ∀ i ∈ f.instsOf b, f.isPhi i = true → i ∈ f.phis b :=
  ⟨fun h b _ => h b, fun h b i hi => h b (lt_of_mem_instsOf hi) i hi⟩

instance (f : Function) : Decidable f.PhisLead := decidable_of_iff _ phisLead_iff.symm

theorem connected_of_forward
    (h : ∀ b < f.numBlocks, b = f.entry ∨ ∃ q < b, b ∈ f.successors q) : f.Connected := by
  intro b
  induction b using Nat.strong_induction_on with
  | _ b ih =>
    intro hb
    rcases h b hb with rfl | ⟨q, hq, hs⟩
    · exact .refl
    · exact (ih q hq (mem_successors_lt hs)).tail hs

end Function

namespace Source

variable {src : Source} {scope : Scope}

theorem exists_phi_of_mark? {exits : BlockId → Option BlockId} {pred : Option BlockId} {i : InstId}
    {blocks : List BlockId} (h : src.mark? scope exits pred i = some (.phi blocks)) :
    pred = none ∧ src.table.instScope i = some scope ∧ ∃ inst incoming,
      src.func.insts[i]? = some inst ∧ inst.op = .phi incoming ∧
      blocks = (incoming.map Prod.fst).filterMap exits := by
  unfold mark? at h
  split at h
  · next hs =>
    obtain ⟨inst, hi, hm⟩ := Option.bind_eq_some_iff.mp h
    obtain ⟨op, ty, block⟩ := inst
    cases op with
    | phi incoming =>
      cases pred with
      | none =>
        have hb : incoming.filterMap (fun e => exits e.1) = blocks := by
          simpa [Operation.mark?] using hm
        refine ⟨rfl, hs, _, incoming, hi, rfl, ?_⟩
        rw [List.filterMap_map, ← hb]
        rfl
      | some p => simp [Operation.mark?] at hm
    | store v addr => cases addr <;> simp [Operation.mark?, Operation.isWrite] at hm
    | call callee args => cases callee <;> simp [Operation.mark?, Operation.isWrite] at hm
    | _ => simp [Operation.mark?, Operation.isWrite] at hm
  · cases h

theorem phis_plan (hma : src.func.PhisMatch) (hl : src.func.PhisLead)
    (hs : scope.val < Scope.limit) : (src.plan scope).Phis src.func := by
  have hme : ∀ {exits pred b blocks}, .phi blocks ∈ (src.plan scope).marks exits pred b →
      ∃ i ∈ src.func.instsOf b, src.mark? scope exits pred i = some (.phi blocks) := by
    intro exits pred b blocks h
    exact List.mem_filterMap.mp h
  refine ⟨fun exits p b blocks h => ?_, fun exits b blocks h site hsi => ?_,
    fun exits b blocks h => ?_⟩
  · obtain ⟨i, -, hm⟩ := hme h
    cases (exists_phi_of_mark? hm).1
  · obtain ⟨i, hi, hm⟩ := hme h
    obtain ⟨-, hin, inst, incoming, hins, hop, -⟩ := exists_phi_of_mark? hm
    have hph : src.func.isPhi i = true := by simp [Function.isPhi, hins, hop, Operation.isPhi]
    exact (src.contains_wantedScopes site hs).mpr (.inr ⟨b, hsi, i, hl b i hi hph, hin⟩)
  · obtain ⟨i, hi, hm⟩ := hme h
    obtain ⟨-, -, inst, incoming, hins, hop, rfl⟩ := exists_phi_of_mark? hm
    obtain ⟨hn, hp⟩ := hma b i hi incoming (by rw [hins, Option.map_some, hop])
    exact ⟨incoming.map Prod.fst, hn, hp, rfl⟩

end Source

namespace Draft

variable {src : Source} {loud : String → Bool} {d : Draft} {k : Sketch}

theorem Figures.successors (h : d.Figures src loud k) (b : BlockId) :
    d.builder.finish.successors b = (k.ends b).elim [] Exit.targets := by
  have he := h.ends b
  by_cases hb : b < d.builder.func.numBlocks
  · have hc : d.builder.finish.terminator? b
        = some ((d.builder.func.terminator? b).getD .ret) := Function.close_terminator? hb
    rw [Function.successors, hc]
    generalize d.builder.func.terminator? b = term at he
    generalize k.ends b = e at he
    cases he <;> rfl
  · have hn : d.builder.func.terminator? b = none := by
      simp [Function.terminator?, Array.getElem?_eq_none (Nat.le_of_not_lt hb)]
    have hc : d.builder.finish.terminator? b = none := by
      have hs : d.builder.finish.numBlocks ≤ b := by
        have := d.builder.func.close_numBlocks
        exact this ▸ Nat.le_of_not_lt hb
      simp [Function.terminator?, Array.getElem?_eq_none hs]
    rw [hn] at he
    rw [Function.successors, hc]
    generalize k.ends b = e at he
    cases he
    rfl

theorem Figures.phisMatch (h : d.Figures src loud k) (hf : k.Fit) :
    d.builder.finish.PhisMatch := by
  intro b i hi incoming hp
  obtain ⟨inst, hin, hop⟩ := Option.map_eq_some_iff.mp hp
  have hin' : d.builder.func.insts[i]? = some inst := hin
  have hme : i ∈ d.builder.func.selected (d.program.shows loud) b := by
    refine List.mem_filter.mpr ⟨?_, by simp [hin', Program.shows, hop, Operation.isPhi]⟩
    rwa [← Function.close_instsOf]
  obtain ⟨m, hm, hma⟩ : ∃ m ∈ (k.marks b).filter (src.keeps loud), d.Marks src i m := by
    obtain ⟨n, rfl⟩ := List.mem_iff_get.mp hme
    obtain ⟨hle, hg⟩ := List.forall₂_iff_get.mp (h.marks b)
    exact ⟨_, List.get_mem _ ⟨n, hle ▸ n.isLt⟩, hg n n.isLt (hle ▸ n.isLt)⟩
  have hl := (List.mem_filter.mp hm).1
  cases hma with
  | @phi inst' incoming' hi' hop' =>
    obtain rfl := Option.mem_unique hin' hi'
    obtain rfl : incoming = incoming' := Operation.phi.inj (hop.symm.trans hop')
    obtain ⟨hn, hb⟩ := hf b _ hl
    refine ⟨hn, fun c => (hb c).trans ?_⟩
    rw [h.successors, Sketch.Edge]
    cases k.ends c with
    | none => simp
    | some e => simp
  | @write _ inst' _ _ hi' _ hw _ _ _ =>
    obtain rfl := Option.mem_unique hin' hi'
    rw [hop] at hw
    cases hw

end Draft

section Split

variable {p : Program} {types types' : TypePool} {f : Function} {table : ScopeTable}
  {out : SplitOutput} {it : Itinerary} {r : Route}

theorem Route.Unfolds.mem_entered (h : r.Unfolds r.func.entry none it) {b : BlockId}
    (hb : r.func.Reaches r.func.entry b) : b ∈ it.entered := by
  induction hb with
  | refl => exact h.head_mem (by simp)
  | tail _ hs ih => exact (h.successors_mem ih hs).resolve_right (by simp)

theorem Route.secluded_itinerary (h : r.Unfolds r.func.entry none it) (hc : r.func.Connected) :
    r.Secluded r.func.entry it := by
  intro q hq w _ hs
  exact absurd (h.mem_entered (hc q (Function.mem_successors_lt hs))) hq

theorem Function.LoopFree.entry_not_mem (hf : f.LoopFree) (hc : f.Connected) (q : BlockId) :
    f.entry ∉ f.successors q :=
  fun hs => hf f.entry (.tail' (hc q (Function.mem_successors_lt hs)) hs)

theorem Source.fit_sketch {src : Source} {tree : PostDominators} {strategy : Strategy}
    (hss : src.func.Ssa src.program) (hr : (Route.mk src.func tree).LoopFree)
    (hgu : (classifierOf src.program src.func strategy tree).Guarding src.table [])
    (hn : (Route.itinerary ⟨src.func, tree⟩).entered.Nodup) (hc : src.func.Connected)
    (hm : src.func.PhisMatch) (hl : src.func.PhisLead) (n : Nat) (scope : Scope) :
    (src.sketch tree n scope).Fit := by
  have hu := Route.unfolds_itinerary hr hss.entry_lt
  have hse := Route.secluded_itinerary hu hc
  unfold Source.sketch
  split
  · next hin =>
    have hs := ScopeSet.lt_of_contains hin
    have hg := Source.guarded_plan hgu hs fun _ _ _ => trivial
    have ho := Route.orderly_itinerary hr hss.entry_lt hg (.inr hn)
    exact Sketch.fit_draw hr hu ho hn (phis_plan hm hl hs) hse
      (hr.loopFree.entry_not_mem hc)
  · exact fun b blocks hme => absurd hme List.not_mem_nil

/-- The phis of the parts of a loop-free function list the blocks that lead to their own, if a walk
of each arm once enters no block of the function twice. -/
theorem phisMatch_split (hssa : f.Ssa p) (hloopFree : f.LoopFree) (hterminated : f.Terminated)
    (hconnected : f.Connected) (hmatch : f.PhisMatch) (hlead : f.PhisLead) (honce : f.EntersOnce)
    (hsplit : split p types f table .plain = .ok (out, types')) :
    ∀ part ∈ out.partitions, ∀ g ∈ part.program.functions, g.PhisMatch := by
  obtain ⟨tree, state, sinks, transfers, final, hs, rfl, rfl⟩ := exists_splits_of_split_eq hsplit
  have hr := hs.loopFree hssa hloopFree hterminated
  have hfit := @Source.fit_sketch ⟨p, f, state.table⟩ tree .plain hssa hr (hs.guarding hssa)
    (hs.nodup_entered honce) hconnected hmatch hlead table.scopes.length
  obtain ⟨-, hscopes, hothers⟩ := (@Source.sat_emitTable_figures ⟨p, f, state.table⟩ (fun _ => false)
    tree table types).of_run hs.emitted fun _ _ => rfl
  intro part hpart g hg
  obtain ⟨d, hd, rfl⟩ := List.mem_map.mp hpart
  obtain ⟨n, hn⟩ := List.mem_iff_getElem?.mp hd
  have hn' : final.drafts[n]? = some d := by simpa using hn
  obtain ⟨k, hfigures, hk⟩ : ∃ k, d.Figures ⟨p, f, state.table⟩ (fun _ => false) k ∧ k.Fit := by
    by_cases hlt : n < 256
    · exact ⟨_, hscopes ⟨n, hlt⟩ d hn', hfit ⟨n, hlt⟩⟩
    · refine ⟨_, hothers n d (Nat.le_of_not_lt hlt) hn', ?_⟩
      exact fun b blocks hmem => absurd hmem List.not_mem_nil
  obtain rfl : g = d.builder.finish := by
    simpa [Draft.finish, Program.addFunction, hfigures.functions] using hg
  exact hfigures.phisMatch hk

end Split

def nestedChoice : Function where
  name := "main"
  entry := 0
  blocks := #[⟨[0], some (.branch (.inst 0) 1 2)⟩, ⟨[1], some (.branch (.inst 1) 3 4)⟩,
    ⟨[], some (.jump 5)⟩, ⟨[], some (.jump 5)⟩, ⟨[], some (.jump 5)⟩, ⟨[2, 3], some .ret⟩]
  insts := #[⟨.load (.member 0 []), .bool, 0⟩, ⟨.load (.member 1 []), .bool, 1⟩,
    ⟨.phi [(2, .const ⟨.bool, .bool true⟩), (3, .inst 1), (4, .const ⟨.bool, .bool false⟩)],
      .bool, 5⟩,
    ⟨.store (.inst 2) (.member 2 []), .void, 5⟩]
  layout := [0, 1, 2, 3, 4, 5]

def nestedChoiceProgram : Program :=
  ⟨"choice", [.plain "a" .bool, .plain "b" .bool, .plain "out" .bool], [], [nestedChoice]⟩

def nestedChoiceTable : ScopeTable where
  scopes := ["early", "late"]
  roots := [⟨"a", .ofNat 0, .ofNat 1⟩, ⟨"b", .ofNat 1, .ofNat 1⟩]
  sinks := [⟨"out", .ofNat 1, .ofNat 1⟩]
  transfers := []

theorem phisMatch_nestedChoice :
    ∃ out types', split nestedChoiceProgram .empty nestedChoice nestedChoiceTable .plain
        = .ok (out, types') ∧
      ∀ part ∈ out.partitions, ∀ g ∈ part.program.functions, g.PhisMatch := by
  have hok : (split nestedChoiceProgram .empty nestedChoice nestedChoiceTable .plain).isOk = true := by
    decide +kernel
  obtain ⟨answer, hsplit⟩ := exists_ok_of_isOk hok
  refine ⟨answer.1, answer.2, hsplit, ?_⟩
  exact phisMatch_split (Function.ssa_of_test (by decide))
    (Function.loopFree_of_forward (by decide)) (by decide)
    (Function.connected_of_forward (by decide)) (by decide) (by decide) (by decide +kernel) hsplit

def shortCircuitTable : ScopeTable where
  scopes := ["only"]
  roots := [⟨"a", .ofNat 0, .ofNat 1⟩, ⟨"b", .ofNat 0, .ofNat 1⟩, ⟨"c", .ofNat 0, .ofNat 1⟩]
  sinks := [⟨"out", .ofNat 0, .ofNat 1⟩]
  transfers := []

/-- Both branches of `shortCircuit` lead to one block, which is copied for each of them. The phi at
the end knows only the later copy. -/
theorem phiMissing_shortCircuit :
    (shortCircuit.Ssa shortCircuitSource.program ∧ shortCircuit.LoopFree ∧
      shortCircuit.Terminated ∧ shortCircuit.Connected ∧ shortCircuit.PhisMatch ∧
      shortCircuit.PhisLead ∧ shortCircuitTable.validate = .ok ()) ∧
    ∃ out types', split shortCircuitSource.program .empty shortCircuit shortCircuitTable .plain
        = .ok (out, types') ∧
      ∃ part ∈ out.partitions, ∃ g ∈ part.program.functions, ¬g.PhisMatch := by
  refine ⟨⟨Function.ssa_of_test (by decide), Function.loopFree_of_forward (by decide), by decide,
    Function.connected_of_forward (by decide), by decide, by decide, by decide⟩, ?_⟩
  have hfails : (split shortCircuitSource.program .empty shortCircuit shortCircuitTable
      .plain).toOption.any (fun answer => answer.1.partitions.any fun part =>
        part.program.functions.any fun g => !decide g.PhisMatch) = true := by decide +kernel
  obtain ⟨answer, hsplit, hfails⟩ := exists_ok_of_any hfails
  refine ⟨answer.1, answer.2, hsplit, ?_⟩
  simpa using hfails

end Stagewise
