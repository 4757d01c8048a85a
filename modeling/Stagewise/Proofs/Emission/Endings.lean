import Stagewise.Proofs.Emission.Phis
import Stagewise.Proofs.Success

namespace Stagewise

namespace Source

/-- On a walk of each arm once, the part of a scope goes on at most once from each block where the
arms of a branch that it keeps come together. -/
def RejoinsOnce (src : Source) (scope : Scope) : Prop :=
  ∃ tree, PostDominators.ofFunction src.func = .ok tree ∧
    ((Route.itinerary ⟨src.func, tree⟩).rejoined (src.plan scope).wants).Nodup

instance (src : Source) (scope : Scope) : Decidable (src.RejoinsOnce scope) :=
  inferInstanceAs (Decidable (∃ tree, PostDominators.ofFunction src.func = .ok tree ∧
    ((Route.itinerary ⟨src.func, tree⟩).rejoined (src.plan scope).wants).Nodup))

theorem clashes_sketch {src : Source} {tree : PostDominators} {strategy : Strategy} {scope : Scope}
    (hs : src.func.Ssa src.program) (hr : (Route.mk src.func tree).LoopFree)
    (hgu : (classifierOf src.program src.func strategy tree).Guarding src.table [])
    (hn : ((Route.itinerary ⟨src.func, tree⟩).rejoined (src.plan scope).wants).Nodup) (n : Nat) :
    (src.sketch tree n scope).clashes = 0 := by
  unfold Source.sketch
  split
  · next hin =>
    have hg := @Source.guarded_plan src tree strategy scope (fun _ => True) hgu
      (ScopeSet.lt_of_contains hin) fun _ _ _ => trivial
    have ho := Route.orderly_itinerary hr hs.entry_lt hg (.inl fun _ => trivial)
    have hu := Route.unfolds_itinerary hr hs.entry_lt
    obtain ⟨-, hou⟩ :=
      Sketch.drawn_draw hu true ho hn (by simp) Sketch.apt_empty none
    exact hou.frame.clashes
  · rfl

end Source

variable {p : Program} {types : TypePool} {f : Function} {table : ScopeTable}

/-- Splitting a loop-free function ends no block of a part twice, if the part goes on from no block
twice where the arms of a branch come together. A table may name 32 scopes at most. -/
theorem clashes_eq_zero (hssa : f.Ssa p) (hloopFree : f.LoopFree) (hterminated : f.Terminated)
    (hlimit : table.size ≤ Scope.limit) (hvalid : table.validate = .ok ()) :
    ∃ out types' tree layouts final, split p types f table .plain = .ok (out, types') ∧
      PostDominators.ofFunction f = .ok tree ∧
      (Source.emitTable ⟨p, f, out.classification⟩ tree table).run
        (Emission.start ⟨p, f, out.classification⟩ types table.scopes) = (.ok layouts, final) ∧
      final.drafts.size = table.size ∧
      ∀ (scope : Scope) (d : Draft), final.drafts[scope.val]? = some d →
        Source.RejoinsOnce ⟨p, f, out.classification⟩ scope → d.builder.clashes = 0 := by
  obtain ⟨⟨out, types'⟩, hsplit⟩ : ∃ answer, split p types f table .plain = .ok answer :=
    split_eq_ok hssa hlimit hvalid
  obtain ⟨tree, state, sinks, transfers, final, hs, rfl, rfl⟩ := exists_splits_of_split_eq hsplit
  obtain ⟨hsize, hscopes, -⟩ := (@Source.sat_emitTable_figures ⟨p, f, state.table⟩ (fun _ => false)
    tree table types).of_run hs.emitted fun _ _ => rfl
  refine ⟨_, _, tree, transfers, final, hsplit, hs.tree_eq, hs.emitted, hsize,
    fun scope d hd honce => ?_⟩
  obtain ⟨tree', htree, hnodup⟩ := honce
  obtain rfl := Except.ok.inj (htree.symm.trans hs.tree_eq)
  rw [(hscopes scope d hd).clashes]
  exact @Source.clashes_sketch ⟨p, f, state.table⟩ tree' .plain scope hssa
    (hs.loopFree hssa hloopFree hterminated) (hs.guarding hssa) hnodup table.scopes.length

/-- A block of `shortCircuit` is entered from two arms, and all arms come together at its end. -/
theorem clashes_shortCircuit :
    ¬shortCircuit.EntersOnce ∧ ∃ out types' tree layouts final,
      split shortCircuitSource.program .empty shortCircuit shortCircuitTable .plain
        = .ok (out, types') ∧
      (Source.emitTable ⟨shortCircuitSource.program, shortCircuit, out.classification⟩ tree
        shortCircuitTable).run (Emission.start ⟨shortCircuitSource.program, shortCircuit,
          out.classification⟩ .empty ["only"]) = (.ok layouts, final) ∧
      ∃ d, final.drafts[0]? = some d ∧ d.builder.clashes = 0 := by
  refine ⟨by decide +kernel, ?_⟩
  obtain ⟨out, types', tree, layouts, final, hsplit, -, hrun, hsize, hclashes⟩ :=
    @clashes_eq_zero shortCircuitSource.program .empty shortCircuit shortCircuitTable
      (Function.ssa_of_test (by decide)) (Function.loopFree_of_forward (by decide)) (by decide)
      (by decide) (by decide)
  have honce : (split shortCircuitSource.program .empty shortCircuit shortCircuitTable
      .plain).toOption.all (fun answer => decide (Source.RejoinsOnce
        ⟨shortCircuitSource.program, shortCircuit, answer.1.classification⟩ 0)) = true := by
    decide +kernel
  rw [hsplit] at honce
  obtain ⟨d, hd⟩ : ∃ d, final.drafts[0]? = some d :=
    ⟨_, Array.getElem?_eq_getElem (hsize ▸ Nat.one_pos)⟩
  refine ⟨out, types', tree, layouts, final, hsplit, hrun, d, hd, hclashes 0 d hd ?_⟩
  simpa [Except.toOption] using honce

/-- A choice whose first block is reached from two branches, and which goes on with another choice. -/
def sharedChoice : Function where
  name := "main"
  entry := 0
  blocks := #[⟨[0], some (.branch (.inst 0) 2 1)⟩, ⟨[], some (.branch (.inst 0) 2 6)⟩,
    ⟨[], some (.branch (.inst 0) 3 4)⟩, ⟨[1], some (.jump 4)⟩, ⟨[], some (.branch (.inst 0) 5 6)⟩,
    ⟨[2], some (.jump 6)⟩, ⟨[], some .ret⟩]
  insts := #[⟨.load (.member 0 []), .bool, 0⟩, ⟨.store (.inst 0) (.member 1 []), .void, 3⟩,
    ⟨.store (.inst 0) (.member 1 []), .void, 5⟩]
  layout := [0, 1, 2, 3, 4, 5, 6]

def sharedProgram : Program :=
  ⟨"shared", [.plain "a" .bool, .plain "out" .bool], [], [sharedChoice]⟩

def sharedTable : ScopeTable where
  scopes := ["only"]
  roots := [⟨"a", .ofNat 0, .ofNat 1⟩]
  sinks := [⟨"out", .ofNat 0, .ofNat 1⟩]
  transfers := []

/-- The first choice of `sharedChoice` is copied twice, but the block after it is made once, so the
second choice ends that block twice. -/
theorem endedTwice_sharedChoice :
    (sharedChoice.Ssa sharedProgram ∧ sharedChoice.LoopFree ∧ sharedChoice.Terminated ∧
      sharedTable.size ≤ Scope.limit ∧ sharedTable.validate = .ok ()) ∧
    ∃ out types' tree layouts final,
      split sharedProgram .empty sharedChoice sharedTable .plain = .ok (out, types') ∧
      PostDominators.ofFunction sharedChoice = .ok tree ∧
      (Source.emitTable ⟨sharedProgram, sharedChoice, out.classification⟩ tree sharedTable).run
        (Emission.start ⟨sharedProgram, sharedChoice, out.classification⟩ .empty sharedTable.scopes)
          = (.ok layouts, final) ∧
      ∃ d ∈ final.drafts, 0 < d.builder.clashes := by
  refine ⟨⟨Function.ssa_of_test (by decide), Function.loopFree_of_forward (by decide), by decide,
    by decide, by decide⟩, ?_⟩
  have hclash : (split sharedProgram .empty sharedChoice sharedTable .plain).toOption.any
      (fun answer => (PostDominators.ofFunction sharedChoice).toOption.any fun tree =>
        ((Source.emitTable ⟨sharedProgram, sharedChoice, answer.1.classification⟩ tree
          sharedTable).run (Emission.start ⟨sharedProgram, sharedChoice, answer.1.classification⟩
            .empty sharedTable.scopes)).2.drafts.any fun d => decide (0 < d.builder.clashes)) = true := by
    decide +kernel
  obtain ⟨⟨out, types'⟩, hsplit, hclash⟩ := exists_ok_of_any hclash
  obtain ⟨tree, state, sinks, transfers, final, hs, rfl, rfl⟩ := exists_splits_of_split_eq hsplit
  simp only [hs.tree_eq, Except.toOption, Option.any_some, hs.emitted] at hclash
  refine ⟨_, _, tree, transfers, final, hsplit, hs.tree_eq, hs.emitted, ?_⟩
  obtain ⟨i, hi, hclash⟩ : ∃ i, ∃ h : i < final.drafts.size,
    0 < final.drafts[i].builder.clashes := by simpa using hclash
  exact ⟨_, Array.getElem_mem hi, hclash⟩

end Stagewise
