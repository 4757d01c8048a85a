import Stagewise.Proofs.Act
import Stagewise.Split

namespace Stagewise

def classifierOf (p : Program) (f : Function) (strategy : Strategy) (tree : PostDominators) :
    Classifier :=
  ⟨p, f, strategy, tree, f.controlParents tree⟩

variable {f : Function} {tree : PostDominators} {strategy : Strategy} {p : Program}

theorem Function.getElem?_controlParents {b : BlockId}
    (hb : b < f.numBlocks) : (f.controlParents tree)[b]? =
      some (f.blockIds.filter fun q => (f.decidedBy tree q).contains b) := by
  have hbl : f.blockIds[b]? = some b := by simp [blockIds, hb]
  simp only [controlParents, List.getElem?_toArray, List.getElem?_map, hbl, Option.map_some,
    List.filter_map, List.map_map]
  congr 1
  exact List.map_id _

theorem Classifier.mem_parents {b q : BlockId} :
    q ∈ (classifierOf p f strategy tree).parents b ↔
      b < f.numBlocks ∧ q < f.numBlocks ∧ b ∈ f.decidedBy tree q := by
  by_cases hb : b < f.numBlocks
  · simp [parents, classifierOf, Function.getElem?_controlParents hb, hb, Function.blockIds]
  · simp [parents, classifierOf, Function.controlParents, Function.blockIds, hb]

theorem Classifier.ofFunction_eq (h : f.branchesInRange = true) :
    Classifier.ofFunction p f strategy tree = .ok (classifierOf p f strategy tree) := by
  simp [Classifier.ofFunction, Function.controlDependence, h, pure, Except.pure, classifierOf]

theorem Classifier.eq_classifierOf {c : Classifier}
    (h : Classifier.ofFunction p f strategy tree = .ok c) :
    c = classifierOf p f strategy tree := by
  unfold Classifier.ofFunction Function.controlDependence at h
  split at h
  · exact (Except.ok.inj h).symm
  · cases h

/-- The stages of a split that succeeds: the tree of post-dominators, the classification with the
sinks, and the state of copying after all records are laid out. -/
structure Splits (p : Program) (types : TypePool) (f : Function) (table : ScopeTable)
    (strategy : Strategy) (tree : PostDominators) (state : Classifier.State)
    (sinks : List SinkResult) (transfers : List TransferLayout) (final : Emission) : Prop where
  valid : table.validate = .ok ()
  tree_eq : PostDominators.ofFunction f = .ok tree
  branches : f.branchesInRange = true
  classified : ((classifierOf p f strategy tree).classifyTable table (pure ())).run
    (classifierOf p f strategy tree).initial = (.ok ((), sinks), state)
  emitted : (Source.emitTable ⟨p, f, state.table⟩ tree table).run
    (Emission.start ⟨p, f, state.table⟩ types table.scopes) = (.ok transfers, final)

variable {p : Program} {types : TypePool} {f : Function} {table : ScopeTable} {strategy : Strategy}

theorem split_eq_error_of_tree {e : Fault} (hv : table.validate = .ok ())
    (ht : PostDominators.ofFunction f = .error e) :
    split p types f table strategy = .error e := by
  simp [split, splitWith, hv, ht]

theorem split_eq_error_of_branches (hv : table.validate = .ok ())
    (ht : PostDominators.ofFunction f = .ok tree) (hb : f.branchesInRange = false) :
    split p types f table strategy = .error .dangling := by
  simp [split, splitWith, hv, ht, Classifier.ofFunction, Function.controlDependence,
    hb]

theorem split_eq_match (hv : table.validate = .ok ())
    (ht : PostDominators.ofFunction f = .ok tree) (hb : f.branchesInRange = true) :
    split p types f table strategy =
      match ((classifierOf p f strategy tree).classifyTable table (pure ())).run
        (classifierOf p f strategy tree).initial with
      | (.error e, _) => .error e
      | (.ok (_, sinks), state) =>
        match (Source.emitTable ⟨p, f, state.table⟩ tree table).run
          (Emission.start ⟨p, f, state.table⟩ types table.scopes) with
        | (.error e, _) => .error e
        | (.ok transfers, final) => .ok (⟨final.partitions, transfers,
            state.problems ++ final.problems, final.fanout, sinks, state.table⟩, final.types) := by
  simp only [split, splitWith, hv, ht, Classifier.ofFunction_eq hb, ok_bind]
  rcases ((classifierOf p f strategy tree).classifyTable table (pure ())).run
    (classifierOf p f strategy tree).initial with ⟨_ | ⟨_, sinks⟩, state⟩
  · rfl
  · simp only [ok_bind]
    rcases (Source.emitTable ⟨p, f, state.table⟩ tree table).run
      (Emission.start ⟨p, f, state.table⟩ types table.scopes) with ⟨_ | transfers, final⟩ <;> rfl

theorem Splits.split_eq {state : Classifier.State}
    {sinks : List SinkResult} {transfers : List TransferLayout} {final : Emission}
    (h : Splits p types f table strategy tree state sinks transfers final) :
    split p types f table strategy = .ok (⟨final.partitions, transfers,
      state.problems ++ final.problems, final.fanout, sinks, state.table⟩, final.types) := by
  rw [split_eq_match h.valid h.tree_eq h.branches, h.classified]
  simp only [h.emitted]

theorem exists_splits_of_split_eq {out : SplitOutput} {types' : TypePool}
    (h : split p types f table strategy = .ok (out, types')) :
    ∃ tree state sinks transfers final,
      Splits p types f table strategy tree state sinks transfers final ∧
      out = ⟨final.partitions, transfers, state.problems ++ final.problems, final.fanout, sinks,
        state.table⟩ ∧ types' = final.types := by
  cases hv : table.validate with
  | error e => simp [split, splitWith, hv] at h
  | ok u =>
    cases ht : PostDominators.ofFunction f with
    | error e => simp [split_eq_error_of_tree hv ht] at h
    | ok tree =>
      cases hb : f.branchesInRange with
      | false => simp [split_eq_error_of_branches hv ht hb] at h
      | true =>
        rw [split_eq_match hv ht hb] at h
        split at h
        · cases h
        · next hc =>
          split at h
          · cases h
          · next he =>
            cases h
            exact ⟨tree, _, _, _, _, ⟨hv, ht, hb, hc, he⟩, rfl, rfl⟩

section Hooks

variable {τ : Type} {hook : Classifier → Act Classifier.State τ} {extra : τ} {out : SplitOutput}
  {types' : TypePool}

theorem exists_emitted_of_splitWith_eq
    (h : splitWith p types f table strategy hook = .ok (out, extra, types')) :
    ∃ tree final, (Source.emitTable ⟨p, f, out.classification⟩ tree table).run
        (Emission.start ⟨p, f, out.classification⟩ types table.scopes) = (.ok out.transfers, final) ∧
      out.partitions = final.partitions ∧ types' = final.types := by
  unfold splitWith at h
  obtain ⟨_, -, h⟩ := bind_eq_ok h
  obtain ⟨tree, -, h⟩ := bind_eq_ok h
  obtain ⟨c, -, h⟩ := bind_eq_ok h
  obtain ⟨⟨_, sinks⟩, -, h⟩ := bind_eq_ok h
  obtain ⟨transfers, ht, h⟩ := bind_eq_ok h
  cases h
  exact ⟨tree, _, Prod.ext ht rfl, rfl, rfl⟩

theorem exists_classified_of_splitWith_eq
    (h : splitWith p types f table strategy hook = .ok (out, extra, types')) :
    ∃ tree sinks state, PostDominators.ofFunction f = .ok tree ∧
      ((classifierOf p f strategy tree).classifyTable table (hook (classifierOf p f strategy tree))).run
        (classifierOf p f strategy tree).initial = (.ok (extra, sinks), state) ∧
      out.classification = state.table := by
  unfold splitWith at h
  obtain ⟨_, -, h⟩ := bind_eq_ok h
  obtain ⟨tree, ht, h⟩ := bind_eq_ok h
  obtain ⟨c, hc, h⟩ := bind_eq_ok h
  obtain rfl := Classifier.eq_classifierOf hc
  obtain ⟨⟨_, sinks⟩, hcl, h⟩ := bind_eq_ok h
  obtain ⟨transfers, -, h⟩ := bind_eq_ok h
  cases h
  exact ⟨tree, sinks, _, ht, Prod.ext hcl rfl, rfl⟩

end Hooks

end Stagewise
