import Stagewise.Proofs.Classification.Forcing
import Stagewise.Proofs.Emission.Layout
import Stagewise.Proofs.Sketch.Orderly

namespace Stagewise

def Function.EntersOnce (f : Function) : Prop :=
  ∃ tree, PostDominators.ofFunction f = .ok tree ∧ (Route.itinerary ⟨f, tree⟩).entered.Nodup

instance (f : Function) (P : PostDominators → Prop) [DecidablePred P] :
    Decidable (∃ tree, PostDominators.ofFunction f = .ok tree ∧ P tree) :=
  match h : PostDominators.ofFunction f with
  | .error _ => isFalse fun hf => by
    obtain ⟨tree, htree, -⟩ := hf
    cases htree
  | .ok tree => decidable_of_iff (P tree)
    ⟨fun hp => ⟨tree, rfl, hp⟩, fun hf => by
      obtain ⟨tree', htree, hp⟩ := hf
      cases htree
      exact hp⟩

instance (f : Function) : Decidable f.EntersOnce :=
  inferInstanceAs (Decidable (∃ tree, PostDominators.ofFunction f = .ok tree ∧
    (Route.itinerary ⟨f, tree⟩).entered.Nodup))

theorem Source.contains_wantedScopes (src : Source) (site : BranchSite) {scope : Scope}
    (hs : scope.val < Scope.limit) : (src.wantedScopes site).contains scope = true ↔
      (src.table.guardsAt site.block).contains scope = true ∨
        ∃ j, site.join = some j ∧ ∃ i ∈ src.func.phis j, src.table.instScope i = some scope := by
  have hp : scope ∈ (site.join.elim [] src.func.phis).filterMap src.table.instScope ↔
      ∃ j, site.join = some j ∧ ∃ i ∈ src.func.phis j, src.table.instScope i = some scope := by
    rw [List.mem_filterMap]
    cases site.join with
    | none => simp
    | some j => simp
  rw [Source.wantedScopes, ScopeSet.contains_union, Bool.or_eq_true, ScopeSet.contains_ofList,
    hp, or_comm, and_iff_left hs]

theorem Source.guarded_plan {src : Source} {tree : PostDominators} {strategy : Strategy}
    {scope : Scope} {quiet : BlockId → Prop}
    (hg : (classifierOf src.program src.func strategy tree).Guarding src.table [])
    (hs : scope.val < Scope.limit)
    (hqu : ∀ b, ¬(src.table.forcedAt b).contains scope = true →
      ¬src.func.PostDominates b src.func.entry → quiet b) :
    (src.plan scope).Guarded ⟨src.func, tree⟩ (classifierOf src.program src.func strategy tree)
      (fun j => ∃ i ∈ src.func.phis j, src.table.instScope i = some scope)
      (fun b => (src.table.forcedAt b).contains scope = true)
      (fun q => (src.table.guardsAt q).contains scope = true) quiet where
  wants site := src.contains_wantedScopes site hs
  decides _ _ hb hq := hg.guardsAt hb hq
  forces _ hq := hg.forcedAt_of_guardsAt hq
  quiet := hqu

namespace Splits

variable {p : Program} {types : TypePool} {f : Function} {table : ScopeTable}
  {tree : PostDominators} {state : Classifier.State} {sinks : List SinkResult}
  {transfers : List TransferLayout} {final : Emission}

variable (h : Splits p types f table .plain tree state sinks transfers final)
include h

theorem guarding (hs : f.Ssa p) : (classifierOf p f .plain tree).Guarding state.table [] := by
  have hp := Classifier.parentsInRange_classifierOf p f .plain tree
  exact ((Classifier.sat_classifyTable_guarded hs hp rfl h.valid).of_run h.classified).guarding

theorem loopFree (hs : f.Ssa p) (hl : f.LoopFree) (ht : f.Terminated) :
    (Route.mk f tree).LoopFree := by
  obtain ⟨tree', htr, he⟩ := PostDominators.ofFunction_exact hs.targets
  obtain rfl := Except.ok.inj (htr.symm.trans h.tree_eq)
  exact ⟨hs.targets, he, hl, ht⟩

theorem nodup_entered (ho : f.EntersOnce) : (Route.itinerary ⟨f, tree⟩).entered.Nodup := by
  obtain ⟨tree', ht, hn⟩ := ho
  obtain rfl := Except.ok.inj (ht.symm.trans h.tree_eq)
  exact hn

end Splits

end Stagewise
