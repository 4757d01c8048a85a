import Mathlib.Data.List.TakeWhile
import Stagewise.Proofs.Classification.Ordering
import Stagewise.Proofs.Emission.Phis

namespace Stagewise

namespace Function

def PhisCover (f : Function) : Prop :=
  ∀ b, ∀ i ∈ f.instsOf b, ∀ incoming, f.insts[i]?.map Inst.op = some (.phi incoming) →
    ∀ q, b ∈ f.successors q → q ∈ incoming.map Prod.fst

theorem PhisMatch.cover {f : Function} (h : f.PhisMatch) : f.PhisCover :=
  fun b i hi incoming hop q hq => ((h b i hi incoming hop).2 q).mpr hq

theorem exists_incoming_of_mem_phis {f : Function} {b : BlockId} {i : InstId} (h : i ∈ f.phis b) :
    ∃ inst incoming, f.insts[i]? = some inst ∧ inst.op = .phi incoming := by
  have hp : f.isPhi i = true := List.mem_takeWhile_imp h
  unfold isPhi at hp
  cases hi : f.insts[i]? with
  | none => simp [hi] at hp
  | some inst =>
    cases hop : inst.op <;> simp_all [Operation.isPhi]

end Function

namespace Classifier

variable {c : Classifier} {t : Classification} {table : ScopeTable} {i : InstId} {inst : Inst}
  {roots : GlobalId → Option Scope} {x : Scope}

/-- A scope asks for an instruction itself: a write that a sink requires there reads it, or a branch
on it must be repeated there. -/
inductive AsksFor (c : Classifier) (table : ScopeTable) (t : Classification) (i : InstId)
    (scope : Scope) : Prop
  | read {e : Endpoint} {site : SinkSite} : e ∈ table.sinks → e.scope = scope →
      site ∈ c.sinkSites e.name → .inst i ∈ site.reads → AsksFor c table t i scope
  | guard {b : BlockId} : c.func.cond? b = some (.inst i) → (t.guardsAt b).contains scope = true →
      AsksFor c table t i scope

theorem not_writes_of_phi {requests : List Request} {incoming : List (BlockId × Value)}
    (hi : c.func.insts[i]? = some inst) (hop : inst.op = .phi incoming) :
    ¬c.Writes requests i x := by
  rintro ⟨name, flags, -, site, hs, rfl⟩
  exact (op_ne_of_mem_sinkSites hs hi).2 incoming hop

theorem Ranked.asksFor {j : InstId} (h : c.Ranked roots (c.Writes table.demands) t)
    (hi : c.func.insts[i]? = some inst) (hp : t.isPinned i = true) (hx : t.instScope i = some x)
    (hj : .inst j ∈ inst.op.operands) : c.AsksFor table t j x := by
  obtain ⟨y, hy, name, flags, hm, site, hs, rfl⟩ := h.pinned i hp
  obtain rfl := Option.mem_unique hy (Classification.usedScope_eq_some hx)
  obtain ⟨e, he, heq⟩ := List.mem_map.mp hm
  injection heq with hn hsc
  subst hn
  exact .read he hsc hs (by rwa [(reads_of_mem_sinkSites hs hi).1])

end Classifier

section Split

variable {p : Program} {f : Function} {strategy : Strategy} {tree : PostDominators}
  {t : Classification} {roots : GlobalId → Option Scope} {W : InstId → Scope → Prop}
  {table : ScopeTable}

theorem Classifier.Ranked.cond_le_phi (h : (classifierOf p f strategy tree).Ranked roots
      ((classifierOf p f strategy tree).Writes table.demands) t)
    (hss : f.Ssa p) (he : tree.Exact f) (hc : f.PhisCover) {b join : BlockId} {cond : Value}
    {ifTrue ifFalse : BlockId} (ht : f.terminator? b = some (.branch cond ifTrue ifFalse))
    (hj : tree.nearestCommon? ifTrue ifFalse = some join) {i : InstId} (hi : i ∈ f.phis join)
    {scope owner : Scope} (hs : t.instScope i = some scope)
    (ho : t.valueScope cond = some owner) : owner ≤ scope := by
  obtain ⟨inst, incoming, hin, hop⟩ := Function.exists_incoming_of_mem_phis hi
  obtain ⟨q, hq, hd⟩ : ∃ q, join ∈ f.successors q ∧
      (classifierOf p f strategy tree).Decides b q :=
    exists_decided_predecessor hss.targets he ht hj
  have hm := hc join i (List.takeWhile_subset _ hi) incoming (by simp [hin, hop]) q hq
  have hco : f.cond? b = some cond := by simp [Function.cond?, ht, Terminator.cond?]
  have hf := h.isPinned_eq_false fun x => not_writes_of_phi (x := x) hin hop
  exact h.cond_le hin hop hf hm hd hco hs ho

/-- Only a write that is required in a scope, or a branch, asks there for a value of a later one. -/
theorem Source.Explains.asksFor (h : (classifierOf p f strategy tree).Ranked roots
      ((classifierOf p f strategy tree).Writes table.demands) t)
    (hss : f.Ssa p) (he : tree.Exact f) (hc : f.PhisCover) {i : InstId} {owner scope : Scope}
    (hwh : Source.Explains ⟨p, f, t⟩ tree (.backwardTransfer i owner scope)) :
    scope < owner ∧ t.instScope i = some owner ∧
      (classifierOf p f strategy tree).AsksFor table t i scope := by
  cases hwh with
  | @inst x j inst _ hx hi hh =>
    cases hh with
    | operand hv hd hr =>
      cases hr with
      | backward ho hlt =>
        refine ⟨hlt, ho, ?_⟩
        by_cases hp : t.isPinned j = true
        · exact h.asksFor hi hp hx hv
        · have hle : owner ≤ scope := h.operand_le hi (hss.inRange j inst hi)
            (by simpa using hp) hd hv hx ho
          exact absurd hlt (not_lt_of_ge hle)
  | @branch x site _ hs hw hr =>
    have ht : f.terminator? site.block = some (.branch site.cond site.ifTrue site.ifFalse) :=
      hs.terminator
    generalize site.cond = cond at ht hr
    cases hr with
    | backward ho hlt =>
      refine ⟨hlt, ho, ?_⟩
      rw [Source.wantedScopes, ScopeSet.contains_union, Bool.or_eq_true] at hw
      rcases hw with hph | hg
      · obtain ⟨j, hj, hsc⟩ := List.mem_filterMap.mp (ScopeSet.contains_ofList.mp hph).1
        cases hjo : site.join with
        | none => simp [hjo] at hj
        | some join =>
          rw [hjo] at hj
          have hle : owner ≤ scope := h.cond_le_phi hss he hc ht
            (hs.join.symm.trans hjo) hj hsc ho
          exact absurd hlt (not_lt_of_ge hle)
      · have hco : f.cond? site.block = some (.inst i) := by
          rw [Function.cond?, ht]
          rfl
        exact .guard hco hg

/-- Only a scope that asks for a value itself can come too early for it: the operands of an
instruction that is no write of a sink are placed no later than it, and so are the conditions of
branches whose arms come together at a placed phi. -/
theorem backwardTransfer_demanded {types types' : TypePool} {out : SplitOutput}
    (hsplit : split p types f table strategy = .ok (out, types'))
    (htree : PostDominators.ofFunction f = .ok tree) (hssa : f.Ssa p) (hcover : f.PhisCover) :
    (∀ i owner scope, .backwardTransfer i owner scope ∈ out.problems →
      scope < owner ∧ out.classification.instScope i = some owner ∧
        (classifierOf p f strategy tree).AsksFor table out.classification i scope) ∧
    (∀ (i : InstId) (inst : Inst), f.insts[i]? = some inst →
      (∀ x, ¬(classifierOf p f strategy tree).Writes table.demands i x) →
      (∀ callee args, inst.op ≠ .call (.indirect callee) args) →
      ∀ v ∈ inst.op.operands, ∀ owner scope, out.classification.valueScope v = some owner →
        out.classification.instScope i = some scope → owner ≤ scope) ∧
    ∀ b cond ifTrue ifFalse join, f.terminator? b = some (.branch cond ifTrue ifFalse) →
      tree.nearestCommon? ifTrue ifFalse = some join → ∀ i ∈ f.phis join, ∀ owner scope,
        out.classification.valueScope cond = some owner →
        out.classification.instScope i = some scope → owner ≤ scope := by
  obtain ⟨tree', state, sinks, transfers, final, hsplits, rfl, -⟩ := exists_splits_of_split_eq hsplit
  obtain rfl : tree' = tree := Except.ok.inj (hsplits.tree_eq.symm.trans htree)
  obtain ⟨tree, htree', hexact⟩ := PostDominators.ofFunction_exact hssa.targets
  obtain rfl : tree = tree' := Except.ok.inj (htree'.symm.trans htree)
  have hranked := Classifier.ranked_classifyTable.of_run hsplits.classified
  refine ⟨fun i owner scope hmem => ?_,
    fun i inst hinst hfree hdirect v hv owner scope howner hscope => ?_,
    fun b cond ifTrue ifFalse join hterm hjoin i hi owner scope howner hscope => ?_⟩
  · rcases List.mem_append.mp hmem with hmem | hmem
    · obtain ⟨s₁, hroots, hsinks⟩ :=
        Classifier.sat_classifyTable_responds.of_run hsplits.classified
      have hclassified := (hroots.append hsinks).problems _ hmem
      simp [Problem.OfClassifying, Classifier.initial] at hclassified
    · rcases (Source.reports_emitTable tree table _).of_run hsplits.emitted _ hmem with hmem | hwhy
      · simp [Emission.start] at hmem
      · exact hwhy.asksFor hranked hssa hexact hcover
  · exact hranked.operand_le hinst (hssa.inRange i inst hinst) (hranked.isPinned_eq_false hfree)
      hdirect hv hscope howner
  · exact hranked.cond_le_phi hssa hexact hcover hterm hjoin hi hscope howner

end Split

/-- A flag of the later scope decides whether a value is written in the earlier one, and chooses a value
that is written there. -/
def hasty : Function where
  name := "main"
  entry := 0
  blocks := #[⟨[0, 1], some (.branch (.inst 0) 1 2)⟩, ⟨[2], some (.jump 3)⟩, ⟨[], some (.jump 3)⟩,
    ⟨[3, 4], some .ret⟩]
  insts := #[⟨.load (.member 0 []), .bool, 0⟩, ⟨.load (.member 1 []), .int, 0⟩,
    ⟨.store (.inst 1) (.member 2 []), .void, 1⟩,
    ⟨.phi [(1, .inst 1), (2, .const (.int .int 7))], .int, 3⟩,
    ⟨.store (.inst 3) (.member 3 []), .void, 3⟩]
  layout := [0, 1, 2, 3]

def hastyProgram : Program :=
  ⟨"hasty", [.plain "flag" .bool, .plain "a" .int, .plain "some" .int, .plain "all" .int], [],
    [hasty]⟩

def hastyTable : ScopeTable where
  scopes := ["early", "late"]
  roots := [⟨"flag", .ofNat 1, .ofNat 1⟩, ⟨"a", .ofNat 0, .ofNat 1⟩]
  sinks := [⟨"some", .ofNat 0, .ofNat 1⟩, ⟨"all", .ofNat 0, .ofNat 1⟩]
  transfers := []

/-- The flag is the condition of a branch that the earlier scope repeats, the choice is read by a
write that it is required in; nothing else would have to go back. -/
theorem backwardTransfer_hasty : ∃ out types' tree,
    split hastyProgram .empty hasty hastyTable .plain = .ok (out, types') ∧
    PostDominators.ofFunction hasty = .ok tree ∧ hasty.Ssa hastyProgram ∧ hasty.PhisCover ∧
    out.problems = [.backwardTransfer 0 (.ofNat 1) (.ofNat 0),
      .backwardTransfer 3 (.ofNat 1) (.ofNat 0)] ∧
    (classifierOf hastyProgram hasty .plain tree).AsksFor hastyTable out.classification 0 (.ofNat 0) ∧
    (classifierOf hastyProgram hasty .plain tree).AsksFor hastyTable out.classification 3 (.ofNat 0) := by
  have hssa : hasty.Ssa hastyProgram := Function.ssa_of_test (by decide)
  have hcover : hasty.PhisCover := Function.PhisMatch.cover (by decide)
  obtain ⟨tree, htree, -⟩ := PostDominators.ofFunction_exact hssa.targets
  have hproblems : ((split hastyProgram .empty hasty hastyTable .plain).toOption.any
      fun answer => decide (answer.1.problems = [.backwardTransfer 0 (.ofNat 1) (.ofNat 0),
        .backwardTransfer 3 (.ofNat 1) (.ofNat 0)])) = true := by decide +kernel
  obtain ⟨answer, hsplit, hproblems⟩ := exists_ok_of_any hproblems
  have hlist := of_decide_eq_true hproblems
  have hback := (backwardTransfer_demanded hsplit htree hssa hcover).1
  exact ⟨answer.1, answer.2, tree, hsplit, htree, hssa, hcover, hlist,
    (hback 0 (.ofNat 1) _ (by simp [hlist])).2.2, (hback 3 (.ofNat 1) _ (by simp [hlist])).2.2⟩

end Stagewise
