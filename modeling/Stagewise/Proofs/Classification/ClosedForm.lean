import Mathlib.Order.Bounds.Defs
import Stagewise.Proofs.Classification.Charting

namespace Stagewise

open Relation

namespace Function

/-- The instructions that are an operand of another, or the condition of a branch. -/
def readInsts (f : Function) : List InstId :=
  f.insts.toList.flatMap (fun inst => inst.op.operands.filterMap Value.inst?)
    ++ f.blockIds.filterMap fun b => (f.cond? b).bind Value.inst?

theorem lt_of_cond {f : Function} {b : BlockId} {v : Value} (h : f.cond? b = some v) :
    b < f.numBlocks := by
  unfold cond? terminator? at h
  cases hb : f.blocks[b]? with
  | none => simp [hb] at h
  | some block => exact (Array.getElem?_eq_some_iff.mp hb).1

end Function

namespace Classifier

variable {c : Classifier} {t : Classification} {n m : Node} {i : InstId} {x : Scope}
  {roots : GlobalId → Option Scope} {B : Node → Scope → Prop} {W : InstId → Scope → Prop}

def writesOf (c : Classifier) (requests : List Request) : List InstId :=
  requests.flatMap fun
    | .sink name _ _ => (c.sinkSites name).map (·.inst)
    | _ => []

theorem Writes.mem_writesOf {requests : List Request} (h : c.Writes requests i x) :
    i ∈ c.writesOf requests := by
  obtain ⟨name, flags, hm, site, hs, rfl⟩ := h
  exact List.mem_flatMap.mpr ⟨_, hm, List.mem_map_of_mem hs⟩

def supply (c : Classifier) (roots : GlobalId → Option Scope) (n : Node) : Set Scope :=
  {x | ∃ m, ReflTransGen c.DependsOn n m ∧ c.Brings roots m x}

def Clear (c : Classifier) (W : InstId → Scope → Prop) (n : Node) : Prop :=
  ∀ m, ReflTransGen c.DependsOn n m → ∀ i x, m = .inst i → ¬W i x

theorem Clear.depends (h : c.Clear W n) (hp : ReflTransGen c.DependsOn n m) : c.Clear W m :=
  fun k hk => h k (hp.trans hk)

theorem Charted.not_fixes (h : c.Charted B roots W t) (hc : c.Clear W n) : t.fixes n = false := by
  cases n with
  | inst i =>
    by_contra hp
    obtain ⟨x, -, hW⟩ := h.pinned i (by simpa [Classification.fixes] using hp)
    exact hc _ .refl i x rfl hW
  | global _ | block _ | terminator _ => rfl

theorem Charted.depends (h : c.Charted B roots W t) (hc : c.Clear W n)
    (hu : (t.info n).isUsed = true) (hp : ReflTransGen c.DependsOn n m) :
    (t.info m).isUsed = true ∧ Scope.rank (t.info m).scope ≤ Scope.rank (t.info n).scope := by
  induction hp with
  | refl => exact ⟨hu, le_refl _⟩
  | tail hp hd ih =>
    obtain ⟨hm, hle⟩ := ih
    obtain ⟨hu', hle'⟩ := h.flowing.dependsOn h.settled hm (h.not_fixes (hc.depends hp)) hd
    exact ⟨hu', hle'.trans hle⟩

theorem Charted.rank_le (hpl : c.strategy = .plain) (h : c.Charted B roots W t)
    (hc : c.Clear W n) (hu : (t.info n).isUsed = true)
    (hp : ReflTransGen c.DependsOn n m) (hb : c.Brings roots m x) :
    Scope.rank (some x) ≤ Scope.rank (t.info n).scope := by
  obtain ⟨hu', hle⟩ := h.depends hc hu hp
  refine le_trans ?_ hle
  cases hb with
  | @root g x hr => rw [show (t.info (.global g)).scope = some x from (h.roots g).trans hr]
  | call hi hop =>
    exact h.flowing.call hpl h.settled hi hop hu' (h.not_fixes (hc.depends hp))

theorem Charted.mem_supply (h : c.Charted (c.Brings roots) roots W t) (hc : c.Clear W n)
    (hx : (t.info n).scope = some x) : x ∈ c.supply roots n := by
  obtain ⟨m, hp, hb | ⟨i, rfl, hW⟩⟩ := h.founded n x hx
  · exact ⟨m, hp, hb⟩
  · exact absurd hW (hc _ hp i x rfl)

theorem Charted.scope_eq_some_iff (hp : c.strategy = .plain) (h : c.Charted (c.Brings roots) roots W t)
    (hc : c.Clear W n) (hu : (t.info n).isUsed = true) :
    (t.info n).scope = some x ↔ IsGreatest (c.supply roots n) x := by
  have hb : ∀ y ∈ c.supply roots n, Scope.rank (some y) ≤ Scope.rank (t.info n).scope :=
    fun y ⟨m, hpa, hbr⟩ => h.rank_le hp hc hu hpa hbr
  constructor
  · intro hx
    refine ⟨h.mem_supply hc hx, fun y hy => ?_⟩
    have := hb y hy
    rw [hx] at this
    exact Nat.le_of_succ_le_succ this
  · rintro ⟨hm, hg⟩
    have hle := hb x hm
    cases hs : (t.info n).scope with
    | none => simp [hs, Scope.rank] at hle
    | some y =>
      rw [hs] at hle
      have hxy : x ≤ y := Nat.le_of_succ_le_succ hle
      rw [le_antisymm hxy (hg (h.mem_supply hc hs))]

theorem Charted.scope_eq_none_iff (hp : c.strategy = .plain) (h : c.Charted (c.Brings roots) roots W t)
    (hc : c.Clear W n) (hu : (t.info n).isUsed = true) :
    (t.info n).scope = none ↔ c.supply roots n = ∅ := by
  rw [Set.eq_empty_iff_forall_notMem]
  constructor
  · rintro hn x ⟨m, hpa, hb⟩
    have := h.rank_le hp hc hu hpa hb
    simp [hn, Scope.rank] at this
  · intro he
    cases hs : (t.info n).scope with
    | none => rfl
    | some x => exact absurd (h.mem_supply hc hs) (he x)

theorem node?_eq_inst {v : Value} (h : v.node? = some (.inst i)) : v = .inst i := by
  cases v <;> cases h
  rfl

theorem mem_operands_of_dependencies {op : Operation} (h : .inst i ∈ op.dependencies) :
    .inst i ∈ op.operands := by
  have hva : ∀ {vs : List Value}, Node.inst i ∈ vs.filterMap Value.node? → .inst i ∈ vs := by
    intro vs h
    obtain ⟨v, hv, hn⟩ := List.mem_filterMap.mp h
    exact node?_eq_inst hn ▸ hv
  unfold Operation.dependencies at h
  split at h
  · next addr =>
    cases hg : addr.global? with
    | none => simp [hg] at h
    | some g =>
      simp only [hg, Option.elim_some, List.mem_cons, reduceCtorEq, false_or] at h
      exact hva h
  · next incoming =>
    obtain ⟨e, he, h⟩ := List.mem_flatMap.mp h
    simp only [List.mem_append, Option.mem_toList, List.mem_singleton, reduceCtorEq, or_false] at h
    exact node?_eq_inst h ▸ List.mem_map_of_mem he
  · cases h
  · exact hva h

theorem mem_readInsts_of_dependsOn (h : c.DependsOn n (.inst i)) : i ∈ c.func.readInsts := by
  have hc : ∀ {b}, Node.inst i ∈ ((c.func.cond? b).bind Value.node?).toList →
      i ∈ c.func.readInsts := by
    intro b h
    obtain ⟨v, hv, hn⟩ := Option.bind_eq_some_iff.mp (Option.mem_toList.mp h)
    obtain rfl := node?_eq_inst hn
    refine List.mem_append_right _ (List.mem_filterMap.mpr ⟨b, ?_, by simp [hv, Value.inst?]⟩)
    exact List.mem_range.mpr (c.func.lt_of_cond hv)
  cases n with
  | inst j =>
    simp only [DependsOn, dependencies] at h
    cases hj : c.func.insts[j]? with
    | none => simp [hj] at h
    | some inst =>
      rw [hj] at h
      refine List.mem_append_left _ (List.mem_flatMap.mpr ⟨inst, ?_, List.mem_filterMap.mpr
        ⟨.inst i, mem_operands_of_dependencies h, rfl⟩⟩)
      exact Array.mem_toList_iff.mpr (Array.mem_of_getElem? hj)
  | block b =>
    rcases List.mem_append.mp h with h | h
    · exact hc h
    · simp at h
  | terminator b => exact hc h
  | global g => cases h

theorem clear_of_not_read (hr : ∀ i x, W i x → i ∉ c.func.readInsts)
    (hn : ∀ i x, n = .inst i → ¬W i x) : c.Clear W n := by
  intro m hp j x hm hW
  subst hm
  rcases hp.cases_tail with heq | ⟨k, -, hd⟩
  · exact hn j x heq.symm hW
  · exact hr j x hW (mem_readInsts_of_dependsOn hd)

/-- Under the plain strategy, if bindings are declared first and no write of a sink is read, a used
instruction that is no such write is placed in the latest scope that the bindings and calls among its
dependencies bring, and is not placed if they bring none. Later requests do not move it. -/
theorem instScope_isGreatest_supply {p : Program} {f : Function} {tree : PostDominators}
    (hc : Classifier.ofFunction p f .plain tree = .ok c) {declarations before after : List Request}
    (hroots : ∀ r ∈ declarations, r.isRoot = true)
    (hseeds : ∀ r ∈ before ++ after, r.isSeed = true) {answers answers' : List Answer}
    {s s' : Session}
    (hbefore : (c.answerAll (declarations ++ before)).run c.openSession = (.ok answers, s))
    (hafter : (c.answerAll after).run s = (.ok answers', s'))
    (hread : ∀ j ∈ c.writesOf (before ++ after), j ∉ f.readInsts)
    (hi : i ∉ c.writesOf (before ++ after))
    (hused : (s.state.table.inst i).isUsed = true) :
    (∀ x, s.state.table.instScope i = some x ↔
        IsGreatest (c.supply (Request.rootScope p declarations) (.inst i)) x) ∧
      (s.state.table.instScope i = none ↔
        c.supply (Request.rootScope p declarations) (.inst i) = ∅) ∧
      s'.state.table.instScope i = s.state.table.instScope i := by
  have hcp : c.program = p ∧ c.func = f ∧ c.strategy = .plain := by
    rw [eq_classifierOf hc]
    exact ⟨rfl, rfl, rfl⟩
  obtain ⟨rfl, rfl, hplain⟩ := hcp
  obtain ⟨s₀, hdeclared, hresponses⟩ := (responses_of_answerAll hbefore).split
  have hresponses' := responses_of_answerAll hafter
  have hclear : c.Clear (c.Writes (before ++ after)) (.inst i) :=
    clear_of_not_read (fun j _ hj => hread j hj.mem_writesOf)
      fun _ _ heq h => hi (Node.inst.inj heq ▸ h.mem_writesOf)
  have hmono : ∀ {requests}, (∀ r ∈ requests, r ∈ before ++ after) → ∀ i x,
      c.Writes requests i x → c.Writes (before ++ after) i x :=
    fun hsub i x ⟨name, flags, hmem, hsite⟩ => ⟨name, flags, hsub _ hmem, hsite⟩
  obtain ⟨hcharted, -⟩ := hresponses.charted (placesBy_plain hplain)
    (fun r hr => hseeds r (by simp [hr])) (hmono fun r hr => by simp [hr])
    (charted_of_declares hdeclared hroots fun _ _ => .root)
  obtain ⟨hcharted', hused'⟩ := hresponses'.charted (placesBy_plain hplain) (fun r hr => hseeds r (by simp [hr]))
    (hmono fun r hr => by simp [hr]) hcharted
  have hscope : s.state.table.instScope i = (s.state.table.info (.inst i)).scope :=
    ValueInfo.usedScope_of_isUsed hused
  have hscope' : s'.state.table.instScope i = (s'.state.table.info (.inst i)).scope :=
    ValueInfo.usedScope_of_isUsed (hused' (.inst i) (.inl hused))
  refine ⟨fun x => ?_, ?_, ?_⟩
  · rw [hscope]
    exact hcharted.scope_eq_some_iff hplain hclear hused
  · rw [hscope]
    exact hcharted.scope_eq_none_iff hplain hclear hused
  · rw [hscope, hscope']
    refine Option.ext fun x => ?_
    rw [hcharted'.scope_eq_some_iff hplain hclear (hused' (.inst i) (.inl hused)),
      hcharted.scope_eq_some_iff hplain hclear hused]

end Classifier

def chosenValue : Function where
  name := "main"
  entry := 0
  blocks := #[⟨[0], some (.branch (.inst 0) 1 2)⟩, ⟨[1], some (.jump 3)⟩, ⟨[], some (.jump 3)⟩,
    ⟨[2, 3], some .ret⟩]
  insts := #[⟨.load (.member 0 []), .bool, 0⟩, ⟨.load (.member 1 []), .bool, 1⟩,
    ⟨.phi [(1, .inst 1), (2, .const ⟨.bool, .bool false⟩)], .bool, 3⟩,
    ⟨.store (.inst 2) (.member 2 []), .void, 3⟩]
  layout := [0, 1, 2, 3]

def chosenClassifier : Classifier :=
  classifierOf ⟨"chosen", [.plain "a" .bool, .plain "b" .bool, .plain "out" .bool], [], [chosenValue]⟩
    chosenValue .plain ⟨#[some 3, some 3, some 3, some 4, some 4], #[4, 2, 3, 1, 0]⟩

/-- The binding that decides comes after the one that is chosen from, so the value does too. -/
theorem instScope_chosenValue : ∃ answers s answers' s',
    (chosenClassifier.answerAll ([.rootNamed "a" 1 .empty, .root 1 0 .empty]
      ++ [.sink "out" 2 (.ofNat 1)])).run chosenClassifier.openSession = (.ok answers, s) ∧
    (chosenClassifier.answerAll [.value (.inst 2) (.ofNat 2)]).run s = (.ok answers', s') ∧
    (∀ x, s.state.table.instScope 2 = some x ↔ IsGreatest (chosenClassifier.supply
      (Request.rootScope chosenClassifier.program [.rootNamed "a" 1 .empty, .root 1 0 .empty])
      (.inst 2)) x) ∧
    s'.state.table.instScope 2 = s.state.table.instScope 2 := by
  have hc : Classifier.ofFunction chosenClassifier.program chosenValue .plain
      chosenClassifier.postDominators = .ok chosenClassifier := Classifier.ofFunction_eq (by decide)
  have hbefore : ((chosenClassifier.answerAll ([.rootNamed "a" 1 .empty, .root 1 0 .empty]
      ++ [.sink "out" 2 (.ofNat 1)])).run chosenClassifier.openSession).1.isOk = true := by
    decide +kernel
  obtain ⟨answers, hbefore⟩ := Act.exists_run_of_isOk hbefore
  have hafter : ((chosenClassifier.answerAll [.value (.inst 2) (.ofNat 2)]).run
      ((chosenClassifier.answerAll ([.rootNamed "a" 1 .empty, .root 1 0 .empty]
        ++ [.sink "out" 2 (.ofNat 1)])).run chosenClassifier.openSession).2).1.isOk = true := by
    decide +kernel
  obtain ⟨answers', hafter⟩ := Act.exists_run_of_isOk hafter
  have hscope := Classifier.instScope_isGreatest_supply hc (by decide) (by decide) hbefore hafter
    (by decide) (i := 2) (by decide) (by decide +kernel)
  exact ⟨answers, _, answers', _, hbefore, hafter, hscope.1, hscope.2.2⟩

end Stagewise
