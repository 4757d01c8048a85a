import Stagewise.Proofs.Semantics.Tracking

namespace Stagewise

theorem Datum.shuffle_put_zero {α : Type} {a b u : Datum α} {mask : List Nat}
    (h : ∀ j ∈ mask, j = 0) :
    shuffle (put ((shuffle a b mask).part 0) [0] (.node (List.replicate mask.length u)))
      (.node (List.replicate mask.length u)) (List.replicate mask.length 0) = shuffle a b mask := by
  obtain ⟨n, rfl⟩ : ∃ n, mask = List.replicate n 0 :=
    ⟨mask.length, List.eq_replicate_of_mem h⟩
  cases n with
  | zero => simp [shuffle]
  | succ n => simp [shuffle, put, part, parts, List.replicate_succ]

namespace Machine

variable {α : Type} (M : Machine α) {types : TypePool}

theorem constant_vector {ty elem : TypeId} {len : Nat} (h : types.get ty = .vector elem len)
    (literal : Literal) :
    M.constant types ⟨ty, literal⟩ = .node (List.replicate len (M.literal elem literal)) := by
  simp only [constant, h]

theorem index_zero (h : types.get TypeId.int = .int) :
    M.index (M.constant types (.int TypeId.int 0)) = 0 := by
  have hl : M.constant types (.int TypeId.int 0)
      = M.literal TypeId.int (.int (Int.ofNat 0)) := by
    simp only [constant, Constant.int, h]
    rfl
  rw [hl]
  exact M.index_int 0

end Machine

namespace Machine

variable {α : Type} {M : Machine α} {eval : Value → Datum α} {path : List Step} {index : Value}

theorem map_position (h : path.filterMap Step.dynamic? = [index]) :
    path.map (M.position eval)
      = (path.map Step.fixed?).map (·.getD (M.index (eval index))) := by
  have ha : ∀ v ∈ path.filterMap Step.dynamic?, v = index := by
    rw [h]
    exact fun v hv => List.mem_singleton.mp hv
  rw [List.map_map]
  refine List.map_congr_left fun step hs => ?_
  cases step with
  | fixed k => rfl
  | dynamic v =>
    obtain rfl : v = index := ha v (List.mem_filterMap.mpr ⟨_, hs, rfl⟩)
    rfl

theorem index_lt {types : TypePool} {ty : TypeId} {len : Nat}
    (hd : path.filterMap Step.dynamic? = [index])
    (hb : types.InBounds ty (path.map (M.position eval)))
    (hl : (types.memberPath ty (Step.leading path)).bind types.lengthOf = some len) :
    M.index (eval index) < len := by
  induction path generalizing ty with
  | nil => cases hd
  | cons step path ih =>
    cases step with
    | fixed k =>
      rw [Step.leading, TypePool.memberPath, Option.bind_assoc] at hl
      obtain ⟨elem, he, hr⟩ := Option.bind_eq_some_iff.mp hl
      exact ih hd (hb.2 elem he) hr
    | dynamic v =>
      obtain ⟨rfl, -⟩ := List.cons.inj hd
      exact hb.1 len hl

end Machine

theorem Scenario.Consistent.isPublic {α : Type} {c : Scenario α} (hc : c.Consistent) {i : InstId}
    {inst : Inst} (hi : c.source.func.insts[i]? = some inst) {x : Effect α}
    (hx : x ∈ c.effectOf i) : c.isPublic x = true := by
  cases x with
  | call name args => rfl
  | write y v =>
    have he : c.machine.effect? c.source.program c.eval inst.op = some (.write y v) := by
      have hx : c.machine.effectOf c.types c.source.program c.source.func c.values c.memory i
          = some (.write y v) := hx
      rw [Machine.effectOf, hi] at hx
      exact hx
    have hn := Machine.storeName?_of_effect? he
    have hd : ∃ decl ∈ c.source.program.globals, decl.name = y.binding := by
      unfold Program.storeName? at hn
      split at hn
      · next u addr _ =>
        obtain ⟨g, -, hg⟩ := Option.bind_eq_some_iff.mp hn
        obtain ⟨decl, hd, heq⟩ := Option.map_eq_some_iff.mp hg
        exact ⟨decl, List.mem_of_getElem? hd, heq⟩
      · cases hn
    obtain ⟨decl, hd, heq⟩ := hd
    have hf := hc.fresh decl hd
    rw [heq] at hf
    simpa [Scenario.isPublic] using hf

theorem Scenario.Consistent.splat {α : Type} {c : Scenario α} (hc : c.Consistent) {i : InstId}
    {inst : Inst} (hi : i ∈ c.order) (hin : c.source.func.insts[i]? = some inst)
    (hs : Source.isSplat c.pool inst = true) : ∃ a b mask elem, (∀ j ∈ mask, j = 0) ∧
      c.values i = Datum.shuffle a b mask ∧ c.types.get inst.ty = .vector elem mask.length ∧
      Source.fieldLanes c.pool inst = some mask.length := by
  have hg := hc.types.get _ (hc.typed i hi inst hin)
  have hm := hc.mask i hi inst hin
  have hva := hc.computed i hi inst hin
  unfold Source.fieldLanes
  rw [if_pos hs]
  unfold Source.isSplat at hs
  split at hs
  · next a b mask hop =>
    rw [Bool.and_eq_true, List.all_eq_true] at hs
    obtain ⟨hz, hv⟩ := hs
    have hl := hm a b mask hop
    unfold TypePool.isVector at hv
    split at hv
    · next elem len hty =>
      obtain rfl : len = mask.length := by
        simpa [TypePool.lengthOf, hty] using hl
      refine ⟨c.eval a, c.eval b, mask, elem, fun j hj => ?_, ?_, hg.trans hty, ?_⟩
      · simpa using hz j hj
      · rw [← hva, Machine.compute, hop]
      · rw [hl]
        rfl
    · cases hv
  · cases hs

def Scenario.script {α : Type} (c : Scenario α) (insts : List InstId) (x : Scope) :
    List (Effect α) :=
  insts.filterMap fun i => if c.source.table.instScope i = some x then c.effectOf i else none

namespace Draft

variable {α : Type} {c : Scenario α} {H : Place → Prop} {E : List (Effect α)}
  {w : InstId → Datum α} {d d' : Draft}

variable {x : Datum α} {op : Operation} {ty : TypeId}

theorem Follows.append_pure (h : d.Follows c H E w)
    (hg : d.Gains c (d.builder.func.instsOf d.entry).length ty op x d')
    (hop : d.Operates c H w ty op x) (he : c.machine.effect? d.program (c.evalIn d w) op = none) :
    d'.Follows c H E (Function.update w d.builder.func.numInsts x) ∧
      d.Evolves c w (Function.update w d.builder.func.numInsts x) d' := by
  have hf : ∀ y v, c.machine.effect? d.program (c.evalIn d w) op = some (.write y v) →
      y.binding ∈ c.records → v = c.memory.read y := by
    intro y v heq
    rw [he] at heq
    cases heq
  have ha := h.append hg hop hf
  rwa [he, Option.toList_none, List.filter_nil, List.append_nil] at ha

theorem Follows.append_local (h : d.Follows c H E w) (hp : op.isPlain = true)
    (hga : d.Gains c (d.builder.func.instsOf d.entry).length ty op x d')
    (ho : ∀ v ∈ op.operands, (∃ k, v = .const k) ∨ ∃ j, v = .inst j ∧ j < d.builder.func.numInsts)
    (hc : c.machine.compute d.program (c.evalIn d w) c.memory ⟨op, ty, d.entry⟩ = x) :
    d'.Follows c H E (Function.update w d.builder.func.numInsts x) ∧
      d.Evolves c w (Function.update w d.builder.func.numInsts x) d' := by
  have hn : ∀ v ∈ op.operands, d.program.operandName? v = none := by
    intro v hv
    rcases ho v hv with ⟨k, rfl⟩ | ⟨j, rfl, -⟩ <;> rfl
  have hl : c.machine.loadPlace? d.program (c.evalIn d w) op = none := by
    cases op <;> first | rfl | cases hp
  refine h.append_pure hga ⟨⟨fun g hg => ?_, fun addr g ha => ?_, fun callee args hop => ?_⟩,
    fun j hj => ?_, fun _ => hc, fun y hy => ?_⟩ ?_
  · rcases ho _ hg with ⟨k, hk⟩ | ⟨j, hj, -⟩
    · cases hk
    · cases hj
  · have hno : op.address? = none := by cases op <;> first | rfl | cases hp
    rw [hno] at ha
    cases ha
  · subst hop
    cases hp
  · rcases ho _ hj with ⟨k, hk⟩ | ⟨j', hj', hlt⟩
    · cases hk
    · cases hj'
      exact hlt
  · rw [Machine.reads, hl, List.filterMap_eq_nil_iff.mpr hn] at hy
    cases hy
  · cases op <;> first | rfl | cases hp

theorem lookup_cons_cases {i j : InstId} {v : Value} {n : InstId} {l : List (InstId × Value)}
    {f : InstId → Datum α} (h : ((i, .inst n) :: l).lookup j = some v)
    (hx : x = f i) : l.lookup j = some v ∨ v = .inst n ∧ x = f j := by
  rw [List.lookup_cons] at h
  by_cases hj : j = i
  · rw [hj, beq_self_eq_true] at h
    exact .inr ⟨(Option.some.inj h).symm, by rw [hx, hj]⟩
  · rw [beq_false_of_ne hj] at h
    exact .inl h

section OpenRead

variable {i : InstId} {inst : Inst}

theorem operates_pending (d : Draft) (ty : TypeId) (x : Datum α) :
    d.Operates c H w ty (.load .pending) x := by
  refine ⟨⟨fun g hg => ?_, fun addr g ha hg => ?_, fun callee args hop => ?_⟩,
    fun j hj => (by cases hj), fun hne => absurd rfl hne, fun y hy => (by cases hy)⟩
  · cases hg
  · cases ha
    cases hg
  · cases hop

theorem Follows.openRead_whole (h : d.Follows c H E w) (i : InstId) (ty fieldTy : TypeId) :
    (d.openRead i ty fieldTy none).2.Follows c H E
        (Function.update w d.builder.func.numInsts (c.values i)) ∧
      d.Evolves c w (Function.update w d.builder.func.numInsts (c.values i))
        (d.openRead i ty fieldTy none).2 := by
  refine h.append_pure ⟨⟨rfl, rfl, rfl⟩, rfl, fun _ _ hv => .inl hv, fun j v hv => ?_⟩
    (operates_pending ..) rfl
  exact lookup_cons_cases hv rfl

/-- A lane that is spread again has the value of a vector whose lanes are all equal to it. -/
theorem Follows.openRead_lane (h : d.Follows c H E w) (hi : c.types.get TypeId.int = .int)
    {a b : Datum α} {mask : List Nat} {ty elem : TypeId} (hm : ∀ j ∈ mask, j = 0)
    (hva : c.values i = Datum.shuffle a b mask)
    (hty : c.types.get ty = .vector elem mask.length) (fieldTy : TypeId) :
    ∃ w', (d.openRead i ty fieldTy (some mask.length)).2.Follows c H E w' ∧
      d.Evolves c w w' (d.openRead i ty fieldTy (some mask.length)).2 ∧
      w' d.builder.func.numInsts = (c.values i).part 0 := by
  have hu := c.machine.constant_vector hty .undef
  generalize hd1 : (d.append d.entry fieldTy (.load .pending)).2 = d1
  obtain ⟨w1, hw1, h1, hev1⟩ : ∃ w1, w1 d.builder.func.numInsts = (c.values i).part 0 ∧
      d1.Follows c H E w1 ∧ d.Evolves c w w1 d1 := by
    refine ⟨Function.update w d.builder.func.numInsts ((c.values i).part 0),
      Function.update_self .., ?_⟩
    rw [← hd1]
    exact h.append_pure (gains_of_eq ⟨rfl, rfl, rfl⟩ rfl rfl rfl) (operates_pending ..) rfl
  have hn1 : d1.builder.func.numInsts = d.builder.func.numInsts + 1 := by
    rw [← hd1, numInsts_append]
  generalize hd2 : (d1.append d1.entry ty (.insert (.const (.undef ty))
    (.inst d.builder.func.numInsts) (.const (.int TypeId.int 0)))).2 = d2
  obtain ⟨w2, hw2, h2, hev2⟩ : ∃ w2, w2 d1.builder.func.numInsts = .put ((c.values i).part 0) [0]
        (.node (List.replicate mask.length (c.machine.literal elem .undef))) ∧
      d2.Follows c H E w2 ∧ d1.Evolves c w1 w2 d2 := by
    refine ⟨Function.update w1 d1.builder.func.numInsts _, Function.update_self .., ?_⟩
    rw [← hd2]
    refine h1.append_local rfl (gains_of_eq ⟨rfl, rfl, rfl⟩ rfl rfl rfl) ?_ ?_
    · simp [Operation.operands, hn1]
    · simp only [Machine.compute, Scenario.evalIn, Machine.operand, hw1,
        c.machine.index_zero hi]
      rw [Constant.undef, hu]
  have hn2 : d2.builder.func.numInsts = d1.builder.func.numInsts + 1 := by
    rw [← hd2, numInsts_append]
  have ho : (d.openRead i ty fieldTy (some mask.length)).2
      = { (d2.append d2.entry ty (.shuffle (.inst d1.builder.func.numInsts) (.const (.undef ty))
          (List.replicate mask.length 0))).2 with
        reads := (i, .inst d2.builder.func.numInsts) :: d2.reads } := by
    rw [← hd2, ← hd1]
    rfl
  obtain ⟨w3, h3, hev3⟩ : ∃ w3, (d.openRead i ty fieldTy (some mask.length)).2.Follows c H E w3 ∧
      d2.Evolves c w2 w3 (d.openRead i ty fieldTy (some mask.length)).2 := by
    refine ⟨Function.update w2 d2.builder.func.numInsts (c.values i), ?_⟩
    rw [ho]
    refine h2.append_local rfl ⟨⟨rfl, rfl, rfl⟩, rfl, fun _ _ hv => .inl hv,
      fun j v hv => lookup_cons_cases hv rfl⟩ ?_ ?_
    · simp [Operation.operands, hn2]
    · simp only [Machine.compute, Scenario.evalIn, Machine.operand, hw2]
      rw [Constant.undef, hu, hva]
      exact Datum.shuffle_put_zero hm
  refine ⟨w3, h3, hev1.trans (hev2.trans hev3), ?_⟩
  rw [(hev2.trans hev3).values _ (hn1 ▸ Nat.lt_succ_self _), hw1]

theorem Follows.openRead (h : d.Follows c H E w) (hc : c.Consistent) (hi : i ∈ c.order)
    (hin : c.source.func.insts[i]? = some inst) (owner dst : Scope) :
    ∃ w', (d.openRead i inst.ty (Source.fieldType c.pool inst)
        (Source.fieldLanes c.pool inst)).2.Follows c H E w' ∧
      d.Evolves c w w' (d.openRead i inst.ty (Source.fieldType c.pool inst)
        (Source.fieldLanes c.pool inst)).2 ∧
      w' d.builder.func.numInsts = c.slotDatum ⟨owner, dst, i, Source.fieldType c.pool inst,
        Source.isSplat c.pool inst, d.builder.func.numInsts⟩ := by
  cases hs : Source.isSplat c.pool inst with
  | false =>
    have hl : Source.fieldLanes c.pool inst = none := by simp [Source.fieldLanes, hs]
    rw [hl]
    obtain ⟨hf, he⟩ := h.openRead_whole i inst.ty (Source.fieldType c.pool inst)
    exact ⟨_, hf, he, Function.update_self ..⟩
  | true =>
    obtain ⟨a, b, mask, elem, hm, hv, hty, hl⟩ := hc.splat hi hin hs
    rw [hl]
    exact h.openRead_lane hc.int hm hv hty _

end OpenRead

theorem Follows.declareGlobal (h : d.Follows c H E w) {g : GlobalId} {decl : GlobalDecl}
    (hd : c.source.program.globals[g]? = some decl) :
    (d.declareGlobal g decl).2.Follows c H E w ∧ d.Evolves c w w (d.declareGlobal g decl).2 := by
  have hgl := d.program.globals_getOrAddGlobal decl
  refine h.of_builder rfl hgl ?_ (fun g' copy hc => ?_) (fun _ _ hv => .inl hv) rfl
  · show _ <+: (d.program.getOrAddGlobal decl).2.decls
    rw [Program.decls_getOrAddGlobal]
  · rw [declareGlobal_globals, List.lookup_cons] at hc
    by_cases hg : g' = g
    · subst hg
      rw [beq_self_eq_true] at hc
      obtain rfl := Option.some.inj hc
      obtain ⟨decl', hd', hn⟩ := d.program.getOrAddGlobal_name decl
      refine ⟨(List.getElem?_eq_some_iff.mp hd').1, ?_⟩
      show (d.program.getOrAddGlobal decl).2.globalName? (d.program.getOrAddGlobal decl).1 = _
      rw [Program.globalName?, Program.globalName?, hd', hd, Option.map_some, Option.map_some,
        hn]
    · rw [beq_false_of_ne hg] at hc
      obtain ⟨hlt, hn⟩ := h.simulates.globals g' copy hc
      exact ⟨Nat.lt_of_lt_of_le hlt hgl.length_le,
        (Machine.globalName?_extends hgl hlt).trans hn⟩

theorem ret_insts (d : Draft) : d.ret.builder.func.insts = d.builder.func.insts := by
  unfold Draft.ret Builder.terminateIfOpen
  split <;> rfl

theorem ret_instsOf (d : Draft) : d.ret.builder.func.instsOf d.ret.entry
    = d.builder.func.instsOf d.entry := by
  unfold Draft.ret Builder.terminateIfOpen
  split
  · rfl
  · exact Function.setTerminator_instsOf ..

theorem Follows.ret (h : d.Follows c H E w) : d.ret.Follows c H E w ∧ d.Evolves c w w d.ret := by
  have hi := d.ret_insts
  refine ⟨⟨h.straight.ret, h.simulates.of_insts h.straight hi List.prefix_rfl List.prefix_rfl
    d.ret_instsOf h.simulates.globals (fun _ _ hv => .inl hv) rfl⟩, ?_, fun _ _ => rfl, fun e he => ?_,
    ?_, List.prefix_rfl, fun y hy => hy.of_insts h.straight hi List.prefix_rfl List.prefix_rfl⟩
  · rw [Function.numInsts, Function.numInsts, hi]
  · rwa [Loads, hi]
  · rw [ret_instsOf]

theorem Follows.declare (h : d.Follows c H E w) (decl : FunctionDecl) :
    (d.declare decl).2.Follows c H E w ∧ d.Evolves c w w (d.declare decl).2 := by
  have hg : (d.declare decl).2.program.globals = d.program.globals :=
    d.program.globals_declare decl
  refine h.of_builder rfl (hg ▸ List.prefix_rfl) (d.program.decls_declare decl)
    (fun g copy hc => ?_) (fun _ _ hv => .inl hv) rfl
  rw [Program.numGlobals, Program.globalName?, hg]
  exact h.simulates.globals g copy hc

end Draft

namespace Emission

variable {α : Type} {c : Scenario α} {s t : Emission} {E : Scope → List (Effect α)}
  {W : Scope → InstId → Datum α}

def Mirrors (c : Scenario α) (E : Scope → List (Effect α)) (s : Emission) : Prop :=
  s.types = c.pool ∧ ∃ W, s.Tracks c E W

/-- A step on the way to an operand keeps all parts on the run. -/
theorem ReadStep.mirrors (hs : ReadStep c.source (.carrying fun _ i => i ∈ c.order) s t)
    (hc : c.Consistent) (h : s.Mirrors c E) : t.Mirrors c E := by
  obtain ⟨ht, W, hW⟩ := h
  cases hs with
  | report _ => exact ⟨ht, W, hW.congr rfl rfl rfl⟩
  | declareGlobal hd _ hde =>
    exact ⟨ht, W, hW.setDraft_same hd ((hW.parts _ _ hd).declareGlobal hde)⟩
  | declare hd _ => exact ⟨ht, W, hW.setDraft_same hd ((hW.parts _ _ hd).declare _)⟩
  | @openRead owner dst i inst d hd hn hin hlt hi =>
    obtain ⟨w', hf, he, hv⟩ := (hW.parts _ _ hd).openRead hc hi hin owner dst
    refine ⟨ht, Function.update W dst w', ?_⟩
    have hr : (d.openRead i inst.ty (Source.fieldType c.pool inst)
        (Source.fieldLanes c.pool inst)).1.1 = d.builder.func.numInsts := d.openRead_read ..
    let slot : ValueSlot := ⟨owner, dst, i, Source.fieldType c.pool inst,
      Source.isSplat c.pool inst, d.builder.func.numInsts⟩
    have hse : (s.setDraft dst (d.openRead i inst.ty (Source.fieldType c.pool inst)
        (Source.fieldLanes c.pool inst)).2).Tracks c E (Function.update W dst w') := by
      refine hW.setDraft hd (fun _ _ => rfl) (fun x hx => Function.update_of_ne hx ..) ?_ ?_
      · rw [Function.update_self]
        exact he
      · rw [Function.update_self]
        exact hf
    have hl : (d.openRead i inst.ty (Source.fieldType c.pool inst)
        (Source.fieldLanes c.pool inst)).2.Loads d.builder.func.numInsts :=
      ⟨_, _, d.openRead_getElem? .., rfl⟩
    have hg : (d.openRead i inst.ty (Source.fieldType c.pool inst)
        (Source.fieldLanes c.pool inst)).2.Gets c (Function.update W dst w' slot.dst) slot := by
      refine ⟨hl, ?_⟩
      rw [Function.update_self]
      exact hv
    unfold Emission.openRead
    rw [ht]
    simp only [hr]
    exact hse.addValue hlt (getElem?_setDraft_self hd) hg

theorem Reads.mirrors (hr : Reads c.source (.carrying fun _ i => i ∈ c.order) s t) (hc : c.Consistent)
    (h : s.Mirrors c E) : t.Mirrors c E := by
  induction hr with
  | refl => exact h
  | tail _ hs ih => exact hs.mirrors hc ih

def Clean (s : Emission) : Prop := ∀ p ∈ s.problems, ∃ name, p = .sinkNotFound name

section Denotes

variable {src : Source} {scope : Scope} {d : Draft} {v r : Value} {H : Place → Prop}
  {effects : List (Effect α)} {w : InstId → Datum α}

theorem Denotes.inRange (h : Denotes c.source s scope v r) (hd : s.drafts[scope.val]? = some d)
    (hs : d.Simulates c H effects w) : (∀ j, r = .inst j → j < d.builder.func.numInsts) ∧
      ∀ g, r = .global g → g < d.program.numGlobals := by
  have hi : ∀ {e : InstId}, e < d.builder.func.numInsts →
      (∀ j, Value.inst e = .inst j → j < d.builder.func.numInsts) ∧
        ∀ g, Value.inst e = .global g → g < d.program.numGlobals := by
    intro e he
    exact ⟨fun j hj => Value.inst.inj hj ▸ he, fun g hg => (by cases hg)⟩
  have hc : ∀ k : Constant, (∀ j, Value.const k = .inst j → j < d.builder.func.numInsts) ∧
      ∀ g, Value.const k = .global g → g < d.program.numGlobals :=
    fun k => ⟨fun j hj => (by cases hj), fun g hg => (by cases hg)⟩
  cases h with
  | const k => exact hc k
  | global hd' hg =>
    obtain rfl := Option.mem_unique hd hd'
    refine ⟨fun j hj => (by cases hj), fun g' hg' => ?_⟩
    obtain rfl := Value.global.inj hg'
    exact (hs.globals _ _ hg).1
  | copy _ hd' hr =>
    obtain rfl := Option.mem_unique hd hd'
    obtain ⟨e, rfl, he, -⟩ := hs.copies _ _ (mem_of_lookup hr)
    exact hi he
  | read _ _ hd' hr =>
    obtain rfl := Option.mem_unique hd hd'
    obtain ⟨e, rfl, he, -⟩ := hs.taken _ _ hr
    exact hi he
  | undefined _ _ _ | backward _ _ _ _ => exact hc _

/-- An operand of a part has the value that it stands for in the source. -/
theorem reflects (hc : s.Clean) (hd : s.drafts[scope.val]? = some d)
    (hs : d.Simulates c H effects w) :
    Reflects c.source s scope d.program c.eval (c.evalIn d w) := by
  have hpr : ∀ {p : Problem}, p ∈ s.problems → (∀ name, p ≠ .sinkNotFound name) → False := by
    intro p hp hne
    obtain ⟨name, rfl⟩ := hc p hp
    exact hne name rfl
  have hgl : ∀ {g copy : GlobalId} {d' : Draft}, s.drafts[scope.val]? = some d' →
      d'.globals.lookup g = some copy →
      d.program.globalName? copy = c.source.program.globalName? g := by
    intro g copy d' hd' hg
    obtain rfl := Option.mem_unique hd hd'
    exact (hs.globals g copy hg).2
  refine ⟨fun v r h => ?_, fun v r h => ?_, fun f copy h => ?_⟩
  · cases h with
    | const k => rfl
    | global hd' hg =>
      simp only [Scenario.evalIn, Scenario.eval, Machine.operand, hgl hd' hg]
    | copy _ hd' hr =>
      obtain rfl := Option.mem_unique hd hd'
      obtain ⟨e, rfl, -, he⟩ := hs.copies _ _ (mem_of_lookup hr)
      exact he
    | read _ _ hd' hr =>
      obtain rfl := Option.mem_unique hd hd'
      obtain ⟨e, rfl, -, he⟩ := hs.taken _ _ hr
      exact he
    | undefined _ _ hp | backward _ _ _ hp => exact (hpr hp (by simp)).elim
  · cases h with
    | const k => rfl
    | global hd' hg => exact hgl hd' hg
    | copy _ hd' hr =>
      obtain rfl := Option.mem_unique hd hd'
      obtain ⟨e, rfl, -, -⟩ := hs.copies _ _ (mem_of_lookup hr)
      rfl
    | read _ _ hd' hr =>
      obtain rfl := Option.mem_unique hd hd'
      obtain ⟨e, rfl, -, -⟩ := hs.taken _ _ hr
      rfl
    | undefined _ _ _ => rfl
    | backward _ _ _ _ => rfl
  · obtain ⟨d', decl, decl', hd', hde, hde', hn⟩ := h
    obtain rfl := Option.mem_unique hd hd'
    rw [hde, hde', Option.map_some, Option.map_some, hn]

/-- A rendered operation names only bindings, declarations and instructions that its part has. -/
theorem Renders.inRange {op op' : Operation} (h : Renders c.source s scope op op')
    (hop : op.isPhi = false) (hd : s.drafts[scope.val]? = some d)
    (hs : d.Simulates c H effects w) :
    d.program.Holds op' ∧ ∀ j, .inst j ∈ op'.operands → j < d.builder.func.numInsts := by
  have ho : ∀ r ∈ op'.operands, (∀ j, r = .inst j → j < d.builder.func.numInsts) ∧
      ∀ g, r = .global g → g < d.program.numGlobals := by
    intro r hr
    obtain ⟨v, -, hv⟩ := exists_of_forall₂ (h.operands hop).flip hr
    exact Denotes.inRange hv hd hs
  have hadd : ∀ {a b : Address} {g : GlobalId}, RendersAddress c.source s scope a b →
      b.global? = some g → g < d.program.numGlobals := by
    intro a b g hab hb
    cases hab with
    | member path hc | element hc _ =>
      obtain rfl := Option.some.inj hb
      exact (hc.inRange hd hs).2 _ rfl
  refine ⟨⟨fun g hg => (ho _ hg).2 g rfl, fun addr g had hg => ?_, fun callee args heq => ?_⟩,
    fun j hj => (ho _ hj).1 j rfl⟩
  · cases h with
    | plain hp _ =>
      rw [Operation.address?_withOperands hp] at had
      cases had
    | load ha | store _ ha =>
      obtain rfl := Option.some.inj had
      exact hadd ha hg
    | phi _ _ | call _ _ => cases had
  · cases h with
    | @plain _ vs hp _ =>
      cases op <;> first | cases heq | cases hp
    | call hca _ =>
      obtain ⟨d', decl, decl', hd', -, hde', -⟩ := hca
      obtain rfl := Option.mem_unique hd hd'
      cases heq
      exact (List.getElem?_eq_some_iff.mp hde').1
    | load _ | store _ _ | phi _ _ => cases heq

end Denotes

section Copied

variable {scope : Scope} {d : Draft} {i : InstId} {inst : Inst} {pred : Option BlockId}

/-- A copy that computes what its source computes keeps the run, and adds its effect. -/
theorem Tracks.appendCopy (h : s.Tracks c E W) (hd : s.drafts[scope.val]? = some d)
    {ty : TypeId} {op : Operation} {effect : Option (Effect α)} (hop : d.program.Holds op)
    (ho : ∀ j, .inst j ∈ op.operands → j < d.builder.func.numInsts)
    (hc : c.machine.compute d.program (c.evalIn d (W scope)) c.memory ⟨op, ty, d.entry⟩
      = c.values i)
    (hr : ∀ y ∈ c.machine.reads d.program (c.evalIn d (W scope)) op, c.Reads y.binding)
    (he : c.machine.effect? d.program (c.evalIn d (W scope)) op = effect)
    (hp : ∀ x ∈ effect, c.isPublic x = true) :
    ∃ W', (s.setDraft scope ((d.append d.entry ty op).2.addCopy i
      (.inst (d.append d.entry ty op).1))).Tracks c
        (Function.update E scope (E scope ++ effect.toList)) W' := by
  have hfi : ∀ y v, c.machine.effect? d.program (c.evalIn d (W scope)) op = some (.write y v) →
      y.binding ∈ c.records → v = c.memory.read y := by
    intro y v heq hy
    have := hp _ (he ▸ heq)
    simp [Scenario.isPublic, hy] at this
  have ha : ((d.append d.entry ty op).2.addCopy i (.inst (d.append d.entry ty op).1)).Follows c
        (c.Hands scope) _ (Function.update (W scope) d.builder.func.numInsts (c.values i)) ∧
      d.Evolves c (W scope) _ ((d.append d.entry ty op).2.addCopy i
        (.inst (d.append d.entry ty op).1)) :=
    (h.parts _ d hd).append (d.gains_copy ty op i)
      ⟨hop, ho, fun _ => hc, fun y hy => .inl (hr y hy)⟩ hfi
  have hf : effect.toList.filter c.isPublic = effect.toList :=
    List.filter_eq_self.mpr fun x hx => hp x (Option.mem_toList.mp hx)
  rw [he, hf] at ha
  refine ⟨Function.update W scope (Function.update (W scope) d.builder.func.numInsts (c.values i)),
    h.setDraft hd (fun x hx => Function.update_of_ne hx ..) (fun x hx => Function.update_of_ne hx ..)
      ?_ ?_⟩
  · rw [Function.update_self]
    exact ha.2
  · rw [Function.update_self, Function.update_self]
    exact ha.1

/-- A read of an element is on the run: its index selects what the load of the source reads. -/
theorem Tracks.openElement (h : s.Tracks c E W) (hc : c.Consistent)
    (hcl : s.Clean) (hd : s.drafts[scope.val]? = some d) (hi : i ∈ c.order)
    (hin : c.source.func.insts[i]? = some inst) {g : GlobalId} {path : List Step}
    (hop : inst.op = .load (.element g path)) {index r : Value}
    (hdy : path.filterMap Step.dynamic? = [index]) {decl : GlobalDecl}
    (hde : c.source.program.globals[g]? = some decl) {len : Nat}
    (hle : (c.pool.memberPath decl.ty (Step.leading path)).bind c.pool.lengthOf = some len)
    (hr : Denotes c.source s scope index r) {owner : Scope} (hlt : owner < scope) {ty : TypeId}
    (hty : ty < c.pool.size) : ∃ W', (s.openElement i d
      (.ofRead owner scope g path ty len d.builder.func.numInsts r)).Tracks c E W' := by
  have hf := h.parts _ d hd
  have hel : d.openElement i ty = (d.append d.entry ty (.load .pending)).2.addCopy i
      (.inst d.builder.func.numInsts) := by
    rw [← hf.straight.current]
    rfl
  show ∃ W', Tracks c E W' { s.setDraft scope (d.openElement i ty) with
    ledger := s.ledger.addArray (.ofRead ..) }
  rw [hel]
  generalize hd' : (d.append d.entry ty (.load .pending)).2.addCopy i
    (.inst d.builder.func.numInsts) = d'
  obtain ⟨w', hw', hf', he⟩ : ∃ w', w' d.builder.func.numInsts = c.values i ∧
      d'.Follows c (c.Hands scope) (E scope) w' ∧ d.Evolves c (W scope) w' d' := by
    refine ⟨Function.update (W scope) d.builder.func.numInsts (c.values i),
      Function.update_self .., ?_⟩
    subst hd'
    exact hf.append_pure (d.gains_copy ty _ i) (Draft.operates_pending ..) rfl
  have hs : (s.setDraft scope d').Tracks c E (Function.update W scope w') := by
    refine h.setDraft hd (fun _ _ => rfl) (fun x hx => Function.update_of_ne hx ..) ?_ ?_
    · rw [Function.update_self]
      exact he
    · rw [Function.update_self]
      exact hf'
  have hre := reflects hcl hd hf.simulates
  have hp := hr.inRange hd hf.simulates
  obtain ⟨hn, hva⟩ := Draft.evalIn_evolves he hp.1 hp.2
  have hind : c.evalIn d' w' r = c.eval index := by
    rw [hva, hre.value _ _ hr]
  have hrea : c.Reads decl.name := by
    refine ⟨i, hi, inst, hin, List.mem_append_right _ ?_⟩
    simp [hop, Program.loadName?, Address.global?, Program.globalName?, hde]
  have hl : d'.builder.func.instsOf d'.entry
      = d.builder.func.instsOf d.entry ++ [d.builder.func.numInsts] := by
    subst hd'
    exact Function.append_instsOf _ _ hf.straight.entry_lt
  have hk : c.machine.index (c.eval index) < len :=
    Machine.index_lt hdy (hc.inBounds i hi inst hin g path decl hop hde) hle
  have hra : c.Ranges (.ofRead owner scope g path ty len d.builder.func.numInsts r) decl :=
    ⟨hde, hrea, Step.leading_eq path ▸ hle, hty⟩
  refine ⟨Function.update W scope w', hs.addArray hlt hra fun x hx => ?_⟩
  obtain rfl := List.mem_singleton.mp hx
  refine ⟨d', getElem?_setDraft_self hd, ?_⟩
  show d'.Picks c (Function.update W scope w' scope) (.ofRead ..) (d.builder.func.numInsts, r)
  rw [Function.update_self]
  refine ⟨?_, fun j hj => ?_, fun g' hg' => ?_, fun name hn' => ?_, ?_, ?_⟩
  · subst hd'
    exact ⟨_, _, Function.append_getElem?_insts_self .., rfl⟩
  · rw [hl]
    exact (List.singleton_sublist.mpr ((hf.straight.listed j).mpr (hp.1 j hj))).append
      (.refl _)
  · exact Nat.lt_of_lt_of_le (hp.2 g' hg') he.bindings.length_le
  · have hn' : d'.program.operandName? r = some name := hn'
    rw [hn, hre.name _ _ hr] at hn'
    refine ⟨i, hi, inst, hin, List.mem_append_left _ (List.mem_filterMap.mpr ⟨index, ?_, hn'⟩)⟩
    rw [hop]
    show index ∈ path.filterMap Step.dynamic?
    rw [hdy]
    exact List.mem_singleton.mpr rfl
  · show c.machine.index (c.evalIn d' w' r) < len
    rw [hind]
    exact hk
  · show w' d.builder.func.numInsts = (c.arrayDatum (.ofRead ..)).part
      (c.machine.index (c.evalIn d' w' r))
    rw [hw', hind, c.part_arrayDatum hk, ← hc.computed i hi inst hin]
    simp only [Machine.compute, hop, Machine.place?, Scenario.element, Program.globalName?,
      ArraySlot.ofRead, hde, Option.map_some, Option.elim_some, Machine.map_position hdy,
      List.map_map]

theorem effectOf_eq (hi : c.source.func.insts[i]? = some inst) :
    c.effectOf i = c.machine.effect? c.source.program c.eval inst.op := by
  rw [Scenario.effectOf, Machine.effectOf, hi]
  rfl

theorem Tracks.appendRendered (h : s.Tracks c E W) (hc : c.Consistent)
    (hcl : s.Clean) (hd : s.drafts[scope.val]? = some d) (hi : i ∈ c.order)
    (hin : c.source.func.insts[i]? = some inst) {op : Operation}
    (hop : Renders c.source s scope inst.op op) :
    ∃ W', (s.setDraft scope ((d.append d.entry inst.copyType op).2.addCopy i
      (.inst (d.append d.entry inst.copyType op).1))).Tracks c
        (Function.update E scope (E scope ++ (c.effectOf i).toList)) W' := by
  have hp := hc.not_phi i hi inst hin
  have hs := (h.parts _ d hd).simulates
  have hr := reflects hcl hd hs
  obtain ⟨hh, ho⟩ := hop.inRange hp hd hs
  refine h.appendCopy hd hh ho ?_ (fun y hy => ?_) ?_ fun x hx => ?_
  · rw [hop.compute_eq hp hr fun _ _ => rfl]
    exact hc.computed i hi inst hin
  · have hy := Machine.binding_of_mem_reads hy
    rw [hop.readNames_eq hp hr] at hy
    exact ⟨i, hi, inst, hin, hy⟩
  · rw [hop.effect?_eq hr, effectOf_eq hin]
  · exact hc.isPublic hin hx

/-- Copying an instruction keeps all parts on the run, and adds its effect to its own part. -/
theorem Copied.mirrors
    (hco : Copied c.source (.carrying fun _ i => i ∈ c.order) scope pred i inst s t)
    (hc : c.Consistent) (hcl : t.Clean) (hi : i ∈ c.order)
    (hin : c.source.func.insts[i]? = some inst) (h : s.Mirrors c E) :
    t.Mirrors c (Function.update E scope (E scope ++ (c.effectOf i).toList)) := by
  have hq : ∀ x, c.effectOf i = none →
      Function.update E x (E x ++ (c.effectOf i).toList) = E := by
    intro x hn
    rw [hn, Option.toList_none, List.append_nil, Function.update_eq_self]
  cases hco with
  | @emitted u d op hre hd hop _ _ =>
    obtain ⟨ht, W, hW⟩ := hre.mirrors hc h
    have hcl : u.Clean := hcl
    have ha := hW.appendRendered hc hcl hd hi hin hop
    rw [← (hW.parts _ d hd).straight.current] at ha
    exact ⟨ht, ha⟩
  | known hop _ _ _ _ _ | missing hop _ _ _ _ _ =>
    have hph := hc.not_phi i hi inst hin
    rw [hop] at hph
    cases hph
  | unsupported _ _ _ hpr _ =>
    obtain ⟨name, hna⟩ := hcl _ hpr
    cases hna
  | @raised u v d e owner g copy path r hop _ _ hre he hg hr' hd hr =>
    obtain ⟨ht, W, hW⟩ := hre.mirrors hc h
    have hn : c.effectOf i = none := by rw [effectOf_eq hin, hop]; rfl
    have hcl : u.Clean := fun p hp => hcl p (hr'.keeps.problems p hp)
    have hren : Renders c.source u owner inst.op (.load (.member copy path)) := by
      rw [hop]
      exact .load (.member path hg)
    have hl := hW.appendRendered hc hcl he hi hin hren
    rw [hq owner hn, show inst.copyType = inst.ty by rw [Inst.copyType, hop]] at hl
    -- The load is done in the earlier part, and its result is read back from there.
    obtain ⟨ht', W', hW'⟩ := hr'.mirrors hc ⟨ht, hl⟩
    rw [hq scope hn]
    refine ⟨ht', W', hW'.setDraft_same hd ?_⟩
    have hf := hW'.parts _ d hd
    refine hf.of_builder rfl List.prefix_rfl List.prefix_rfl hf.simulates.globals
      (fun j v hv => ?_) rfl
    rcases List.mem_cons.mp hv with heq | hv
    · obtain ⟨rfl, rfl⟩ := Prod.mk.inj heq
      exact .inr (hf.simulates.taken _ _ hr)
    · exact .inl hv
  | @array u d owner g decl path index r len hop ho hlt hdy hde hle hre hind hd =>
    obtain ⟨ht, W, hW⟩ := hre.mirrors hc h
    rw [hq scope (by rw [effectOf_eq hin, hop]; rfl)]
    rw [ht] at hle
    have hcl : u.Clean := hcl
    exact ⟨ht, hW.openElement hc hcl hd hi hin hop hdy hde hle hind hlt (hc.typed i hi inst hin)⟩
  | skipped hop hre =>
    rw [hq scope ?_]
    · exact hre.mirrors hc h
    · rw [effectOf_eq hin]
      rcases hop with ⟨v, args, hop⟩ | ⟨v, hop, -⟩ <;> rw [hop] <;> rfl

theorem Copied.problems {allowed : Permit} {src : Source}
    (hc : Copied src allowed scope pred i inst s t) : ∀ p ∈ s.problems, p ∈ t.problems := by
  intro p hp
  cases hc with
  | emitted hr _ _ _ _ | known _ _ _ hr _ _ | missing _ _ _ hr _ _ | unsupported _ _ hr _ _ =>
    exact hr.keeps.problems p hp
  | raised _ _ _ hr _ _ hr' _ _ =>
    exact hr'.keeps.problems p (hr.keeps.problems p hp)
  | array _ _ _ _ _ _ hr _ _ | skipped _ hr => exact hr.keeps.problems p hp

theorem Mirrors.congr {E' : Scope → List (Effect α)} (h : s.Mirrors c E)
    (hE : ∀ x : Scope, x.val < s.drafts.size → E' x = E x) : s.Mirrors c E' := by
  obtain ⟨ht, W, hW⟩ := h
  refine ⟨ht, W, fun x d hd => ?_, hW.values, hW.arrays⟩
  rw [hE x (Array.getElem?_eq_some_iff.mp hd).1]
  exact hW.parts x d hd

/-- All parts follow the run up to some instructions, unless there are problems. -/
def Abreast (c : Scenario α) (n : Nat) (done : List InstId) (s : Emission) : Prop :=
  s.drafts.size = n ∧ (s.Clean → s.Mirrors c (c.script done))

end Copied

end Emission

namespace Source

open Emission

variable {α : Type} {c : Scenario α} {s : Emission} {n : Nat}

variable {done : List InstId} {ctx : Coverage}

/-- Visiting an instruction takes all parts a step further along the run, unless there are problems.
-/
theorem sat_visitInst_mirrors (hc : c.Consistent)
    (hct : ∀ x : Scope, x.val < n → ctx.scopes.contains x = true) {i : InstId} (hi : i ∈ c.order)
    (pred : Option BlockId) (h : s.Abreast c n done) :
    Act.Sat Act.Any (c.source.visitInst ctx pred i) s fun _ t => t.Abreast c n (done ++ [i]) := by
  obtain ⟨hsi, h⟩ := h
  have hsa : ∀ x : Scope, c.source.table.instScope i ≠ some x →
      c.script (done ++ [i]) x = c.script done x := by
    intro x hx
    rw [Scenario.script, List.filterMap_append, List.filterMap_cons, if_neg hx]
    exact List.append_nil _
  unfold visitInst
  split
  · next scope hsc =>
    split
    · have hr : ∀ inst, c.source.func.insts[i]? = some inst →
          c.source.MayRead (.carrying fun _ i => i ∈ c.order) s scope pred i inst := by
        intro inst hin
        refine ⟨fun v hv => ⟨fun j owner hj _ _ => ?_, fun _ _ => trivial⟩, fun _ _ _ _ _ _ => hi,
          trivial, trivial, fun _ => trivial⟩
        exact hc.operand i hi inst hin j (hj ▸ (mem_resolved hv).1)
      refine (sat_copyInst hr (.inl Act.tolerant_any)).mono fun _ t ht => ?_
      obtain ⟨inst, d, hin, hd, hco⟩ := ht
      have hg := hco.grows
      refine ⟨hg.size.trans ((size_setDraft ..).trans hsi), fun hcl => ?_⟩
      have hs : (s.setDraft scope (d.noteVisit pred i)).Mirrors c (c.script done) := by
        obtain ⟨hty, W, hW⟩ := h fun p hp => hcl p (hco.problems p hp)
        have hf := hW.parts _ d hd
        exact ⟨hty, W, hW.setDraft_same hd (hf.of_builder rfl List.prefix_rfl
          List.prefix_rfl hf.simulates.globals (fun _ _ hv => .inl hv) rfl)⟩
      have hscr : c.script (done ++ [i]) = Function.update (c.script done) scope
          (c.script done scope ++ (c.effectOf i).toList) := by
        funext x
        by_cases hx : x = scope
        · subst hx
          rw [Function.update_self, Scenario.script, List.filterMap_append, List.filterMap_cons,
            if_pos hsc]
          cases c.effectOf i <;> rfl
        · rw [Function.update_of_ne hx, hsa x fun heq => hx (Option.mem_unique heq hsc)]
      rw [hscr]
      exact hco.mirrors hc hcl hi hin hs
    · next ho =>
      refine ⟨hsi, fun hcl => (h hcl).congr fun x hx => hsa x fun heq => ?_⟩
      obtain rfl := Option.mem_unique hsc heq
      exact ho (hct _ (hsi ▸ hx))
  · next hn =>
    refine ⟨hsi, fun hcl => (h hcl).congr fun x _ => hsa x fun heq => ?_⟩
    rw [hn] at heq
    cases heq

theorem sat_visitInsts_mirrors (hc : c.Consistent)
    (hct : ∀ x : Scope, x.val < n → ctx.scopes.contains x = true) (pred : Option BlockId)
    {rest : List InstId} (hr : ∀ i ∈ rest, i ∈ c.order) (h : s.Abreast c n done) :
    Act.Sat Act.Any (rest.forM (c.source.visitInst ctx pred)) s fun _ t =>
      t.Abreast c n (done ++ rest) := by
  induction rest generalizing done s with
  | nil => simpa using h
  | cons i rest ih =>
    show Act.Sat Act.Any (c.source.visitInst ctx pred i >>= fun _ =>
      rest.forM (c.source.visitInst ctx pred)) s _
    rw [Act.sat_bind]
    refine (sat_visitInst_mirrors hc hct (hr i List.mem_cons_self) pred h).mono fun _ t ht => ?_
    rw [List.append_cons]
    exact ih (fun j hj => hr j (List.mem_cons_of_mem _ hj)) ht

theorem sat_ret_mirrors (h : s.Abreast c n done) (scopes : List Scope) :
    Act.Sat Act.Any (scopes.forM fun scope => Emission.updateDraft scope Draft.ret) s fun _ t =>
      t.Abreast c n done := by
  refine Act.sat_forM h fun scope _ s h => ?_
  rw [sat_updateDraft]
  refine ⟨fun d hd => ⟨(size_setDraft ..).trans h.1, fun hc => ?_⟩, fun _ => trivial⟩
  obtain ⟨ht, W, hW⟩ := h.2 hc
  obtain ⟨hf, he⟩ := (hW.parts _ d hd).ret
  exact ⟨ht, W, hW.setDraft hd (fun _ _ => rfl) (fun _ _ => rfl) he hf⟩

theorem sat_copyAll_mirrors (hc : c.Consistent)
    (hr : c.source.func.terminator? c.source.func.entry = some .ret) (tree : PostDominators)
    {scopes : List String} (hsc : scopes.length ≤ Scope.limit) :
    Act.Sat Act.Any (c.source.copyAll tree) (Emission.start c.source c.pool scopes) fun _ t =>
      t.Abreast c scopes.length c.order := by
  have hs : (Emission.start c.source c.pool scopes).drafts.size = scopes.length := by
    simp [Emission.start]
  have hw : Route.itinerary ⟨c.source.func, tree⟩ = .ret c.source.func.entry := by
    obtain ⟨body, hb, he⟩ := Option.bind_eq_some_iff.mp hr
    simp [Route.itinerary, Route.itineraryWithin, hb, he]
  have hst : (Emission.start c.source c.pool scopes).Abreast c scopes.length [] :=
    ⟨hs, fun _ => ⟨rfl, fun _ _ => .blank, tracks_start ..⟩⟩
  have hco : ∀ x : Scope, x.val < scopes.length →
      (ScopeSet.first scopes.length).contains x = true :=
    fun x hx => (ScopeSet.contains_first hsc).mpr hx
  unfold copyAll
  simp only [Act.sat_bind, Act.sat_get]
  rw [show c.source.func.entry = (Route.mk c.source.func tree).func.entry from rfl,
    Route.walk_eq_walk, hw, hs, Itinerary.walk, Act.sat_bind]
  refine (sat_visitInsts_mirrors hc hco none (fun _ hi => hi) hst).mono fun _ t ht => ?_
  exact sat_ret_mirrors ht _

end Source

end Stagewise
