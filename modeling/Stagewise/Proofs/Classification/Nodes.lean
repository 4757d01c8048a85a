import Stagewise.Proofs.Scope.Set
import Stagewise.Proofs.Splitting
import Stagewise.Proofs.Ssa

namespace Stagewise

theorem orDangling_eq_ok {α : Type} {o : Option α} {a : α} (h : orDangling o = .ok a) :
    o = some a := by
  cases o with
  | none => exact absurd h (by simp [orDangling])
  | some b => exact congrArg some (Except.ok.inj h)

theorem orDangling_eq_error {α : Type} {o : Option α} {e : Fault}
    (h : orDangling o = .error e) : e = .dangling ∧ o = none := by
  cases o with
  | none => exact ⟨(Except.error.inj h).symm, rfl⟩
  | some a => cases h

theorem bind_eq_error {α β : Type} {x : Except Fault α} {f : α → Except Fault β} {e : Fault}
    (h : x >>= f = .error e) : x = .error e ∨ ∃ a, x = .ok a ∧ f a = .error e := by
  cases x with
  | error e' => exact .inl (congrArg Except.error (Except.error.inj h))
  | ok a => exact .inr ⟨a, rfl, h⟩

def Value.node? : Value → Option Node
  | .inst i => some (.inst i)
  | .global g => some (.global g)
  | .const _ => none

/-- What an operation is placed by: its operands, the binding that a load reads, and for each value
that a phi may take the block from which it takes it. A read of an unknown place and a call of a
computed function depend on nothing. -/
def Operation.dependencies : Operation → List Node
  | .load addr => addr.global?.elim [] fun g => .global g :: addr.indexValues.filterMap Value.node?
  | .phi incoming => incoming.flatMap fun e => e.2.node?.toList ++ [.block e.1]
  | .call (.indirect _) _ => []
  | op => op.operands.filterMap Value.node?

namespace UsageFlags

theorem contains_iff {x y : UsageFlags} : x.contains y = true ↔ x.bits ||| y.bits = x.bits := by
  have hb : ∀ a b : Bool, (a && b) = b ↔ (a || b) = a := by decide
  rw [contains, beq_iff_eq]
  constructor <;> intro h <;> refine BitVec.eq_of_getLsbD_eq fun k _ => ?_
  · rw [BitVec.getLsbD_or, ← hb, ← BitVec.getLsbD_and, h]
  · rw [BitVec.getLsbD_and, hb, ← BitVec.getLsbD_or, h]

theorem isEmpty_union (x y : UsageFlags) : (x.union y).isEmpty = (x.isEmpty && y.isEmpty) := by
  rw [Bool.eq_iff_iff, Bool.and_eq_true]
  simp only [isEmpty, union, beq_iff_eq]
  constructor
  · intro h
    have hb := fun k => congrArg (BitVec.getLsbD · k) h
    simp only [BitVec.getLsbD_or, BitVec.ofNat_eq_ofNat, BitVec.getLsbD_zero,
      Bool.or_eq_false_iff] at hb
    exact ⟨BitVec.eq_of_getLsbD_eq fun k _ => by simpa using (hb k).1,
      BitVec.eq_of_getLsbD_eq fun k _ => by simpa using (hb k).2⟩
  · rintro ⟨hx, hy⟩
    rw [hx, hy]
    rfl

theorem isEmpty_of_contains {x y : UsageFlags} (h : x.contains y = true)
    (hy : y.isEmpty = false) : x.isEmpty = false := by
  have hu : x.union y = x := congrArg UsageFlags.mk (contains_iff.mp h)
  rw [← hu, isEmpty_union, hy, Bool.and_false]

theorem contains_of_isEmpty (x : UsageFlags) {y : UsageFlags} (hy : y.isEmpty = true) :
    x.contains y = true := by
  have hb : y.bits = 0 := by simpa [isEmpty] using hy
  simp [contains, hb]

end UsageFlags

namespace Classification

variable {p : Program} {f : Function} {t t' : Classification} {n : Node}

structure Fits (t : Classification) (p : Program) (f : Function) : Prop where
  insts : t.insts.size = f.numInsts
  globals : t.globals.size = p.numGlobals
  blocks : t.blocks.size = f.numBlocks
  terminators : t.terminators.size = f.numBlocks
  forced : t.forced.size = f.numBlocks
  guards : t.guards.size = f.numBlocks
  pinned : t.pinned.size = f.numInsts

def info (t : Classification) : Node → ValueInfo
  | .inst i => t.inst i
  | .global g => t.global g
  | .block b => t.block b
  | .terminator b => t.terminator b

def fixes (t : Classification) : Node → Bool
  | .inst i => t.isPinned i
  | _ => false

def Has (t : Classification) : Node → Prop
  | .inst i => i < t.insts.size
  | .global g => g < t.globals.size
  | .block b => b < t.blocks.size
  | .terminator b => b < t.terminators.size

def setInfo (t : Classification) : Node → ValueInfo → Classification
  | .inst i => t.setInst i
  | .global g => t.setGlobal g
  | .block b => t.setBlock b
  | .terminator b => t.setTerminator b

theorem getD_setIfInBounds {α : Type} (xs : Array α) (i j : Nat) (x y : α) :
    (xs.setIfInBounds i x)[j]?.getD y = if j = i ∧ i < xs.size then x else xs[j]?.getD y := by
  rw [Array.getElem?_setIfInBounds]
  by_cases hj : i = j
  · subst hj
    by_cases hlt : i < xs.size <;> simp [hlt]
  · have hj' : ¬j = i := fun h => hj h.symm
    simp [hj, hj']

theorem info_setInfo_self (x : ValueInfo) (h : t.Has n) : (t.setInfo n x).info n = x := by
  cases n <;> exact (getD_setIfInBounds ..).trans (if_pos ⟨rfl, h⟩)

theorem info_setInfo_of_ne (x : ValueInfo) {m : Node} (h : m ≠ n) :
    (t.setInfo n x).info m = t.info m := by
  cases n <;> cases m <;>
    first | rfl | exact (getD_setIfInBounds ..).trans (if_neg fun he => h (by rw [he.1]))

theorem Fits.setInfo (h : t.Fits p f) (n : Node) (x : ValueInfo) : (t.setInfo n x).Fits p f := by
  obtain ⟨h1, h2, h3, h4, h5, h6, h7⟩ := h
  cases n <;> constructor <;> simpa [Classification.setInfo, setInst, setGlobal, setBlock,
    setTerminator]

def SamePlaces (t t' : Classification) : Prop := ∀ n, (t'.info n).scope = (t.info n).scope

theorem SamePlaces.refl (t : Classification) : t.SamePlaces t := fun _ => rfl

theorem SamePlaces.trans {a b c : Classification} (h : a.SamePlaces b) (h' : b.SamePlaces c) :
    a.SamePlaces c := fun n => (h' n).trans (h n)

theorem forcedAt_setForced (t : Classification) (b j : BlockId) (x : ScopeSet) :
    (t.setForced b x).forcedAt j = if j = b ∧ b < t.forced.size then x else t.forcedAt j :=
  getD_setIfInBounds ..

theorem guardsAt_addGuards (t : Classification) (x : ScopeSet) (b j : BlockId) :
    (t.addGuards x b).guardsAt j
      = if j = b ∧ b < t.guards.size then (t.guardsAt b).union x else t.guardsAt j :=
  getD_setIfInBounds ..

theorem exists_foldl_addGuards (bs : List BlockId) (x : ScopeSet) (t : Classification) :
    ∃ guards, bs.foldl (addGuards · x) t = { t with guards := guards } ∧
      guards.size = t.guards.size ∧ ∀ j scope, (guards[j]?.getD .empty).contains scope = true ↔
        (t.guardsAt j).contains scope = true ∨
          j < t.guards.size ∧ j ∈ bs ∧ x.contains scope = true := by
  induction bs generalizing t with
  | nil => exact ⟨t.guards, rfl, rfl, fun j scope => by simp [guardsAt]⟩
  | cons b bs ih =>
    obtain ⟨guards, heq, hs, hm⟩ := ih (t.addGuards x b)
    have ha : (t.addGuards x b).guards.size = t.guards.size := by simp [addGuards]
    refine ⟨guards, heq, hs.trans ha, fun j scope => ?_⟩
    rw [hm, guardsAt_addGuards, ha]
    by_cases hj : j = b
    · subst hj
      by_cases hlt : j < t.guards.size
      · simp only [hlt, and_self, if_true, ScopeSet.contains_union, Bool.or_eq_true, List.mem_cons,
          true_or, true_and]
        tauto
      · simp [hlt]
    · simp [hj]

def Knows (t : Classification) (w : Work) : Prop :=
  t.fixes w.node = true ∨ (t.info w.node).flags.contains w.flags = true ∧
    ∀ b, w.node = .block b → (w.force.diff (t.forcedAt b)).isEmpty = true

end Classification

namespace Work

theorem ofValue_eq (flags : UsageFlags) (v : Value) :
    Work.ofValue flags v = v.node?.toList.map (Work.reach · flags) := by
  cases v <;> rfl

theorem ofValues_eq (flags : UsageFlags) (vs : List Value) :
    Work.ofValues flags vs = (vs.filterMap Value.node?).map (Work.reach · flags) := by
  induction vs with
  | nil => rfl
  | cons v vs ih =>
    rw [Work.ofValues, List.flatMap_cons, ofValue_eq, ← Work.ofValues, ih]
    cases v <;> rfl

theorem mem_ofValue {flags : UsageFlags} {v : Value} {w : Work} :
    w ∈ Work.ofValue flags v ↔ ∃ n, v.node? = some n ∧ w = Work.reach n flags := by
  simp [ofValue_eq, eq_comm]

theorem mem_ofValues {flags : UsageFlags} {vs : List Value} {w : Work} :
    w ∈ Work.ofValues flags vs ↔ ∃ n, n ∈ vs.filterMap Value.node? ∧ w = Work.reach n flags := by
  rw [ofValues_eq, List.mem_map]
  exact exists_congr fun n => and_congr_right fun _ => eq_comm

theorem map_node_reach (flags : UsageFlags) (ns : List Node) :
    (ns.map (Work.reach · flags)).map Work.node = ns := by
  rw [List.map_map]
  exact List.map_id ns

end Work

namespace Classifier

variable {c : Classifier} {s s' : State} {t t' : Classification} {w : Work} {work : List Work}
  {i : InstId} {n : Node} {op : Operation} {flags : UsageFlags} {problem : Option Problem}
  {b : BlockId} {e : Fault}

def dependencies (c : Classifier) : Node → List Node
  | .inst i => (c.func.insts[i]?).elim [] (·.op.dependencies)
  | .block b => ((c.func.cond? b).bind Value.node?).toList ++ (c.parents b).map .block
  | .terminator b => ((c.func.cond? b).bind Value.node?).toList
  | .global _ => []

/-- The nodes that a use of a node reaches next: those that it is placed by, and for an instruction
and the end of a block the branches that decide whether it runs. -/
def leads (c : Classifier) : Node → List Node
  | .inst i => (c.func.insts[i]?).elim [] fun inst =>
      inst.op.dependencies ++ (c.parents inst.block).map .terminator
  | .terminator b =>
      ((c.func.cond? b).bind Value.node?).toList ++ (c.parents b).map .terminator
  | n => c.dependencies n

abbrev DependsOn (c : Classifier) (n m : Node) : Prop := m ∈ c.dependencies n

def Broken (c : Classifier) : Node → Prop
  | .inst i => ∀ inst, c.func.insts[i]? = some inst →
      ∃ callee args, inst.op = .call (.direct callee) args ∧ c.program.decls[callee]? = none
  | .global g => c.program.numGlobals ≤ g
  | .block b => c.func.numBlocks ≤ b
  | .terminator b => c.func.numBlocks ≤ b

def trouble? (c : Classifier) (i : InstId) : Option Problem :=
  (c.func.insts[i]?).bind fun inst =>
    match inst.op with
    | .load .pending => some (.unsupportedAddress i)
    | .call (.indirect _) _ => some (.indirectCall i)
    | _ => none

/-- The uses that a node with some uses passes on: its own, except for the arguments of a call. -/
def Passes (c : Classifier) (n : Node) (flags flags' : UsageFlags) : Prop :=
  flags' = flags ∨ ∃ (i : InstId) (inst : Inst) (callee : FuncId) (args : List Value)
    (site : CallSite), n = .inst i ∧ c.func.insts[i]? = some inst ∧
      inst.op = .call (.direct callee) args ∧ flags' = (c.strategy.classifyCall site flags).argFlags

/-- A node learns something from a piece of work, and asks for all that it leads to. -/
structure Learns (c : Classifier) (t : Classification) (w : Work) (work : List Work)
    (t' : Classification) : Prop where
  has : t.Has w.node
  free : t.fixes w.node = false
  info : ∀ n, t'.info n = if n = w.node then
    { t.info n with flags := (t.info n).flags.union w.flags } else t.info n
  pinned : t'.pinned = t.pinned
  fits : ∀ {p f}, t.Fits p f → t'.Fits p f
  forced : ∀ b, t'.forcedAt b = if w.node = .block b ∧ b < t.forced.size then
    (t.forcedAt b).union w.force else t.forcedAt b
  guards : ∀ q x, (t'.guardsAt q).contains x = true ↔ (t.guardsAt q).contains x = true ∨
    q < t.guards.size ∧ ∃ b, w.node = .block b ∧ q ∈ c.parents b ∧
      ((t.forcedAt b).union w.force).contains x = true
  nodes : work.map Work.node = c.leads w.node
  flags : ∀ w' ∈ work, c.Passes w.node ((t.info w.node).flags.union w.flags) w'.flags
  force : ∀ w' ∈ work, w'.force = match w.node, w'.node with
    | .block b, .block _ => (t.forcedAt b).union w.force
    | _, _ => .empty
  looked : ∀ i inst, w.node = .inst i → c.func.insts[i]? = some inst →
    ∃ r, c.instWork i inst.op ((t.info w.node).flags.union w.flags) = .ok r

/-- What looking at a piece of work comes to: the work that it leads to, and the table. A binding
learns its uses even if it has them. -/
inductive Visits (c : Classifier) (t : Classification) (w : Work) :
    List Work → Classification → Prop
  | known : t.Has w.node → t.Knows w → Visits c t w [] t
  | learn {work : List Work} {t' : Classification} :
      (t.Knows w → ∃ g, w.node = .global g) → c.Learns t w work t' → Visits c t w work t'

section Work

theorem condWork_eq (c : Classifier) (b : BlockId) (flags : UsageFlags) :
    c.condWork b flags = ((c.func.cond? b).bind Value.node?).toList.map (Work.reach · flags) := by
  unfold condWork
  cases c.func.cond? b with
  | none => rfl
  | some v => exact Work.ofValue_eq flags v

theorem controlWork_eq (c : Classifier) (b : BlockId) (flags : UsageFlags) :
    c.controlWork b flags = ((c.parents b).map Node.terminator).map (Work.reach · flags) := by
  rw [controlWork, List.map_map]
  rfl

/-- All that an operation depends on gets the same flags, which only the rule of a call changes. -/
theorem instWork_eq (h : c.instWork i op flags = .ok (work, problem)) :
    ∃ flags', work = op.dependencies.map (Work.reach · flags') ∧ (flags' = flags ∨
      ∃ callee args site, op = .call (.direct callee) args ∧
        flags' = (c.strategy.classifyCall site flags).argFlags) := by
  unfold instWork at h
  split at h
  · cases h
    exact ⟨flags, rfl, .inl rfl⟩
  · cases h
    exact ⟨flags, rfl, .inl rfl⟩
  · cases h
    refine ⟨flags, ?_, .inl rfl⟩
    rw [Work.ofValues_eq]
    rfl
  · cases h
    refine ⟨flags, ?_, .inl rfl⟩
    simp [Operation.dependencies, List.map_flatMap, Work.ofValue_eq]
  · next callee args =>
    obtain ⟨rule, hr, h⟩ := bind_eq_ok h
    cases h
    obtain ⟨decl, -, rfl⟩ := Option.map_eq_some_iff.mp (orDangling_eq_ok hr)
    exact ⟨_, Work.ofValues_eq .., .inr ⟨callee, args, _, rfl, rfl⟩⟩
  · cases h
    exact ⟨flags, rfl, .inl rfl⟩
  · next hp hm he hph hd hi =>
    cases h
    refine ⟨flags, ?_, .inl rfl⟩
    rw [Work.ofValues_eq]
    unfold Operation.dependencies
    split
    · next addr =>
      cases addr with
      | pending => exact absurd rfl hp
      | member g path => exact absurd rfl (hm g path)
      | element g path => exact absurd rfl (he g path)
    · exact absurd rfl (hph _)
    · exact absurd rfl (hi _ _)
    · rfl

theorem trouble?_of_instWork {inst : Inst} (hin : c.func.insts[i]? = some inst)
    (h : c.instWork i inst.op flags = .ok (work, problem)) : c.trouble? i = problem := by
  obtain ⟨op, ty, block⟩ := inst
  simp only [trouble?, hin, Option.bind_some]
  simp only [instWork] at h
  split at h
  case h_5 =>
    obtain ⟨rule, -, h⟩ := bind_eq_ok h
    cases h
    rfl
  case h_7 =>
    next hp _ _ _ _ hi =>
    cases h
    split
    · exact absurd rfl hp
    · exact absurd rfl (hi _ _)
    · rfl
  all_goals
    cases h
    rfl

theorem instWork_eq_error {e : Fault} (h : c.instWork i op flags = .error e) :
    e = .dangling ∧ ∃ callee args, op = .call (.direct callee) args ∧
      c.program.decls[callee]? = none := by
  unfold instWork at h
  split at h <;> try cases h
  next callee args =>
  rcases bind_eq_error h with h | ⟨rule, -, h⟩
  · obtain ⟨rfl, hn⟩ := orDangling_eq_error h
    exact ⟨rfl, callee, args, rfl, Option.map_eq_none_iff.mp hn⟩
  · cases h

end Work

theorem learns_setInfo (hh : t.Has w.node) (hfr : t.fixes w.node = false)
    (hbl : ∀ b, w.node ≠ .block b) (hw : work.map Work.node = c.leads w.node)
    (hf : ∀ w' ∈ work, c.Passes w.node ((t.info w.node).flags.union w.flags) w'.flags)
    (hfo : ∀ w' ∈ work, w'.force = .empty)
    (hl : ∀ i inst, w.node = .inst i → c.func.insts[i]? = some inst →
      ∃ r, c.instWork i inst.op ((t.info w.node).flags.union w.flags) = .ok r) :
    c.Learns t w work (t.setInfo w.node
      { t.info w.node with flags := (t.info w.node).flags.union w.flags }) := by
  obtain ⟨node, flags, force⟩ := w
  refine ⟨hh, hfr, fun n => ?_, by cases node <;> rfl, fun h => h.setInfo _ _, fun b => ?_,
    fun q x => ?_, hw, hf, fun w' hw' => ?_, hl⟩
  · by_cases hn : n = node
    · subst hn
      rw [if_pos rfl]
      exact Classification.info_setInfo_self _ hh
    · rw [if_neg hn]
      exact Classification.info_setInfo_of_ne _ hn
  · rw [if_neg fun h => hbl b h.1]
    cases node <;> rfl
  · have hk : (t.setInfo node { t.info node with flags := (t.info node).flags.union flags }).guardsAt
        q = t.guardsAt q := by cases node <;> rfl
    rw [hk]
    exact ⟨.inl, fun h => h.resolve_right fun ⟨_, b, hb, _⟩ => hbl b hb⟩
  · rw [hfo w' hw']
    cases node with
    | block b => exact absurd rfl (hbl b)
    | _ => rfl

/-- A block tells the branches that decide about it what is forced on it, and they guard that. -/
theorem learns_block (force : ScopeSet) (hlt : b < t.blocks.size) :
    c.Learns t ⟨.block b, flags, force⟩
      (c.condWork b ((t.block b).flags.union flags) ++ (c.parents b).map fun q =>
        ⟨.block q, (t.block b).flags.union flags, (t.forcedAt b).union force⟩)
      ((c.parents b).foldl (Classification.addGuards · ((t.forcedAt b).union force))
        ((t.setBlock b ⟨(t.block b).scope, (t.block b).flags.union flags⟩).setForced b
          ((t.forcedAt b).union force))) := by
  obtain ⟨guards, heq, hs, hm⟩ := Classification.exists_foldl_addGuards (c.parents b)
    ((t.forcedAt b).union force) ((t.setBlock b
      ⟨(t.block b).scope, (t.block b).flags.union flags⟩).setForced b ((t.forcedAt b).union force))
  rw [heq, condWork_eq]
  refine ⟨hlt, rfl, fun n => ?_, rfl, fun hf => ?_, fun j => ?_, fun q x => ?_, ?_,
    fun w' hw' => ?_, fun w' hw' => ?_, by simp⟩
  · by_cases hn : n = .block b
    · subst hn
      rw [if_pos rfl]
      exact Classification.info_setInfo_self (n := .block b) _ hlt
    · rw [if_neg hn]
      have hse := Classification.info_setInfo_of_ne (t := t) (n := .block b)
        ⟨(t.block b).scope, (t.block b).flags.union flags⟩ hn
      cases n <;> exact hse
  · refine ⟨hf.insts, hf.globals, ?_, hf.terminators, ?_, hs.trans hf.guards,
      hf.pinned⟩
    · simp [Classification.setBlock, Classification.setForced, hf.blocks]
    · simp [Classification.setBlock, Classification.setForced, hf.forced]
  · refine (Classification.forcedAt_setForced _ b j _).trans ?_
    by_cases hj : j = b
    · subst hj
      simp only [true_and]
      rfl
    · rw [if_neg fun h => hj h.1, if_neg fun h => hj (Node.block.inj h.1).symm]
      rfl
  · refine (hm q x).trans (or_congr_right (and_congr_right fun _ => ?_))
    constructor
    · exact fun h => ⟨b, rfl, h⟩
    · rintro ⟨_, ⟨⟩, h⟩
      exact h
  · rw [List.map_append, Work.map_node_reach, List.map_map]
    rfl
  · rcases List.mem_append.mp hw' with hw' | hw' <;>
      obtain ⟨n, -, rfl⟩ := List.mem_map.mp hw' <;> exact .inl rfl
  · rcases List.mem_append.mp hw' with hw' | hw'
    · obtain ⟨n, hn, rfl⟩ := List.mem_map.mp hw'
      obtain ⟨v, -, hv⟩ := Option.bind_eq_some_iff.mp (Option.mem_toList.mp hn)
      cases v <;> cases hv <;> rfl
    · obtain ⟨q, -, rfl⟩ := List.mem_map.mp hw'
      rfl

theorem learns_inst {i : InstId} {inst : Inst} {problem : Option Problem} (force : ScopeSet)
    (hlt : t.Has (.inst i)) (hi : c.func.insts[i]? = some inst) (hn : t.isPinned i = false)
    (hw : c.instWork i inst.op ((t.inst i).flags.union flags) = .ok (work, problem)) :
    c.Learns t ⟨.inst i, flags, force⟩
      (work ++ c.controlWork inst.block ((t.inst i).flags.union flags))
      (t.setInfo (.inst i) { t.inst i with flags := (t.inst i).flags.union flags }) := by
  obtain ⟨flags', rfl, hp⟩ := instWork_eq hw
  refine learns_setInfo (w := ⟨.inst i, flags, force⟩) hlt hn (by simp) ?_ ?_ ?_ ?_
  · simp only [controlWork_eq, List.map_append, Work.map_node_reach, leads, hi, Option.elim_some]
  · intro w' hw'
    rw [controlWork_eq] at hw'
    rcases List.mem_append.mp hw' with hw' | hw'
    · obtain ⟨n, -, rfl⟩ := List.mem_map.mp hw'
      rcases hp with hs | ⟨callee, args, site, hop, hc⟩
      · exact .inl hs
      · exact .inr ⟨i, inst, callee, args, site, rfl, hi, hop, hc⟩
    · obtain ⟨n, -, rfl⟩ := List.mem_map.mp hw'
      exact .inl rfl
  · intro w' hw'
    rw [controlWork_eq] at hw'
    rcases List.mem_append.mp hw' with hw' | hw' <;>
      obtain ⟨n, -, rfl⟩ := List.mem_map.mp hw' <;> rfl
  · intro j inst' hj hi'
    obtain rfl := Node.inst.inj hj
    obtain rfl := Option.mem_unique hi hi'
    exact ⟨_, hw⟩

theorem learns_terminator (force : ScopeSet) (hlt : t.Has (.terminator b)) :
    c.Learns t ⟨.terminator b, flags, force⟩
      (c.condWork b ((t.terminator b).flags.union flags)
        ++ c.controlWork b ((t.terminator b).flags.union flags))
      (t.setInfo (.terminator b)
        { t.terminator b with flags := (t.terminator b).flags.union flags }) := by
  refine learns_setInfo (w := ⟨.terminator b, flags, force⟩) hlt rfl (by simp) ?_ ?_ ?_ (by simp)
  · simp only [condWork_eq, controlWork_eq, List.map_append, Work.map_node_reach, leads]
  all_goals
    intro w' hw'
    rw [condWork_eq, controlWork_eq, ← List.map_append] at hw'
    obtain ⟨n, -, rfl⟩ := List.mem_map.mp hw'
  · exact .inl rfl
  · rfl

/-- Looking at work that its node knows changes nothing, and any other work teaches the node. -/
theorem visit_eq_ok (h : c.visit s w = .ok (work, s')) :
    s.table.Has w.node ∧ s.table.Knows w ∧ work = [] ∧ s' = s ∨
      (s.table.Knows w → ∃ g, w.node = .global g) ∧ c.Learns s.table w work s'.table ∧
        s'.problems = match w.node with
          | .inst i => (c.trouble? i).elim s.problems (Problem.note s.problems)
          | _ => s.problems := by
  obtain ⟨node, flags, force⟩ := w
  have he : ∀ {infos : Array ValueInfo} {k : Nat} {info : ValueInfo},
      orDangling infos[k]? = .ok info → k < infos.size ∧ infos[k]?.getD .unknown = info := by
    intro infos k info h
    have := orDangling_eq_ok h
    exact ⟨(Array.getElem?_eq_some_iff.mp this).1, by rw [this, Option.getD_some]⟩
  cases node with
  | global g =>
    obtain ⟨info, hi, h⟩ := bind_eq_ok h
    obtain ⟨hlt, rfl⟩ := he hi
    cases h
    exact .inr ⟨fun _ => ⟨g, rfl⟩, learns_setInfo (w := ⟨.global g, flags, force⟩) hlt rfl (by simp) rfl
      (by simp) (by simp) (by simp), rfl⟩
  | inst i =>
    obtain ⟨info, hi, h⟩ := bind_eq_ok h
    obtain ⟨inst, hin, h⟩ := bind_eq_ok h
    obtain ⟨hlt, rfl⟩ := he hi
    have hin := orDangling_eq_ok hin
    split at h
    · next hkn =>
      cases h
      refine .inl ⟨hlt, ?_, rfl, rfl⟩
      exact (Bool.or_eq_true_iff.mp hkn).imp id fun hk => ⟨hk, by simp⟩
    · next hn =>
      rw [Bool.not_eq_true, Bool.or_eq_false_iff] at hn
      obtain ⟨⟨work, problem⟩, hw, h⟩ := bind_eq_ok h
      cases h
      have hl := learns_inst force hlt hin hn.1 hw
      refine .inr ⟨?_, ?_, ?_⟩
      · rintro (hpi | hkn)
        · exact absurd hpi (by simp [Classification.fixes, hn.1])
        · exact absurd hkn.1 (by simp [Classification.info, Classification.inst, hn.2])
      · cases problem <;> exact hl
      · show _ = (c.trouble? i).elim _ _
        rw [trouble?_of_instWork hin hw]
        cases problem <;> rfl
  | terminator b =>
    obtain ⟨info, hi, h⟩ := bind_eq_ok h
    obtain ⟨hlt, rfl⟩ := he hi
    split at h
    · next hkn =>
      cases h
      exact .inl ⟨hlt, .inr ⟨hkn, by simp⟩, rfl, rfl⟩
    · next hn =>
      cases h
      refine .inr ⟨?_, learns_terminator force hlt, rfl⟩
      rintro (hpi | hkn)
      · cases hpi
      · exact absurd hkn.1 hn
  | block b =>
    obtain ⟨info, hi, h⟩ := bind_eq_ok h
    obtain ⟨hlt, rfl⟩ := he hi
    simp only at h
    split at h
    · next hkn =>
      cases h
      obtain ⟨hf, hfo⟩ := Bool.and_eq_true_iff.mp hkn
      refine .inl ⟨hlt, .inr ⟨hf, ?_⟩, rfl, rfl⟩
      rintro _ ⟨⟩
      exact hfo
    · next hn =>
      cases h
      refine .inr ⟨?_, learns_block force hlt, rfl⟩
      rintro (hpi | ⟨hf, hfo⟩)
      · cases hpi
      · exact absurd (Bool.and_eq_true_iff.mpr ⟨hf, hfo b rfl⟩) hn

theorem visits_of_visit (h : c.visit s w = .ok (work, s')) :
    c.Visits s.table w work s'.table := by
  rcases visit_eq_ok h with ⟨hh, hk, rfl, rfl⟩ | ⟨hn, hl, -⟩
  · exact .known hh hk
  · exact .learn hn hl

/-- Looking at work faults only at a node that is not there or refers to what is not there. -/
theorem visit_eq_error (h : c.visit s w = .error e) :
    e = .dangling ∧ (¬s.table.Has w.node ∨ c.Broken w.node) := by
  obtain ⟨node, flags, force⟩ := w
  have hn : ∀ {α : Type} {xs : Array α} {k : Nat}, orDangling xs[k]? = .error e →
      e = .dangling ∧ ¬k < xs.size := by
    intro α xs k h
    obtain ⟨rfl, hn⟩ := orDangling_eq_error h
    exact ⟨rfl, Nat.not_lt.mpr (Array.getElem?_eq_none_iff.mp hn)⟩
  cases node with
  | global g =>
    rcases bind_eq_error h with h | ⟨info, -, h⟩
    · exact (hn h).imp_right .inl
    · cases h
  | inst i =>
    rcases bind_eq_error h with h | ⟨info, -, h⟩
    · exact (hn h).imp_right .inl
    rcases bind_eq_error h with h | ⟨inst, hi, h⟩
    · obtain ⟨rfl, hl⟩ := orDangling_eq_error h
      refine ⟨rfl, .inr fun inst hi => ?_⟩
      rw [hl] at hi
      cases hi
    split at h
    · cases h
    · rcases bind_eq_error h with h | ⟨⟨work, problem⟩, -, h⟩
      · obtain ⟨rfl, callee, args, hop, hd⟩ := instWork_eq_error h
        refine ⟨rfl, .inr fun inst' hi' => ?_⟩
        obtain rfl := Option.mem_unique (orDangling_eq_ok hi) hi'
        exact ⟨callee, args, hop, hd⟩
      · cases h
  | terminator b =>
    rcases bind_eq_error h with h | ⟨info, -, h⟩
    · exact (hn h).imp_right .inl
    · split at h <;> cases h
  | block b =>
    rcases bind_eq_error h with h | ⟨info, -, h⟩
    · exact (hn h).imp_right .inl
    · simp only at h
      split at h <;> cases h

theorem problems_of_visit (h : c.visit s w = .ok (work, s')) : s'.problems = s.problems ∨
    ∃ i p, c.trouble? i = some p ∧ s'.problems = Problem.note s.problems p := by
  rcases visit_eq_ok h with ⟨-, -, -, rfl⟩ | ⟨-, -, hpr⟩
  · exact .inl rfl
  · split at hpr
    · next i _ =>
      cases hp : c.trouble? i with
      | none => exact .inl (by rw [hpr, hp]; rfl)
      | some p => exact .inr ⟨i, p, hp, by rw [hpr, hp]; rfl⟩
    · exact .inl hpr

/-- What every look at a piece of work keeps holds in the end, or up to the look that faults. -/
theorem propagate_invariant {P : List Work → State → Prop}
    (step : ∀ s w work stack s', P (w :: stack) s → c.visit s w = .ok (work, s') →
      P (work.reverse ++ stack) s') (work : List Work) (h : P work.reverse s) :
    match c.propagate work s with
    | .ok s' => ∃ rest, P rest s'
    | .error e => ∃ s1 w stack, P (w :: stack) s1 ∧ c.visit s1 w = .error e := by
  have key : ∀ fuel stack (s : State), P stack s → match c.propagateWithin fuel stack s with
      | .ok r => P r.1 r.2
      | .error e => ∃ s1 w stack, P (w :: stack) s1 ∧ c.visit s1 w = .error e := by
    intro fuel
    induction fuel with
    | zero => exact fun _ _ h => h
    | succ fuel ih =>
      intro stack s h
      cases stack with
      | nil => exact h
      | cons w stack =>
        cases hv : c.visit s w with
        | error e =>
          simp only [propagateWithin, hv]
          exact ⟨s, w, stack, h, hv⟩
        | ok r =>
          simp only [propagateWithin, hv, ok_bind]
          exact ih _ _ (step s w r.1 stack r.2 h hv)
  have hru := key (work.length + c.learnings * c.fanIn + 1) work.reverse s h
  unfold propagate
  cases hr : c.propagateWithin (work.length + c.learnings * c.fanIn + 1) work.reverse s with
  | error e =>
    rw [hr] at hru
    exact hru
  | ok r =>
    rw [hr] at hru
    exact ⟨r.1, hru⟩

theorem propagate_keeps {P : State → Prop}
    (step : ∀ s w work s', P s → c.visit s w = .ok (work, s') → P s') (h : P s)
    (hp : c.propagate work s = .ok s') : P s' := by
  have hr := propagate_invariant (c := c) (P := fun _ s => P s)
    (fun s w work _ s' hs hv => step s w work s' hs hv) work h
  rw [hp] at hr
  obtain ⟨_, hs'⟩ := hr
  exact hs'

theorem propagate_eq_error (h : c.propagate work s = .error e) : e = .dangling := by
  have hr := propagate_invariant (c := c) (s := s) (P := fun _ _ => True)
    (fun _ _ _ _ _ _ _ => trivial) work trivial
  rw [h] at hr
  obtain ⟨_, _, _, -, hv⟩ := hr
  exact (visit_eq_error hv).1

section

variable (h : c.Visits t w work t')
include h

theorem Visits.fits {p : Program} {f : Function} (hf : t.Fits p f) : t'.Fits p f := by
  cases h with
  | known _ _ => exact hf
  | learn _ h => exact h.fits hf

theorem Visits.pinned : t'.pinned = t.pinned := by
  cases h with
  | known _ _ => rfl
  | learn _ h => exact h.pinned

theorem Visits.isPinned (i : InstId) : t'.isPinned i = t.isPinned i := by
  rw [Classification.isPinned, h.pinned, Classification.isPinned]

theorem Visits.samePlaces : t.SamePlaces t' := by
  cases h with
  | known _ _ => exact .refl t
  | learn _ h =>
    intro n
    rw [h.info]
    split <;> rfl

theorem Visits.isUsed_iff (hf : t.fixes n = false) :
    (t'.info n).isUsed = true ↔
      (t.info n).isUsed = true ∨ w.node = n ∧ w.flags.isEmpty = false := by
  cases h with
  | known _ hk =>
    refine ⟨.inl, fun h => h.elim id ?_⟩
    rintro ⟨rfl, hfl⟩
    rcases hk with hp | ⟨hk, -⟩
    · rw [hp] at hf
      cases hf
    · rw [ValueInfo.isUsed, UsageFlags.isEmpty_of_contains hk hfl, Bool.not_false]
  | learn _ h =>
    rw [h.info]
    by_cases hn : n = w.node
    · simp [hn, ValueInfo.isUsed, UsageFlags.isEmpty_union]
    · have hne : w.node ≠ n := fun h => hn h.symm
      simp [hn, hne]

theorem Visits.node_mem_leads {w' : Work} (hw' : w' ∈ work) : w'.node ∈ c.leads w.node := by
  cases h with
  | known _ _ => cases hw'
  | learn _ h => exact h.nodes ▸ List.mem_map_of_mem hw'

end

theorem Learns.exists_work {m : Node} (h : c.Learns t w work t') (hm : m ∈ c.leads w.node) :
    ∃ w' ∈ work, w'.node = m := by
  rw [← h.nodes] at hm
  exact List.mem_map.mp hm

end Classifier

end Stagewise
