import Stagewise.Proofs.Classification.Nodes

namespace Stagewise

theorem lt_of_isUsed {infos : Array ValueInfo} {k : Nat}
    (h : (infos[k]?.getD .unknown).isUsed = true) : k < infos.size := by
  by_contra hk
  rw [Array.getElem?_eq_none (by omega)] at h
  exact absurd h (by decide)

namespace Classification

variable {p : Program} {f : Function} {n : Nat} {t t' : Classification}

theorem inst_setInst (t : Classification) (i j : InstId) (info : ValueInfo) :
    (t.setInst i info).inst j = if j = i ∧ i < t.insts.size then info else t.inst j :=
  getD_setIfInBounds ..

theorem global_setGlobal (t : Classification) (g j : GlobalId) (info : ValueInfo) :
    (t.setGlobal g info).global j = if j = g ∧ g < t.globals.size then info else t.global j :=
  getD_setIfInBounds ..

theorem block_setBlock (t : Classification) (b j : BlockId) (info : ValueInfo) :
    (t.setBlock b info).block j = if j = b ∧ b < t.blocks.size then info else t.block j :=
  getD_setIfInBounds ..

theorem terminator_setTerminator (t : Classification) (b j : BlockId) (info : ValueInfo) :
    (t.setTerminator b info).terminator j
      = if j = b ∧ b < t.terminators.size then info else t.terminator j :=
  getD_setIfInBounds ..

/-- All nodes that are placed are placed in the first `n` scopes, and calls of computed functions
are not placed. -/
structure Within (t : Classification) (f : Function) (n : Nat) : Prop where
  scope_lt : ∀ m s, (t.info m).scope = some s → s.val < n
  indirect : ∀ (i : InstId) (inst : Inst) v args, f.insts[i]? = some inst →
    inst.op = .call (.indirect v) args → (t.inst i).scope = none

theorem Within.of_samePlaces (h : t.Within f n) (hs : t.SamePlaces t') : t'.Within f n :=
  ⟨fun m s hm => h.scope_lt m s (hs m ▸ hm),
    fun i inst v args hi hop => (hs (.inst i)).trans (h.indirect i inst v args hi hop)⟩

theorem usedScope_eq_some {info : ValueInfo} {s : Scope} (h : info.usedScope = some s) :
    info.scope = some s := by
  unfold ValueInfo.usedScope at h
  split at h
  · exact h
  · exact absurd h (by simp)

theorem valueScope_eq_some {v : Value} {x : Scope} (h : t.valueScope v = some x) :
    ∃ n, v.node? = some n ∧ (t.info n).scope = some x := by
  cases v with
  | inst i => exact ⟨.inst i, rfl, usedScope_eq_some h⟩
  | global g => exact ⟨.global g, rfl, usedScope_eq_some h⟩
  | const k => exact absurd h (by simp [valueScope])

theorem has_of_isUsed {m : Node} (h : (t.info m).isUsed = true) : t.Has m := by
  cases m <;> exact lt_of_isUsed h

theorem Fits.setGlobal (h : t.Fits p f) (g : GlobalId) (info : ValueInfo) :
    (t.setGlobal g info).Fits p f := h.setInfo (.global g) info

theorem Fits.pin (h : t.Fits p f) (i : InstId) (info : ValueInfo) : (t.pin i info).Fits p f :=
  ⟨by simp [Classification.pin, Classification.setInst, h.insts], h.globals, h.blocks, h.terminators,
    h.forced, h.guards, by simp [Classification.pin, h.pinned]⟩

theorem info_setGlobal {g : GlobalId} (info : ValueInfo) (m : Node) (h : g < t.globals.size) :
    (t.setGlobal g info).info m = if m = .global g then info else t.info m := by
  split
  · next heq =>
    subst heq
    exact info_setInfo_self (n := .global g) info h
  · next hne => exact info_setInfo_of_ne (n := .global g) info hne

theorem info_pin (t : Classification) (i : InstId) (info : ValueInfo) (m : Node) :
    (t.pin i info).info m = if m = .inst i ∧ i < t.insts.size then info else t.info m := by
  cases m with
  | inst j =>
    simp only [Node.inst.injEq]
    exact t.inst_setInst i j info
  | global _ | block _ | terminator _ =>
    simp
    rfl

theorem isPinned_pin (t : Classification) (i j : InstId) (info : ValueInfo) :
    (t.pin i info).isPinned j = if j = i ∧ i < t.pinned.size then true else t.isPinned j :=
  getD_setIfInBounds ..

end Classification

def Node.InRange (p : Program) (f : Function) : Node → Prop
  | .inst i => i < f.numInsts
  | .global g => g < p.numGlobals
  | .block b => b < f.numBlocks
  | .terminator b => b < f.numBlocks

def Work.InRange (p : Program) (f : Function) (w : Work) : Prop := w.node.InRange p f

theorem Value.InRange.node {p : Program} {f : Function} {v : Value} {n : Node} (hv : v.InRange p f)
    (hn : v.node? = some n) : n.InRange p f := by
  cases v <;> cases hn <;> exact hv

theorem Classification.Fits.has_iff {p : Program} {f : Function} {t : Classification}
    (h : t.Fits p f) (n : Node) : t.Has n ↔ n.InRange p f := by
  cases n <;> simp [Classification.Has, Node.InRange, h.insts, h.globals, h.blocks, h.terminators]

namespace Classifier

variable {c : Classifier} {s : State} {w : Work} {n : Nat} {m : Node}

def ParentsInRange (c : Classifier) : Prop := ∀ b, ∀ q ∈ c.parents b, q < c.func.numBlocks

theorem dependencies_inRange {inst : Inst} (h : c.func.InstInRange c.program inst)
    (hm : m ∈ inst.op.dependencies) : m.InRange c.program c.func := by
  have ho : ∀ {vs : List Value}, (∀ v ∈ vs, v ∈ inst.op.operands) →
      m ∈ vs.filterMap Value.node? → m.InRange c.program c.func := by
    intro vs hvs hm
    obtain ⟨v, hv, hm⟩ := List.mem_filterMap.mp hm
    exact (h.operand v (hvs v hv)).node hm
  unfold Operation.dependencies at hm
  split at hm
  · next addr hop =>
    cases hg : addr.global? with
    | none => simp [hg] at hm
    | some g =>
      rw [hg] at hm
      rcases List.mem_cons.mp hm with rfl | hm
      · exact h.address addr g (by rw [hop]; rfl) hg
      · exact ho (fun v hv => by rw [hop]; exact hv) hm
  · next incoming hop =>
    obtain ⟨e, he, hm⟩ := List.mem_flatMap.mp hm
    rcases List.mem_append.mp hm with hm | hm
    · refine (h.operand e.2 ?_).node (Option.mem_toList.mp hm)
      rw [hop]
      exact List.mem_map_of_mem he
    · obtain rfl := List.mem_singleton.mp hm
      exact h.incoming incoming hop e he
  · cases hm
  · exact ho (fun _ hv => hv) hm

theorem leads_inRange (hs : c.func.Ssa c.program) (hc : c.ParentsInRange) {k : Node}
    (hm : m ∈ c.leads k) : m.InRange c.program c.func := by
  have hco : ∀ {b}, m ∈ ((c.func.cond? b).bind Value.node?).toList →
      m.InRange c.program c.func := by
    intro b hm
    obtain ⟨v, hv, hn⟩ := Option.bind_eq_some_iff.mp (Option.mem_toList.mp hm)
    exact (hs.cond_inRange b v hv).node hn
  have hp : ∀ {b} {make : BlockId → Node}, (∀ q, make q = .block q ∨ make q = .terminator q) →
      m ∈ (c.parents b).map make → m.InRange c.program c.func := by
    intro b make hma hm
    obtain ⟨q, hq, rfl⟩ := List.mem_map.mp hm
    rcases hma q with h | h <;> rw [h] <;> exact hc b q hq
  cases k with
  | inst i =>
    simp only [leads] at hm
    cases hi : c.func.insts[i]? with
    | none => simp [hi] at hm
    | some inst =>
      rw [hi] at hm
      rcases List.mem_append.mp hm with hm | hm
      · exact dependencies_inRange (hs.inRange i inst hi) hm
      · exact hp (fun _ => .inr rfl) hm
  | terminator b => exact (List.mem_append.mp hm).elim hco (hp fun _ => .inr rfl)
  | block b => exact (List.mem_append.mp hm).elim hco (hp fun _ => .inl rfl)
  | global g => cases hm

theorem not_broken_of_inRange (hs : c.func.Ssa c.program) (hm : m.InRange c.program c.func) :
    ¬c.Broken m := by
  cases m with
  | inst i =>
    intro hb
    have hi : c.func.insts[i]? = some _ := Array.getElem?_eq_getElem hm
    obtain ⟨callee, args, hop, hn⟩ := hb _ hi
    exact Nat.not_lt.mpr (List.getElem?_eq_none_iff.mp hn)
      ((hs.inRange i _ hi).callee callee args hop)
  | global g | block b | terminator b => exact Nat.not_le.mpr hm

theorem visit_inRange (hs : c.func.Ssa c.program) (hc : c.ParentsInRange)
    (hf : s.table.Fits c.program c.func) (hw : w.InRange c.program c.func) :
    ∃ work s', c.visit s w = .ok (work, s') ∧ s'.table.Fits c.program c.func ∧
      s.table.SamePlaces s'.table ∧ ∀ w' ∈ work, w'.InRange c.program c.func := by
  cases hv : c.visit s w with
  | error e =>
    rcases (visit_eq_error hv).2 with hh | hb
    · exact absurd ((hf.has_iff _).mpr hw) hh
    · exact absurd hb (not_broken_of_inRange hs hw)
  | ok r =>
    have hvi := visits_of_visit hv
    exact ⟨r.1, r.2, rfl, hvi.fits hf, hvi.samePlaces,
      fun w' hw' => leads_inRange hs hc (hvi.node_mem_leads hw')⟩

theorem propagateWithin_inRange (hss : c.func.Ssa c.program) (hc : c.ParentsInRange) (fuel : Nat)
    (stack : List Work) (hf : s.table.Fits c.program c.func)
    (hs : ∀ w ∈ stack, w.InRange c.program c.func) :
    ∃ rest s', c.propagateWithin fuel stack s = .ok (rest, s') ∧
      s'.table.Fits c.program c.func ∧ s.table.SamePlaces s'.table := by
  induction fuel generalizing stack s with
  | zero => exact ⟨stack, s, rfl, hf, .refl _⟩
  | succ fuel ih =>
    cases stack with
    | nil => exact ⟨[], s, rfl, hf, .refl _⟩
    | cons w stack =>
      obtain ⟨work, s', hv, hf', hsa, hin⟩ := visit_inRange hss hc hf (hs w (by simp))
      simp only [propagateWithin, hv, ok_bind]
      obtain ⟨rest, s'', hp, hf'', hs'⟩ := ih (work.reverse ++ stack) hf' (by
        intro w' hw'
        rcases List.mem_append.mp hw' with hw' | hw'
        · exact hin w' (List.mem_reverse.mp hw')
        · exact hs w' (by simp [hw']))
      exact ⟨rest, s'', hp, hf'', hsa.trans hs'⟩

end Classifier

namespace Scope

theorem later_cases (a b : Option Scope) : later a b = a ∨ later a b = b := by
  unfold later
  split
  · exact .inr rfl
  · exact .inl rfl

theorem latest_cases (first : Option Scope) (rest : List (Option Scope)) :
    latest first rest = first ∨ latest first rest ∈ rest := by
  unfold latest
  induction rest generalizing first with
  | nil => exact .inl rfl
  | cons x rest ih =>
    rw [List.foldl_cons]
    rcases ih (later first x) with h | h
    · rcases later_cases first x with h' | h'
      · exact .inl (h.trans h')
      · exact .inr (by rw [h, h']; simp)
    · exact .inr (by simp [h])

theorem later_none (a : Option Scope) : later a none = a := by
  simp [later, rank]

end Scope

def Strategy.Ascends (s : Strategy) : Prop :=
  ∀ info computed, Scope.rank (Scope.later info.scope computed) ≤ Scope.rank (s.placeValue info computed)

theorem Strategy.Ascends.of_plain {s : Strategy} (h : s = .plain) : s.Ascends := by
  subst h
  exact fun _ _ => le_refl _

namespace Classifier

variable {c : Classifier} {s : State} {t : Classification} {n : Nat}

structure Sound (c : Classifier) (n : Nat) (t : Classification) : Prop where
  fits : t.Fits c.program c.func
  within : t.Within c.func n

theorem Sound.of_samePlaces {t' : Classification} (h : c.Sound n t) (hf : t'.Fits c.program c.func)
    (hs : t.SamePlaces t') : c.Sound n t' := ⟨hf, h.within.of_samePlaces hs⟩

theorem fits_absorb (h : t.Fits c.program c.func) : (c.absorb t).Fits c.program c.func :=
  ⟨by simp [absorb, h.insts], h.globals, h.blocks, h.terminators, h.forced, h.guards, h.pinned⟩

theorem inst_absorb (c : Classifier) (t : Classification) (i : InstId) :
    (c.absorb t).inst i = c.absorbInst t i (t.inst i) := by
  simp only [absorb, Classification.inst, Array.getElem?_mapIdx]
  cases t.insts[i]? <;> rfl

theorem samePlaces_absorb (c : Classifier) (t : Classification) : t.SamePlaces (c.absorb t) := by
  intro m
  cases m with
  | inst i =>
    show ((c.absorb t).inst i).scope = (t.inst i).scope
    rw [inst_absorb, absorbInst]
    split
    · split <;> rfl
    · rfl
  | global _ | block _ | terminator _ => rfl

theorem absorb_sound (h : c.Sound n t) : c.Sound n (c.absorb t) :=
  h.of_samePlaces (fits_absorb h.fits) (samePlaces_absorb c t)

theorem rank_le_latest {first : Option Scope} {rest : List (Option Scope)} :
    Scope.rank first ≤ Scope.rank (Scope.latest first rest) ∧
      ∀ x ∈ rest, Scope.rank x ≤ Scope.rank (Scope.latest first rest) := by
  unfold Scope.latest
  induction rest generalizing first with
  | nil => simp
  | cons y rest ih =>
    have hl := Scope.rank_later first y
    obtain ⟨hf, hr⟩ := @ih (Scope.later first y)
    rw [List.foldl_cons]
    refine ⟨by omega, fun x hx => ?_⟩
    rcases List.mem_cons.mp hx with rfl | hx
    · omega
    · exact hr x hx

section Lifting

variable {t' : Classification} {m : Node} {i : InstId} {x : Scope} {y : Option Scope}

/-- The scope of the operands is that of one of them, or the floor of the rule of a call. -/
theorem operandScope_eq_some {op : Operation} {flags : UsageFlags}
    (h : c.operandScope t i op flags = some x) :
    (∃ m ∈ op.dependencies, (t.info m).scope = some x) ∨
      ∃ callee args rule, op = .call (.direct callee) args ∧
        c.callRule? i callee args flags = some rule ∧ rule.floor = some x := by
  have hva : ∀ {vs : List Value} {first : Option Scope},
      Scope.latest first (vs.map t.valueScope) = some x →
      first = some x ∨ ∃ n ∈ vs.filterMap Value.node?, (t.info n).scope = some x := by
    intro vs first h
    rcases Scope.latest_cases first (vs.map t.valueScope) with hl | hl
    · exact .inl (hl.symm.trans h)
    · obtain ⟨v, hv, hs⟩ := List.mem_map.mp hl
      obtain ⟨n, hn, hs⟩ := Classification.valueScope_eq_some (hs.trans h)
      exact .inr ⟨n, List.mem_filterMap.mpr ⟨v, hv, hn⟩, hs⟩
  unfold operandScope at h
  split at h
  · next addr =>
    cases hg : addr.global? with
    | none => simp [hg] at h
    | some g =>
      simp only [hg] at h
      left
      rcases hva h with hs | ⟨n, hn, hs⟩
      · exact ⟨.global g, by simp [Operation.dependencies, hg], hs⟩
      · exact ⟨n, by simp only [Operation.dependencies, hg]; exact List.mem_cons_of_mem _ hn, hs⟩
  · next incoming =>
    left
    rcases Scope.latest_cases none (incoming.map fun e =>
      Scope.later (t.valueScope e.2) (t.block e.1).scope) with hl | hl
    · rw [hl] at h
      cases h
    · obtain ⟨e, he, hs⟩ := List.mem_map.mp hl
      rw [h] at hs
      rcases Scope.later_cases (t.valueScope e.2) (t.block e.1).scope with hl | hl <;>
        rw [hl] at hs
      · obtain ⟨n, hn, hs⟩ := Classification.valueScope_eq_some hs
        exact ⟨n, List.mem_flatMap.mpr ⟨e, he, by simp [hn]⟩, hs⟩
      · exact ⟨.block e.1, List.mem_flatMap.mpr ⟨e, he, by simp⟩, hs⟩
  · next callee args =>
    cases hr : c.callRule? i callee args flags with
    | none => simp [hr] at h
    | some rule =>
      simp only [hr] at h
      rcases hva h with hf | ⟨n, hn, hs⟩
      · exact .inr ⟨callee, args, rule, rfl, hr, hf⟩
      · exact .inl ⟨n, hn, hs⟩
  · cases h
  · next hlo hp hd hi =>
    left
    rcases hva h with hno | ⟨n, hn, hs⟩
    · cases hno
    · refine ⟨n, ?_, hs⟩
      unfold Operation.dependencies
      split
      · exact absurd rfl (hlo _)
      · exact absurd rfl (hp _)
      · exact absurd rfl (hi _ _)
      · exact hn

/-- A used node whose entry is not fixed may be put at a place: it is not before where the node was,
and it is where the node was, where something that it depends on is, or where the strategy puts it. -/
structure Lifts (c : Classifier) (t : Classification) (m : Node) (y : Option Scope) : Prop where
  inner : ∀ g, m ≠ .global g
  used : (t.info m).isUsed = true
  free : t.fixes m = false
  rank_le : Scope.rank (t.info m).scope ≤ Scope.rank y
  source : y = (t.info m).scope ∨ (∃ k x, c.DependsOn m k ∧ (t.info k).scope = some x ∧ y = some x) ∨
    ∃ i inst, m = .inst i ∧ c.func.insts[i]? = some inst ∧
      y = c.strategy.placeValue (t.inst i) (c.operandScope t i inst.op (t.inst i).flags)

def put (t : Classification) (m : Node) (y : Option Scope) : Classification :=
  t.setInfo m { t.info m with scope := y }

theorem Lifts.info (h : c.Lifts t m y) (k : Node) :
    (put t m y).info k = if k = m then { t.info m with scope := y } else t.info k := by
  split
  · next heq =>
    subst heq
    exact Classification.info_setInfo_self _ (Classification.has_of_isUsed h.used)
  · next hne => exact Classification.info_setInfo_of_ne _ hne

theorem Lifts.scope_eq_some {k : Node} (h : c.Lifts t m y) (hk : ((put t m y).info k).scope = some x) :
    (t.info k).scope = some x ∨ k = m ∧ y = some x := by
  rw [h.info] at hk
  split at hk
  · next heq => exact .inr ⟨heq, hk⟩
  · exact .inl hk

theorem lifts_of_later (rest : List (Option Scope)) (hi : ∀ g, m ≠ .global g)
    (hu : (t.info m).isUsed = true) (hf : t.fixes m = false) (hr : ∀ z ∈ rest, ∀ x,
      z = some x → ∃ k, c.DependsOn m k ∧ (t.info k).scope = some x) :
    c.Lifts t m (Scope.latest (t.info m).scope rest) := by
  refine ⟨hi, hu, hf, rank_le_latest.1, ?_⟩
  rcases Scope.latest_cases (t.info m).scope rest with h | h
  · exact .inl h
  · cases hy : Scope.latest (t.info m).scope rest with
    | none =>
      have hle := (@rank_le_latest (t.info m).scope rest).1
      rw [hy] at hle
      exact .inl (Scope.rank_injective (Nat.le_antisymm (Nat.zero_le _) hle))
    | some x =>
      obtain ⟨k, hk, hs⟩ := hr _ h x hy
      exact .inr (.inl ⟨k, x, hk, hs, rfl⟩)

variable {b : BlockId} {v : Value}

theorem cond_dependsOn_block (hv : c.func.cond? b = some v) (hm : v.node? = some m) :
    c.DependsOn (.block b) m :=
  List.mem_append_left _ (by simp [hv, hm])

theorem cond_dependsOn_terminator (hv : c.func.cond? b = some v) (hm : v.node? = some m) :
    c.DependsOn (.terminator b) m := by
  show m ∈ ((c.func.cond? b).bind Value.node?).toList
  simp [hv, hm]

theorem parent_dependsOn {q : BlockId} (hq : q ∈ c.parents b) :
    c.DependsOn (.block b) (.block q) :=
  List.mem_append_right _ (List.mem_map_of_mem hq)

theorem resolveBlock_cases (c : Classifier) (t : Classification) (b : BlockId) :
    c.resolveBlock t b = t ∨ ∃ y, c.Lifts t (.block b) y ∧ c.resolveBlock t b = put t (.block b) y := by
  unfold resolveBlock
  simp only
  split
  · next hu =>
    refine .inr ⟨_, ?_, rfl⟩
    -- the condition comes first among what the block depends on
    refine lifts_of_later ((c.func.cond? b).elim none t.valueScope ::
      (c.parents b).map fun q => (t.block q).scope) (m := .block b) (by simp) hu rfl
      fun z hz x hx => ?_
    rcases List.mem_cons.mp hz with rfl | hz
    · cases hv : c.func.cond? b with
      | none => simp [hv] at hx
      | some v =>
        rw [hv] at hx
        obtain ⟨k, hk, hs⟩ := Classification.valueScope_eq_some hx
        exact ⟨k, cond_dependsOn_block hv hk, hs⟩
    · obtain ⟨q, hq, rfl⟩ := List.mem_map.mp hz
      exact ⟨.block q, parent_dependsOn hq, hx⟩
  · exact .inl rfl

theorem resolveTerminator_cases (c : Classifier) (t : Classification) (b : BlockId) :
    c.resolveTerminator t b = t ∨
      ∃ y, c.Lifts t (.terminator b) y ∧ c.resolveTerminator t b = put t (.terminator b) y := by
  unfold resolveTerminator
  simp only
  split
  · next hu =>
    split
    · next v hv =>
      refine .inr ⟨_, ?_, rfl⟩
      refine lifts_of_later [t.valueScope v] (m := .terminator b) (by simp) hu rfl
        fun z hz x hx => ?_
      obtain rfl := List.mem_singleton.mp hz
      obtain ⟨k, hk, hs⟩ := Classification.valueScope_eq_some hx
      exact ⟨k, cond_dependsOn_terminator hv hk, hs⟩
    · exact .inl rfl
  · exact .inl rfl

theorem resolveInst_cases (h : c.resolveInst t i = .ok t') :
    t' = t ∨ ∃ y, c.Lifts t (.inst i) y ∧ t' = put t (.inst i) y := by
  unfold resolveInst at h
  simp only at h
  split at h
  · next inst hi =>
    split at h
    · next hc =>
      obtain ⟨hu, hf⟩ := Bool.and_eq_true_iff.mp hc
      split at h
      · cases h
      · next hk =>
        simp only [Bool.or_eq_true, decide_eq_true_eq, not_or, not_lt] at hk
        cases h
        exact .inr ⟨_, ⟨by simp, hu, by simpa [Classification.fixes] using hf, hk.1,
          .inr (.inr ⟨i, inst, rfl, hi, rfl⟩)⟩, rfl⟩
    · cases h
      exact .inl rfl
  · cases h
    exact .inl rfl

theorem foldl_invariant {P : Classification → Prop} {step : Classification → BlockId → Classification}
    (hs : ∀ t b, P t → P (step t b)) (bs : List BlockId) (h : P t) : P (bs.foldl step t) := by
  induction bs generalizing t with
  | nil => exact h
  | cons b bs ih => exact ih (hs t b h)

variable {P : Classification → Prop} (step : ∀ t m y, c.Lifts t m y → P t → P (put t m y))

include step

theorem resolveBlock_invariant (t : Classification) (b : BlockId) (h : P t) :
    P (c.resolveBlock t b) := by
  rcases resolveBlock_cases c t b with heq | ⟨y, hl, heq⟩ <;> rw [heq]
  · exact h
  · exact step t _ y hl h

theorem resolveTerminator_invariant (t : Classification) (b : BlockId) (h : P t) :
    P (c.resolveTerminator t b) := by
  rcases resolveTerminator_cases c t b with heq | ⟨y, hl, heq⟩ <;> rw [heq]
  · exact h
  · exact step t _ y hl h

theorem resolveInst_invariant (h : P t) (hi : c.resolveInst t i = .ok t') : P t' := by
  rcases resolveInst_cases hi with rfl | ⟨y, hl, rfl⟩
  · exact h
  · exact step t _ y hl h

theorem resolveInsts_invariant (is : List InstId) (h : P t) : P (c.resolveInsts is t).2 := by
  induction is generalizing t with
  | nil => exact h
  | cons i is ih =>
    unfold resolveInsts
    cases hi : c.resolveInst t i with
    | ok t1 => exact ih (resolveInst_invariant step h hi)
    | error e => exact h

theorem resolveRound_invariant (h : P t) : P (c.resolveRound t).2 :=
  resolveInsts_invariant step _ (foldl_invariant (resolveTerminator_invariant step) _
    (foldl_invariant (resolveBlock_invariant step) _ h))

theorem settle_invariant (fuel : Nat) (h : P t) : P (c.settle fuel t).2 := by
  induction fuel generalizing t with
  | zero => exact h
  | succ fuel ih =>
    have hro := resolveRound_invariant step h
    unfold settle
    rcases hr : c.resolveRound t with ⟨_ | _, next⟩ <;> rw [hr] at hro
    · exact hro
    · simp only
      split
      · exact h
      · exact ih hro

end Lifting

/-- Rounds cannot fail if the strategy never lowers a scope. -/
theorem resolve_ok (ha : c.strategy.Ascends) (t : Classification) :
    (c.resolve t).1 = .ok () := by
  have hin : ∀ t i, ∃ t', c.resolveInst t i = .ok t' := by
    intro t i
    unfold resolveInst
    simp only
    cases c.func.insts[i]? with
    | none => exact ⟨t, rfl⟩
    | some inst =>
      simp only
      split
      · have hp := ha (t.inst i) (c.operandScope t i inst.op (t.inst i).flags)
        rw [Scope.rank_later] at hp
        rw [if_neg (by simp; omega)]
        exact ⟨_, rfl⟩
      · exact ⟨t, rfl⟩
  have hi : ∀ is t, (c.resolveInsts is t).1 = .ok () := by
    intro is
    induction is with
    | nil => exact fun _ => rfl
    | cons i is ih =>
      intro t
      obtain ⟨t', ht'⟩ := hin t i
      simp only [resolveInsts, ht']
      exact ih t'
  have hs : ∀ fuel t, (c.settle fuel t).1 = .ok () := by
    intro fuel
    induction fuel with
    | zero => exact fun _ => rfl
    | succ fuel ih =>
      intro t
      have hro : (c.resolveRound t).1 = .ok () := hi _ _
      unfold settle
      rcases hr : c.resolveRound t with ⟨_ | _, next⟩ <;> rw [hr] at hro
      · cases hro
      · simp only
        split
        · rfl
        · exact ih next
  exact hs _ _

variable {i : InstId} {flags : UsageFlags} {site : SinkSite} {name : String} {required : Scope}
  {inst : Inst}

theorem callRule?_plain {callee : FuncId} {args : List Value}
    {rule : CallRule} (hp : c.strategy = .plain)
    (h : c.callRule? i callee args flags = some rule) : rule = Strategy.plainCall flags := by
  simp only [callRule?, Option.map_eq_some_iff] at h
  obtain ⟨d, -, rfl⟩ := h
  rw [hp]
  rfl

/-- A new place comes from what the node depends on or from a call, so it is within the table. -/
theorem Sound.put (hp : c.strategy = .plain) (hn : 0 < n) {m : Node} {y : Option Scope}
    (hl : c.Lifts t m y) (h : c.Sound n t) : c.Sound n (put t m y) := by
  have hpl : ∀ info computed, c.strategy.placeValue info computed
      = Scope.later info.scope computed := fun info computed => by
    rw [hp]
    rfl
  refine ⟨h.fits.setInfo _ _, fun k s hk => ?_, fun j inst v args hj hop => ?_⟩
  · rcases hl.scope_eq_some hk with hk | ⟨rfl, rfl⟩
    · exact h.within.scope_lt k s hk
    · rcases hl.source with hy | ⟨k', x, -, hs, hy⟩ | ⟨i, inst, rfl, -, hy⟩
      · exact h.within.scope_lt k s hy.symm
      · exact h.within.scope_lt k' s (hs.trans hy.symm)
      · rw [hpl] at hy
        rcases Scope.later_cases (t.inst i).scope
          (c.operandScope t i inst.op (t.inst i).flags) with hl | hl <;> rw [hl] at hy
        · exact h.within.scope_lt (.inst i) s hy.symm
        · rcases operandScope_eq_some hy.symm with
            ⟨k', -, hs⟩ | ⟨callee, args, rule, -, hr, hf⟩
          · exact h.within.scope_lt k' s hs
          · rw [callRule?_plain hp hr] at hf
            obtain rfl := Option.some.inj hf
            exact hn
  · have ho := h.within.indirect j inst v args hj hop
    have hi := hl.info (.inst j)
    split at hi
    · next heq =>
      subst heq
      refine (congrArg ValueInfo.scope hi).trans ?_
      rcases hl.source with hy | ⟨k', x, hk', -, -⟩ | ⟨i, inst', heq, hi', hy⟩
      · exact hy.trans ho
      · simp [DependsOn, dependencies, hj, hop, Operation.dependencies] at hk'
      · obtain rfl := Node.inst.inj heq
        obtain rfl := Option.mem_unique hj hi'
        rw [hpl, hop] at hy
        exact hy.trans ((Scope.later_none _).trans ho)
    · exact (congrArg ValueInfo.scope hi).trans ho

theorem resolve_sound (hp : c.strategy = .plain) (hn : 0 < n) (h : c.Sound n t) :
    ∃ t', c.resolve t = (.ok (), t') ∧ c.Sound n t' :=
  ⟨_, Prod.ext (resolve_ok (.of_plain hp) t) rfl,
    settle_invariant (P := c.Sound n) (fun _ _ _ hl h => h.put hp hn hl) _ (absorb_sound h)⟩

theorem sat_classify (hss : c.func.Ssa c.program) (hc : c.ParentsInRange)
    (hpl : c.strategy = .plain) (hn : 0 < n) {work : List Work} (h : c.Sound n s.table)
    (hw : ∀ w ∈ work, w.InRange c.program c.func) :
    Act.Sat Act.Never (c.classify work) s fun _ s' => c.Sound n s'.table := by
  obtain ⟨rest, s', hp, hf, hsa⟩ := propagateWithin_inRange hss hc
    (work.length + c.learnings * c.fanIn + 1) work.reverse h.fits (by simpa using hw)
  have hpr : c.propagate work s = .ok s' := by simp [propagate, hp, Except.map]
  simp only [classify, Act.sat_bind, Act.sat_get, Act.sat_ofExcept, Act.sat_set, hpr]
  refine ⟨fun s'' hs'' => ?_, by simp⟩
  obtain rfl : s' = s'' := Except.ok.inj hs''
  obtain ⟨t', ht', hs⟩ := resolve_sound hpl hn (h.of_samePlaces hf hsa)
  unfold Act.Sat
  have hr : (c.resolveAll).run s' = (.ok (), { s' with table := t' }) := by
    show resolveAll c s' = _
    simp [resolveAll, ht']
  rw [hr]
  exact hs

theorem sinkSite?_eq_some {global : Option GlobalId} {effect : Option FuncId}
    (h : c.sinkSite? global effect i = some site) :
    site.inst = i ∧ ∃ inst, c.func.insts[i]? = some inst ∧ site.block = inst.block ∧
      (∀ v ∈ site.reads, v ∈ inst.op.operands) ∧
      ((∃ v addr, inst.op = .store v addr ∧ global.isSome ∧ addr.global? = global) ∨
        ∃ callee args, inst.op = .call (.direct callee) args ∧ effect = some callee) := by
  unfold sinkSite? at h
  split at h
  · next value addr ty block hi =>
    split at h
    · next hc =>
      obtain rfl := Option.some.inj h
      rw [Bool.and_eq_true, beq_iff_eq] at hc
      exact ⟨rfl, _, hi, rfl, fun v hv => hv, .inl ⟨value, addr, rfl, hc⟩⟩
    · exact absurd h (by simp)
  · next callee args ty block hi =>
    split at h
    · next hc =>
      obtain rfl := Option.some.inj h
      refine ⟨rfl, _, hi, rfl, fun v hv => ?_, .inr ⟨callee, args, rfl, beq_iff_eq.mp hc⟩⟩
      simpa [Operation.operands, Callee.operands] using hv
    · exact absurd h (by simp)
  · exact absurd h (by simp)

theorem mem_sinkSites (h : site ∈ c.sinkSites name) :
    ∃ inst, c.func.insts[site.inst]? = some inst ∧ site.block = inst.block ∧
      (∀ v ∈ site.reads, v ∈ inst.op.operands) ∧
      ((∃ v addr, inst.op = .store v addr ∧ (c.program.globalNamed? name).isSome ∧
          addr.global? = c.program.globalNamed? name) ∨
        ∃ callee args, inst.op = .call (.direct callee) args ∧
          c.program.declNamed? name = some callee) := by
  obtain ⟨i, -, hi⟩ := List.mem_filterMap.mp h
  obtain ⟨rfl, inst, hin⟩ := sinkSite?_eq_some hi
  exact ⟨inst, hin⟩

theorem op_ne_of_mem_sinkSites (h : site ∈ c.sinkSites name)
    (hi : c.func.insts[site.inst]? = some inst) :
    (∀ addr, inst.op ≠ .load addr) ∧ ∀ incoming, inst.op ≠ .phi incoming := by
  obtain ⟨inst', hi', -, -, hw⟩ := mem_sinkSites h
  obtain rfl := Option.mem_unique hi hi'
  rcases hw with ⟨v, addr, hop, -⟩ | ⟨callee, args, hop, -⟩ <;> simp [hop]

theorem reads_of_mem_sinkSites (h : site ∈ c.sinkSites name)
    (hi : c.func.insts[site.inst]? = some inst) :
    site.reads = inst.op.operands ∧ (site.conditional = true ↔
      (∃ callee args, inst.op = .call callee args) ∨
        c.postDominators.postDominates inst.block c.func.entry = false) := by
  obtain ⟨i, -, h⟩ := List.mem_filterMap.mp h
  obtain ⟨rfl, -⟩ := sinkSite?_eq_some h
  unfold sinkSite? at h
  rw [hi] at h
  obtain ⟨op, ty, block⟩ := inst
  split at h
  · next hop =>
    cases hop
    split at h
    · rw [← Option.some.inj h]
      simp [Operation.operands]
    · cases h
  · next hop =>
    cases hop
    split at h
    · rw [← Option.some.inj h]
      simp [Operation.operands, Callee.operands]
    · cases h
  · cases h

theorem pin_sound (hr : required.val < n)
    (hop : ∀ (inst : Inst) v args, c.func.insts[i]? = some inst →
      inst.op ≠ .call (.indirect v) args)
    (h : c.Sound n t) : c.Sound n (t.pin i ⟨some required, flags⟩) := by
  refine ⟨h.fits.pin i _, fun m s hs => ?_, fun j inst v args hj hop' => ?_⟩
  · rw [Classification.info_pin] at hs
    split at hs
    · obtain rfl : required = s := Option.some.inj hs
      exact hr
    · exact h.within.scope_lt m s hs
  · have hi := t.info_pin i ⟨some required, flags⟩ (.inst j)
    have hne : ¬(Node.inst j = .inst i ∧ i < t.insts.size) := fun he =>
      hop inst v args (Node.inst.inj he.1 ▸ hj) hop'
    rw [if_neg hne] at hi
    exact (congrArg ValueInfo.scope hi).trans (h.within.indirect j inst v args hj hop')

theorem pins_sound (flags : UsageFlags) {sites : List SinkSite}
    (hr : required.val < n) (hs : ∀ site ∈ sites, site ∈ c.sinkSites name) (h : c.Sound n t) :
    c.Sound n (sites.foldl (fun t w => t.pin w.inst ⟨some required, flags⟩) t) := by
  induction sites generalizing t with
  | nil => exact h
  | cons site sites ih =>
    refine ih (fun x hx => hs x (by simp [hx])) (pin_sound hr ?_ h)
    intro inst v args hi hop
    obtain ⟨inst', hi', -, -, hc⟩ := mem_sinkSites (hs site (by simp))
    obtain rfl := Option.mem_unique hi hi'
    rcases hc with ⟨v', addr, hop', -⟩ | ⟨callee, args', hop', -⟩ <;>
      exact absurd (hop.symm.trans hop') (by simp)

theorem sinkWork_inRange (hss : c.func.Ssa c.program) (name : String) (required : Scope)
    (flags : UsageFlags) : ∀ w ∈ (c.sinkSites name).flatMap (sinkWork required flags),
      w.InRange c.program c.func := by
  intro w hw
  obtain ⟨site, hs, hw⟩ := List.mem_flatMap.mp hw
  obtain ⟨inst, hi, hb, hr, -⟩ := mem_sinkSites hs
  have hin := hss.inRange _ _ hi
  unfold sinkWork at hw
  rcases List.mem_append.mp hw with hw | hw
  · rw [Work.ofValues_eq] at hw
    obtain ⟨m, hm, rfl⟩ := List.mem_map.mp hw
    obtain ⟨v, hv, hm⟩ := List.mem_filterMap.mp hm
    exact (hin.operand v (hr v hv)).node hm
  · split at hw
    · obtain rfl := List.mem_singleton.mp hw
      show site.block < _
      rw [hb]
      exact hin.home
    · simp at hw

theorem sat_classifySink (hs : c.func.Ssa c.program) (hc : c.ParentsInRange)
    (hp : c.strategy = .plain)
    (hr : required.val < n) (h : c.Sound n s.table) :
    Act.Sat Act.Never (c.classifySink name required flags) s fun _ s' => c.Sound n s'.table := by
  have hn : 0 < n := by omega
  unfold classifySink
  simp only
  split
  · simp only [Act.sat_bind, Act.sat_modify, Act.sat_pure]
    exact h
  · next last _ =>
    simp only [Act.sat_bind, Act.sat_modify, Act.sat_get]
    refine (sat_classify hs hc hp hn (pins_sound flags hr (fun _ h => h) h)
      (sinkWork_inRange hs name required flags)).mono fun _ s' hs' => ?_
    split <;> exact hs'

theorem sat_declareRootNamed {scope : Scope}
    (hs : scope.val < n) (h : c.Sound n s.table) :
    Act.Sat Act.Never (c.declareRootNamed name scope flags) s fun _ s' => c.Sound n s'.table := by
  unfold declareRootNamed
  split
  · next g hg =>
    have hlt : g < s.table.globals.size := by
      rw [h.fits.globals]
      exact (List.findIdx?_eq_some_iff_getElem.mp hg).1
    simp only [declareRoot, Act.sat_bind, Act.sat_get, hlt, if_true, Act.sat_set]
    refine ⟨h.fits.setGlobal g _, fun m s' hs' => ?_, h.within.indirect⟩
    rw [Classification.info_setGlobal _ _ hlt] at hs'
    split at hs'
    · obtain rfl : scope = s' := Option.some.inj hs'
      exact hs
    · exact h.within.scope_lt m s' hs'
  · simp only [Act.sat_pure]
    exact h

theorem info_initial (c : Classifier) (m : Node) : c.initial.table.info m = .unknown := by
  cases m <;> simp only [initial, Classification.unknown, Classification.info, Classification.inst,
    Classification.global, Classification.block, Classification.terminator,
    Array.getElem?_replicate] <;> split <;> rfl

theorem initial_sound : c.Sound n c.initial.table := by
  refine ⟨by constructor <;> simp [initial, Classification.unknown], fun m s hs => ?_,
    fun i _ _ _ _ _ => congrArg ValueInfo.scope (info_initial c (.inst i))⟩
  rw [info_initial] at hs
  cases hs

theorem branchesInRange_of_targetsInRange {f : Function} (hr : f.TargetsInRange) :
    f.branchesInRange = true := by
  simp only [Function.branchesInRange, List.all_eq_true]
  intro q _
  cases ht : f.terminator? q with
  | none => rfl
  | some term =>
    cases term with
    | jump target => rfl
    | ret => rfl
    | branch cond ifTrue ifFalse =>
      have hs : f.successors q = [ifTrue, ifFalse] := by
        simp [Function.successors, ht, Terminator.successors]
      have htr := hr q ifTrue (by simp [hs])
      have hf := hr q ifFalse (by simp [hs])
      simp [htr, hf]

theorem parentsInRange_classifierOf (p : Program) (f : Function) (strategy : Strategy)
    (tree : PostDominators) : (classifierOf p f strategy tree).ParentsInRange :=
  fun _ _ hq => (mem_parents.mp hq).2.1

theorem sat_classifySinks (hss : c.func.Ssa c.program) (hc : c.ParentsInRange)
    (hp : c.strategy = .plain) {sinks : List Endpoint} (hsi : ∀ e ∈ sinks, e.scope.val < n)
    (h : c.Sound n s.table) :
    Act.Sat Act.Never (c.classifySinks sinks) s fun _ s' => c.Sound n s'.table := by
  unfold classifySinks
  refine (Act.sat_mapM (P := fun s => c.Sound n s.table) (R := fun _ _ => True) h
    fun e he s hs => ?_).mono fun _ _ h => h.1
  simp only [Act.sat_bind, Act.sat_pure]
  exact (sat_classifySink hss hc hp (hsi e he) hs).mono fun _ _ h => ⟨h, trivial⟩

end Classifier

theorem ScopeTable.declares_of_mentioned {t : ScopeTable} (h : t.validate = .ok ()) {s : Scope}
    (hs : s ∈ t.mentioned) : s.val < t.size ∧ t.size ≤ Scope.limit := by
  unfold validate at h
  split at h
  · exact absurd h (by simp)
  · next hn =>
    have := List.find?_eq_none.mp hn s hs
    simpa only [declares, Bool.not_eq_true', Bool.not_eq_false, Bool.and_eq_true,
      decide_eq_true_eq] using this

theorem ScopeTable.mentioned_lt {t : ScopeTable} (h : t.validate = .ok ()) :
    ∀ s ∈ t.mentioned, s.val < t.size := fun _ hs => (declares_of_mentioned h hs).1

namespace Classifier

variable {c : Classifier} {s : State} {n : Nat}

theorem sat_classifyTable (hss : c.func.Ssa c.program) (hc : c.ParentsInRange)
    (hp : c.strategy = .plain) {table : ScopeTable} (hv : table.validate = .ok ())
    (h : c.Sound table.size s.table) :
    Act.Sat Act.Never (c.classifyTable table (pure ())) s
      fun _ s' => c.Sound table.size s'.table := by
  have hlt := ScopeTable.mentioned_lt hv
  unfold classifyTable
  simp only [Act.sat_bind, Act.sat_pure]
  refine (Act.sat_forM (P := fun s => c.Sound table.size s.table) h fun root hr s hs => ?_).mono
    fun _ s' hs' => ?_
  · exact sat_declareRootNamed (hlt _ (by simp [ScopeTable.mentioned]; exact .inl ⟨root, hr, rfl⟩)) hs
  · refine (sat_classifySinks hss hc hp (fun e he => hlt _ ?_) hs').mono fun _ _ h => h
    simp [ScopeTable.mentioned]
    exact .inr (.inl ⟨e, he, rfl⟩)

end Classifier

end Stagewise
