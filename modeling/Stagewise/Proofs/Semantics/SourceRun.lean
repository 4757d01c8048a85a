import Stagewise.Proofs.Semantics.Stages

namespace Stagewise

def Operation.mask? : Operation → Option (List Nat)
  | .shuffle _ _ mask => some mask
  | _ => none

def Operation.element? : Operation → Option (GlobalId × List Step)
  | .load (.element g path) => some (g, path)
  | _ => none

def Value.InPool (types : TypePool) : Value → Prop
  | .const k => k.ty < types.size
  | _ => True

instance (types : TypePool) : DecidablePred (Value.InPool types)
  | .const k => inferInstanceAs (Decidable (k.ty < types.size))
  | .inst _ => .isTrue trivial
  | .global _ => .isTrue trivial

namespace Function

/-- The entry block returns. In it, every operand stands before its uses, nothing is a phi, and a
shuffle has as many positions as its type has lanes. -/
structure StraightLine (types : TypePool) (f : Function) : Prop where
  ret : f.terminator? f.entry = some .ret
  nodup : (f.instsOf f.entry).Nodup
  listed : ∀ i ∈ f.instsOf f.entry, i < f.numInsts
  ordered : ∀ i ∈ f.instsOf f.entry, ∀ inst ∈ f.insts[i]?, ∀ v ∈ inst.op.operands, ∀ j ∈ v.inst?,
    [j, i].Sublist (f.instsOf f.entry)
  not_phi : ∀ i ∈ f.instsOf f.entry, ∀ inst ∈ f.insts[i]?, inst.op.isPhi = false
  mask : ∀ i ∈ f.instsOf f.entry, ∀ inst ∈ f.insts[i]?, ∀ mask ∈ inst.op.mask?,
    types.lengthOf inst.ty = some mask.length

/-- The pool has given out the types of all instructions and of all constants that they take. -/
def InPool (types : TypePool) (f : Function) : Prop :=
  ∀ inst ∈ f.insts, inst.ty < types.size ∧ ∀ v ∈ inst.op.operands, v.InPool types

variable {types : TypePool} {f : Function}

theorem straightLine_iff : f.StraightLine types ↔ f.terminator? f.entry = some .ret ∧
    (f.instsOf f.entry).Nodup ∧ (∀ i ∈ f.instsOf f.entry, i < f.numInsts) ∧
    ∀ i ∈ f.instsOf f.entry, ∀ inst ∈ f.insts[i]?,
      (∀ v ∈ inst.op.operands, ∀ j ∈ v.inst?, [j, i].Sublist (f.instsOf f.entry)) ∧
      inst.op.isPhi = false ∧ ∀ mask ∈ inst.op.mask?, types.lengthOf inst.ty = some mask.length := by
  constructor
  · intro h
    exact ⟨h.ret, h.nodup, h.listed,
      fun i hi inst hin => ⟨h.ordered i hi inst hin, h.not_phi i hi inst hin,
        h.mask i hi inst hin⟩⟩
  · rintro ⟨hr, hn, hl, hins⟩
    exact ⟨hr, hn, hl, fun i hi inst hin => (hins i hi inst hin).1,
      fun i hi inst hin => (hins i hi inst hin).2.1,
      fun i hi inst hin => (hins i hi inst hin).2.2⟩

instance : Decidable (f.StraightLine types) := decidable_of_iff _ straightLine_iff.symm

instance : Decidable (f.InPool types) :=
  inferInstanceAs (Decidable (∀ inst ∈ f.insts, inst.ty < types.size ∧
    ∀ v ∈ inst.op.operands, v.InPool types))

theorem StraightLine.mem_before (h : f.StraightLine types) {before after : List InstId} {i : InstId}
    (heq : f.instsOf f.entry = before ++ i :: after) {inst : Inst} (hi : f.insts[i]? = some inst)
    {j : InstId} (hj : .inst j ∈ inst.op.operands) : j ∈ before := by
  apply mem_of_pair_sublist (heq ▸ h.nodup)
  rw [← heq]
  exact h.ordered i (by simp [heq]) inst hi _ hj j rfl

end Function

namespace Machine

variable {α : Type} (M : Machine α) {types types' : TypePool} {p : Program} {f : Function}
  {m : Memory α}

def InBounds (types : TypePool) (p : Program) (f : Function) (m : Memory α) : Prop :=
  ∀ i ∈ f.instsOf f.entry, ∀ inst ∈ f.insts[i]?, ∀ g path decl, inst.op = .load (.element g path) →
    p.globals[g]? = some decl → types.InBounds decl.ty
      (path.map (M.position (M.operand types p (M.run types p f m).values m)))

theorem inBounds_iff : M.InBounds types p f m ↔ ∀ i ∈ f.instsOf f.entry, ∀ inst ∈ f.insts[i]?,
    ∀ e ∈ inst.op.element?, ∀ decl ∈ p.globals[e.1]?, types.InBounds decl.ty
      (e.2.map (M.position (M.operand types p (M.run types p f m).values m))) := by
  refine ⟨fun h i hi inst hin e he decl hd => ?_, fun h i hi inst hin g path decl hop hd => ?_⟩
  · unfold Operation.element? at he
    split at he
    · next g path hop =>
      obtain rfl := Option.some.inj he
      exact h i hi inst hin g path decl hop hd
    · cases he
  · exact h i hi inst hin (g, path) (by rw [hop]; rfl) decl hd

instance : Decidable (M.InBounds types p f m) := decidable_of_iff _ (inBounds_iff M).symm

theorem operand_inPool (htypes : types.Extends types') (w : InstId → Datum α) {v : Value}
    (hv : v.InPool types) : M.operand types' p w m v = M.operand types p w m v := by
  cases v with
  | inst i => rfl
  | global g => rfl
  | const k =>
    simp only [operand, constant]
    rw [htypes.get k.ty hv]

def effects (types : TypePool) (p : Program) (f : Function) (m : Memory α) : List (Effect α) :=
  (f.instsOf f.entry).filterMap (M.effectOf types p f (M.run types p f m).values m)

section Run

variable (hline : f.StraightLine types) (hseparates : p.Separates f)

include hline hseparates

theorem compute_run_eq {i : InstId} (hi : i ∈ f.instsOf f.entry) {inst : Inst}
    (hin : f.insts[i]? = some inst) :
    M.compute p (M.operand types p (M.run types p f m).values m) m inst
      = (M.run types p f m).values i :=
  compute_run hline.nodup (fun _ _ _ heq _ hin _ hj => hline.mem_before heq hin hj) hseparates
    hi hin

theorem run_eq_effects :
    (M.run types p f m).memory = (M.effects types p f m).foldl Effect.on m ∧
      (M.run types p f m).calls = (M.effects types p f m).filterMap Effect.call? := by
  have hw : ∀ i ∈ f.instsOf f.entry, ∀ x v,
      M.effectOf types p f (M.run types p f m).values m i = some (.write x v) → v = m.read x ∨
        ∀ j ∈ f.instsOf f.entry, ∀ inst, f.insts[j]? = some inst →
          x.binding ∉ p.readNames inst.op := by
    intro i hi x v he
    obtain ⟨inst, hin, he⟩ := Option.bind_eq_some_iff.mp he
    exact .inr fun j hj inst' hi' hn =>
      hseparates i hi inst hin j hj inst' hi' _ hn (storeName?_of_effect? he)
  exact (foldl_step hline.listed (fun _ _ _ heq _ hin _ hj => hline.mem_before heq hin hj)
    (fun i hi inst hin => M.compute_run_eq hline hseparates hi hin) hw (.start m)
    fun _ _ _ _ _ _ => rfl).2

end Run

def scenario (types types' : TypePool) (src : Source) (ledger : Ledger)
    (layouts : List TransferLayout) (m : Memory α) : Scenario α where
  machine := M
  source := src
  pool := types
  types := types'
  ledger := ledger
  layouts := layouts
  values := (M.run types src.program src.func m).values
  memory := m

section Scenario

variable {src : Source} {ledger : Ledger} {layouts : List TransferLayout}
  (hpool : src.func.InPool types) (htypes : types.Extends types')

include hpool htypes

theorem eval_scenario {i : InstId} {inst : Inst} (hi : src.func.insts[i]? = some inst) {v : Value}
    (hv : v ∈ inst.op.operands) : (M.scenario types types' src ledger layouts m).eval v
      = M.operand types src.program (M.run types src.program src.func m).values m v :=
  M.operand_inPool htypes _ ((hpool inst (Array.mem_of_getElem? hi)).2 v hv)

theorem effectOf_scenario (i : InstId) : (M.scenario types types' src ledger layouts m).effectOf i
    = M.effectOf types src.program src.func (M.run types src.program src.func m).values m i := by
  cases hi : src.func.insts[i]? with
  | none => simp [Scenario.effectOf, effectOf, scenario, hi]
  | some inst =>
    rw [Emission.effectOf_eq hi, effectOf, hi, Option.bind_some]
    exact effect?_congr fun v hv => M.eval_scenario hpool htypes hi hv

/-- The run of a straight-line function that reads no binding it writes is a consistent scenario. -/
theorem consistent_scenario (hline : src.func.StraightLine types) (hg : types.Grounded)
    (hseparates : src.program.Separates src.func)
    (hb : M.InBounds types src.program src.func m)
    (hfresh : ∀ decl ∈ src.program.globals, decl.name ∉ layouts.map TransferLayout.name) :
    (M.scenario types types' src ledger layouts m).Consistent where
  types := htypes
  int := by
    have hlt : TypeId.int < types.size := TypePool.lt_size_of_get hg.int (by simp)
    exact (htypes.get _ hlt).trans hg.int
  operand i hi inst hin j hj :=
    (hline.ordered i hi inst hin _ hj j rfl).subset List.mem_cons_self
  not_phi := hline.not_phi
  computed i hi inst hin :=
    (compute_congr (fun v hv => M.eval_scenario hpool htypes hin hv) fun _ _ => rfl).trans
      (M.compute_run_eq hline hseparates hi hin)
  typed i hi inst hin := (hpool inst (Array.mem_of_getElem? hin)).1
  mask i hi inst hin a b mask hop := hline.mask i hi inst hin mask (by rw [hop]; rfl)
  inBounds i hi inst hin g path decl hop hd := by
    have hp : path.map (M.position (M.scenario types types' src ledger layouts m).eval)
        = path.map (M.position (M.operand types src.program
          (M.run types src.program src.func m).values m)) := by
      refine List.map_congr_left fun step hst => ?_
      cases step with
      | fixed k => rfl
      | dynamic v =>
        have hv : v ∈ inst.op.operands := by
          rw [hop]
          exact List.mem_filterMap.mpr ⟨_, hst, rfl⟩
        simp only [position, M.eval_scenario hpool htypes hin hv]
    have hs : (M.scenario types types' src ledger layouts m).machine = M := rfl
    rw [hs, hp]
    exact hb i hi inst hin g path decl hop hd
  fresh := hfresh

end Scenario

end Machine

namespace Scenario

variable {α : Type} {c : Scenario α}

def contents (c : Scenario α) (l : TransferLayout) : Datum α :=
  .node ((c.valuesOf l).map c.slotDatum ++ (c.arraysOf l).map c.arrayDatum)

def stock (c : Scenario α) : Scenario α :=
  { c with memory := fun name => (c.layouts.find? (·.name == name)).elim (c.memory name) c.contents }

theorem stock_memory {name : String} (h : name ∉ c.records) :
    c.stock.memory name = c.memory name := by
  have hn : c.layouts.find? (·.name == name) = none :=
    List.find?_eq_none.mpr fun l hl heq => h (beq_iff_eq.mp heq ▸ List.mem_map_of_mem hl)
  simp only [stock, hn, Option.elim_none]

section Fresh

variable (hfresh : ∀ decl ∈ c.source.program.globals, decl.name ∉ c.records)

include hfresh

theorem eval_stock : c.stock.eval = c.eval := by
  funext v
  refine Machine.operand_congr (fun _ _ => rfl) fun name hn => ?_
  cases v with
  | inst i | const k => cases hn
  | global g =>
    obtain ⟨decl, hd, rfl⟩ := Program.exists_decl_of_globalName? hn
    exact stock_memory (hfresh decl hd)

theorem effectOf_stock (i : InstId) : c.stock.effectOf i = c.effectOf i := by
  show (c.source.func.insts[i]?.bind fun inst => c.machine.effect? c.source.program c.stock.eval inst.op)
    = _
  rw [eval_stock hfresh]
  rfl

theorem element_stock (slot : ArraySlot) (k : Nat) :
    c.stock.element slot k = c.element slot k := by
  cases hn : c.source.program.globalName? slot.global with
  | none => simp only [element, stock, hn, Option.elim_none]
  | some name =>
    obtain ⟨decl, hd, rfl⟩ := Program.exists_decl_of_globalName? hn
    have hs : c.stock.source = c.source := rfl
    rw [element, element, hs, hn, Option.elim_some, Option.elim_some, Memory.read,
      stock_memory (hfresh decl hd)]
    rfl

theorem stocked_stock (hn : c.records.Nodup) : c.stock.Stocked := by
  intro l hl
  replace hl : l ∈ c.layouts := hl
  have hf : c.layouts.find? (·.name == l.name) = some l := by
    obtain ⟨before, after, heq⟩ := List.append_of_mem hl
    refine List.find?_eq_some_iff_append.mpr ⟨beq_self_eq_true _, before, after, heq, ?_⟩
    intro l' hl'
    rw [records, heq, List.map_append, List.nodup_append] at hn
    have hne := hn.2.2 l'.name (List.mem_map_of_mem hl') l.name (by simp)
    simpa using hne
  have hc : c.stock.memory l.name = c.contents l := by
    simp only [stock, hf, Option.elim_some]
  have ha : c.stock.arrayDatum = c.arrayDatum := by
    funext slot
    exact congrArg Datum.node (List.map_congr_left fun k _ => element_stock hfresh slot k)
  rw [hc, ha]
  rfl

end Fresh

theorem Consistent.stock (h : c.Consistent) : c.stock.Consistent where
  types := h.types
  int := h.int
  operand := h.operand
  not_phi := h.not_phi
  computed i hi inst hin := by
    rw [eval_stock h.fresh]
    refine (Machine.compute_congr (fun _ _ => rfl) fun x hx => ?_).trans (h.computed i hi inst hin)
    have hr := Machine.binding_of_mem_reads
      (List.mem_append_right _ (Option.mem_toList.mpr hx))
    obtain ⟨decl, hd, hn⟩ := Program.exists_decl_of_mem_readNames hr
    rw [Memory.read, stock_memory (hn ▸ h.fresh decl hd)]
    rfl
  typed := h.typed
  mask := h.mask
  inBounds := by
    rw [eval_stock h.fresh]
    exact h.inBounds
  fresh := h.fresh

end Scenario

end Stagewise
