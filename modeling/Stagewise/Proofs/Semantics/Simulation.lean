import Stagewise.Emission.Record
import Stagewise.Proofs.Emission.Picture
import Stagewise.Proofs.Semantics.Machine
import Stagewise.Proofs.Semantics.Straight

namespace Stagewise

namespace Machine

variable {α : Type} {M : Machine α} {types : TypePool} {p p' : Program} {op : Operation}
  {w w' : InstId → Datum α} {t : Memory α}

section Extends

variable (hop : p.Holds op) (hglobals : p.globals <+: p'.globals) (hdecls : p.decls <+: p'.decls)
  (hw : ∀ j, .inst j ∈ op.operands → w' j = w j) {v : Value}

include hglobals in
theorem globalName?_extends {g : GlobalId} (hg : g < p.numGlobals) :
    p'.globalName? g = p.globalName? g := by
  obtain ⟨rest, hr⟩ := hglobals
  rw [Program.globalName?, Program.globalName?, ← hr, List.getElem?_append_left hg]

include hop hglobals in
theorem operandName?_extends (hv : v ∈ op.operands) : p'.operandName? v = p.operandName? v := by
  cases v with
  | inst j => rfl
  | const c => rfl
  | global g => exact globalName?_extends hglobals (hop.operand g hv)

include hop hglobals hw in
theorem operand_extends (hv : v ∈ op.operands) :
    M.operand types p' w' t v = M.operand types p w t v := by
  cases v with
  | inst j => exact hw j hv
  | const c => rfl
  | global g => simp only [operand, globalName?_extends hglobals (hop.operand g hv)]

include hop hglobals hw in
theorem place?_extends {addr : Address} (ha : op.address? = some addr)
    (hi : ∀ v ∈ addr.indexValues, v ∈ op.operands) :
    M.place? p' (M.operand types p' w' t) addr = M.place? p (M.operand types p w t) addr := by
  have hn : ∀ g, addr.global? = some g → p'.globalName? g = p.globalName? g := fun g hg =>
    globalName?_extends hglobals (hop.address addr g ha hg)
  rw [place?_congr fun v hv => operand_extends hop hglobals hw (hi v hv)]
  cases addr with
  | pending => rfl
  | member g path | element g path => simp only [place?, hn g rfl]

include hop hglobals hdecls hw in
theorem compute_extends (ty : TypeId) (b : BlockId) :
    M.compute p' (M.operand types p' w' t) t ⟨op, ty, b⟩
      = M.compute p (M.operand types p w t) t ⟨op, ty, b⟩ := by
  have hev : ∀ v ∈ op.operands, M.operand types p' w' t v = M.operand types p w t v :=
    fun v hv => operand_extends hop hglobals hw hv
  have hpr : M.compute p' (M.operand types p w t) t ⟨op, ty, b⟩
      = M.compute p (M.operand types p w t) t ⟨op, ty, b⟩ := by
    cases op with
    | load addr =>
      have hp : M.place? p' (M.operand types p' w' t) addr
          = M.place? p (M.operand types p w t) addr :=
        place?_extends hop hglobals hw rfl fun v hv => hv
      rw [place?_congr hev] at hp
      simp only [compute, hp]
    | call callee args =>
      cases callee with
      | indirect target => rfl
      | direct callee =>
        obtain ⟨rest, hr⟩ := hdecls
        simp only [compute, ← hr, List.getElem?_append_left (hop.callee callee args rfl)]
    | _ => rfl
  rw [← hpr]
  exact compute_congr hev fun x _ => rfl

include hop hglobals hdecls hw in
theorem effect?_extends : M.effect? p' (M.operand types p' w' t) op
    = M.effect? p (M.operand types p w t) op := by
  have hev : ∀ v ∈ op.operands, M.operand types p' w' t v = M.operand types p w t v :=
    fun v hv => operand_extends hop hglobals hw hv
  cases op with
  | store v addr =>
    have hp : M.place? p' (M.operand types p' w' t) addr
        = M.place? p (M.operand types p w t) addr :=
      place?_extends hop hglobals hw rfl fun v hv => List.mem_cons_of_mem _ hv
    simp only [effect?, hp, hev v List.mem_cons_self]
  | call callee args =>
    cases callee with
    | indirect target => rfl
    | direct callee =>
      obtain ⟨rest, hr⟩ := hdecls
      have ha : args.map (M.operand types p' w' t) = args.map (M.operand types p w t) :=
        List.map_congr_left fun v hv => hev v (by simpa [Operation.operands] using .inr hv)
      simp only [effect?, ← hr, List.getElem?_append_left (hop.callee callee args rfl), ha]
  | _ => rfl

include hop hglobals hw in
theorem reads_extends : M.reads p' (M.operand types p' w' t) op
    = M.reads p (M.operand types p w t) op := by
  have hn : op.operands.filterMap p'.operandName? = op.operands.filterMap p.operandName? :=
    List.filterMap_congr fun v hv => operandName?_extends hop hglobals hv
  have hload : M.loadPlace? p' (M.operand types p' w' t) op
      = M.loadPlace? p (M.operand types p w t) op := by
    cases op with
    | load addr => exact place?_extends hop hglobals hw rfl fun v hv => hv
    | _ => rfl
  rw [reads, reads, hn, hload]

end Extends

end Machine

/-- A run of a source that the runs of its parts are compared with. -/
structure Scenario (α : Type) where
  machine : Machine α
  source : Source
  pool : TypePool
  types : TypePool
  ledger : Ledger
  layouts : List TransferLayout
  values : InstId → Datum α
  /-- What the parts read: records are filled, and other bindings hold what they hold at the start. -/
  memory : Memory α

namespace Scenario

variable {α : Type} (c : Scenario α)

def order : List InstId := c.source.func.instsOf c.source.func.entry

def eval : Value → Datum α := c.machine.operand c.types c.source.program c.values c.memory

def effectOf (i : InstId) : Option (Effect α) :=
  c.machine.effectOf c.types c.source.program c.source.func c.values c.memory i

def Reads (name : String) : Prop :=
  ∃ i ∈ c.order, ∃ inst, c.source.func.insts[i]? = some inst ∧
    name ∈ c.source.program.readNames inst.op

def records : List String := c.layouts.map TransferLayout.name

def slotDatum (slot : ValueSlot) : Datum α :=
  if slot.scalarized then (c.values slot.source).part 0 else c.values slot.source

def element (slot : ArraySlot) (k : Nat) : Datum α :=
  (c.source.program.globalName? slot.global).elim .blank
    fun name => c.memory.read ⟨name, slot.path.map (·.getD k)⟩

def arrayDatum (slot : ArraySlot) : Datum α := .node ((List.range slot.len).map (c.element slot))

def valuesOf (l : TransferLayout) : List ValueSlot :=
  c.ledger.valuesOf c.pool ⟨l.src, l.dst, l.objects⟩

def arraysOf (l : TransferLayout) : List ArraySlot :=
  c.ledger.arraysOf c.pool ⟨l.src, l.dst, l.objects⟩

inductive FieldOf (l : TransferLayout) : Place → Prop
  | value {f : Nat} {slot : ValueSlot} : (c.valuesOf l)[f]? = some slot → FieldOf l ⟨l.name, [f]⟩
  | element {f k : Nat} {slot : ArraySlot} : (c.arraysOf l)[f]? = some slot → k < slot.len →
      FieldOf l ⟨l.name, [(c.valuesOf l).length + f, k]⟩

def Hands (scope : Scope) (y : Place) : Prop :=
  ∃ l ∈ c.layouts, l.dst = scope ∧ c.FieldOf l y

def isPublic : Effect α → Bool
  | .write y _ => !c.records.contains y.binding
  | .call _ _ => true

def evalIn (d : Draft) (w : InstId → Datum α) : Value → Datum α :=
  c.machine.operand c.types d.program w c.memory

def effectIn (d : Draft) (w : InstId → Datum α) (e : InstId) : Option (Effect α) :=
  c.machine.effectOf c.types d.program d.builder.func w c.memory e

theorem effectIn_eq {d : Draft} {w : InstId → Datum α} {e : InstId} {inst : Inst}
    (he : d.builder.func.insts[e]? = some inst) :
    c.effectIn d w e = c.machine.effect? d.program (c.evalIn d w) inst.op := by
  rw [effectIn, Machine.effectOf, he]
  rfl

end Scenario

namespace Draft

variable {α : Type} {c : Scenario α} {H H' : Place → Prop} {E E' : List (Effect α)}
  {w : InstId → Datum α} {d d' : Draft}

/-- The instructions of a part compute given values, and make given effects apart from filling
records. The places that other parts fill are given. -/
structure Simulates (c : Scenario α) (H : Place → Prop) (E : List (Effect α))
    (w : InstId → Datum α) (d : Draft) : Prop where
  globals : ∀ g copy, d.globals.lookup g = some copy → copy < d.program.numGlobals ∧
    d.program.globalName? copy = c.source.program.globalName? g
  computed : ∀ (e : InstId) (inst : Inst), d.builder.func.insts[e]? = some inst →
    inst.op ≠ .load .pending → c.machine.compute d.program (c.evalIn d w) c.memory inst = w e
  reads : ∀ (e : InstId) (inst : Inst), d.builder.func.insts[e]? = some inst →
    ∀ y ∈ c.machine.reads d.program (c.evalIn d w) inst.op, c.Reads y.binding ∨ H y
  fills : ∀ e y v, c.effectIn d w e = some (.write y v) → y.binding ∈ c.records →
    v = c.memory.read y
  copies : ∀ i v, (i, v) ∈ d.copies →
    ∃ e, v = .inst e ∧ e < d.builder.func.numInsts ∧ w e = c.values i
  taken : ∀ i v, d.reads.lookup i = some v →
    ∃ e, v = .inst e ∧ e < d.builder.func.numInsts ∧ w e = c.values i
  script : ((d.builder.func.instsOf d.entry).filterMap (c.effectIn d w)).filter c.isPublic = E

def Fills (c : Scenario α) (w : InstId → Datum α) (d : Draft) (y : Place) : Prop :=
  ∃ e, c.effectIn d w e = some (.write y (c.memory.read y))

theorem simulates_empty (c : Scenario α) (H : Place → Prop) (w : InstId → Datum α) (scope : Scope)
    (program func : String) : (Draft.empty scope program func).Simulates c H [] w := by
  have hn : ∀ e : InstId, (Draft.empty scope program func).builder.func.insts[e]? = none := by
    simp [empty, Builder.empty, Function.empty]
  refine ⟨?_, fun e inst he => ?_, fun e inst he => ?_, fun e y v he => ?_, ?_, ?_, rfl⟩
  · simp [empty]
  · rw [hn] at he
    cases he
  · rw [hn] at he
    cases he
  · rw [Scenario.effectIn, Machine.effectOf, hn] at he
    cases he
  · simp [empty]
  · simp [empty]

section Grown

variable {w' : InstId → Datum α} (hs : d.Straight) (hglobals : d.program.globals <+: d'.program.globals)
  (hdecls : d.program.decls <+: d'.program.decls)
  (hw : ∀ e, e < d.builder.func.numInsts → w' e = w e) {e : InstId} {inst : Inst}
  (he : d.builder.func.insts[e]? = some inst)

include hs hglobals hdecls hw he in
theorem compute_grown : c.machine.compute d'.program (c.evalIn d' w') c.memory inst
    = c.machine.compute d.program (c.evalIn d w) c.memory inst :=
  Machine.compute_extends (hs.holds e inst he) hglobals hdecls
    (fun j hj => hw j (hs.operand_lt he hj)) inst.ty inst.block

include hs hglobals hw he in
theorem reads_grown : c.machine.reads d'.program (c.evalIn d' w') inst.op
    = c.machine.reads d.program (c.evalIn d w) inst.op :=
  Machine.reads_extends (hs.holds e inst he) hglobals fun j hj => hw j (hs.operand_lt he hj)

include hs hglobals hdecls hw he in
theorem effectIn_grown (he' : d'.builder.func.insts[e]? = some inst) :
    c.effectIn d' w' e = c.effectIn d w e := by
  rw [c.effectIn_eq he, c.effectIn_eq he']
  exact Machine.effect?_extends (hs.holds e inst he) hglobals hdecls
    fun j hj => hw j (hs.operand_lt he hj)

end Grown

theorem effectIn_eq_none {e : InstId} (he : d.builder.func.numInsts ≤ e) :
    c.effectIn d w e = none := by
  rw [Scenario.effectIn, Machine.effectOf, Array.getElem?_eq_none he]
  rfl

section SameCode

variable (hs : d.Straight) (hinsts : d'.builder.func.insts = d.builder.func.insts)
  (hglobals : d.program.globals <+: d'.program.globals)
  (hdecls : d.program.decls <+: d'.program.decls)

include hs hinsts hglobals hdecls

theorem effectIn_of_insts (e : InstId) : c.effectIn d' w e = c.effectIn d w e := by
  cases he : d.builder.func.insts[e]? with
  | none =>
    have hle : d.builder.func.numInsts ≤ e := Array.getElem?_eq_none_iff.mp he
    rw [effectIn_eq_none hle, effectIn_eq_none]
    rwa [Function.numInsts, hinsts]
  | some inst => exact effectIn_grown hs hglobals hdecls (fun _ _ => rfl) he (hinsts ▸ he)

theorem Fills.of_insts {y : Place} (h : d.Fills c w y) : d'.Fills c w y := by
  obtain ⟨e, he⟩ := h
  exact ⟨e, (effectIn_of_insts hs hinsts hglobals hdecls e).trans he⟩

theorem Simulates.of_insts (h : d.Simulates c H E w)
    (hl : d'.builder.func.instsOf d'.entry = d.builder.func.instsOf d.entry)
    (ht : ∀ g copy, d'.globals.lookup g = some copy → copy < d'.program.numGlobals ∧
      d'.program.globalName? copy = c.source.program.globalName? g)
    (hc : ∀ i v, (i, v) ∈ d'.copies → (i, v) ∈ d.copies ∨
      ∃ e, v = .inst e ∧ e < d.builder.func.numInsts ∧ w e = c.values i)
    (hr : d'.reads = d.reads) : d'.Simulates c H E w := by
  have hef : c.effectIn d' w = c.effectIn d w :=
    funext (effectIn_of_insts hs hinsts hglobals hdecls)
  have hn : d'.builder.func.numInsts = d.builder.func.numInsts := congrArg Array.size hinsts
  refine ⟨ht, fun e inst he hop => ?_, fun e inst he y hy => ?_, ?_, fun i v hv => ?_, ?_, ?_⟩
  · rw [hinsts] at he
    rw [compute_grown hs hglobals hdecls (fun _ _ => rfl) he]
    exact h.computed e inst he hop
  · rw [hinsts] at he
    rw [reads_grown hs hglobals (fun _ _ => rfl) he] at hy
    exact h.reads e inst he y hy
  · rw [hef]
    exact h.fills
  · rw [hn]
    rcases hc i v hv with ho | hne
    · exact h.copies i v ho
    · exact hne
  · rw [hr, hn]
    exact h.taken
  · rw [hl, hef]
    exact h.script

end SameCode

section Insert

variable {pos : Nat} {ty : TypeId} {op : Operation} {x : Datum α}

theorem update_old {e : InstId} (he : e < d.builder.func.numInsts) :
    Function.update w d.builder.func.numInsts x e = w e :=
  Function.update_of_ne (Nat.ne_of_lt he) ..

/-- A part with one more instruction, whose result may stand for one of the source. -/
structure Gains (c : Scenario α) (d : Draft) (pos : Nat) (ty : TypeId) (op : Operation)
    (x : Datum α) (d' : Draft) : Prop extends d.Inserts pos ty op d' where
  globals : d'.globals = d.globals
  copies : ∀ i v, (i, v) ∈ d'.copies → (i, v) ∈ d.copies ∨
    v = .inst d.builder.func.numInsts ∧ x = c.values i
  taken : ∀ i v, d'.reads.lookup i = some v → d.reads.lookup i = some v ∨
    v = .inst d.builder.func.numInsts ∧ x = c.values i

theorem gains_of_eq (h : d.Inserts pos ty op d') (hglobals : d'.globals = d.globals)
    (hc : d'.copies = d.copies) (hr : d'.reads = d.reads) :
    d.Gains c pos ty op x d' :=
  ⟨h, hglobals, fun _ _ hv => .inl (hc ▸ hv), fun _ _ hv => .inl (hr ▸ hv)⟩

theorem gains_copy (d : Draft) (ty : TypeId) (op : Operation) (i : InstId) :
    d.Gains c (d.builder.func.instsOf d.entry).length ty op (c.values i)
      ((d.append d.entry ty op).2.addCopy i (.inst (d.append d.entry ty op).1)) := by
  refine ⟨⟨rfl, rfl, rfl⟩, rfl, fun j v hv => ?_, fun _ _ hv => .inl hv⟩
  rcases List.mem_cons.mp hv with heq | hv
  · obtain ⟨rfl, rfl⟩ := Prod.mk.inj heq
    exact .inr ⟨rfl, rfl⟩
  · exact .inl hv

/-- An operation that a part can run behind its code, with what it comes to. -/
structure Operates (c : Scenario α) (H : Place → Prop) (w : InstId → Datum α) (d : Draft)
    (ty : TypeId) (op : Operation) (x : Datum α) : Prop where
  holds : d.program.Holds op
  operands : ∀ j, .inst j ∈ op.operands → j < d.builder.func.numInsts
  computed : op ≠ .load .pending →
    c.machine.compute d.program (c.evalIn d w) c.memory ⟨op, ty, d.entry⟩ = x
  reads : ∀ y ∈ c.machine.reads d.program (c.evalIn d w) op, c.Reads y.binding ∨ H y

theorem effectIn_insert_old (hs : d.Straight) (hin : d.Inserts pos ty op d') {e : InstId}
    (he : e < d.builder.func.numInsts) :
    c.effectIn d' (Function.update w d.builder.func.numInsts x) e = c.effectIn d w e := by
  have hi := Array.getElem?_eq_getElem he
  refine effectIn_grown hs (hin.program ▸ List.prefix_rfl) (hin.program ▸ List.prefix_rfl)
    (fun e he => update_old he) hi ?_
  rw [hin.func, Function.insertAt_getElem?_insts _ _ _ _ he]
  exact hi

theorem Fills.insert (hs : d.Straight) (hi : d.Inserts pos ty op d') {y : Place}
    (h : d.Fills c w y) : d'.Fills c (Function.update w d.builder.func.numInsts x) y := by
  obtain ⟨e, he⟩ := h
  refine ⟨e, ?_⟩
  rw [effectIn_insert_old hs hi, he]
  by_contra hge
  rw [effectIn_eq_none (Nat.not_lt.mp hge)] at he
  cases he

theorem effectIn_insert_self (hin : d.Inserts pos ty op d') (hop : d.program.Holds op)
    (ho : ∀ j, .inst j ∈ op.operands → j < d.builder.func.numInsts) :
    c.effectIn d' (Function.update w d.builder.func.numInsts x) d.builder.func.numInsts
      = c.machine.effect? d.program (c.evalIn d w) op := by
  have hi : d'.builder.func.insts[d.builder.func.numInsts]? = some ⟨op, ty, d.entry⟩ := by
    rw [hin.func]
    exact Function.insertAt_getElem?_insts_self ..
  rw [c.effectIn_eq hi]
  exact Machine.effect?_extends hop (hin.program ▸ List.prefix_rfl)
    (hin.program ▸ List.prefix_rfl) fun j hj => update_old (ho j hj)

/-- A new instruction that operates on the values of the run keeps the simulation. -/
theorem Simulates.insert (h : d.Simulates c H E w) (hs : d.Straight)
    (hg : d.Gains c pos ty op x d') (hop : d.Operates c H w ty op x)
    (hfi : ∀ y v, c.machine.effect? d.program (c.evalIn d w) op = some (.write y v) →
      y.binding ∈ c.records → v = c.memory.read y)
    (hE : E' = E ++ (c.machine.effect? d.program (c.evalIn d w) op).toList.filter c.isPublic)
    (hpo : (d.builder.func.instsOf d.entry).length ≤ pos ∨
      (c.machine.effect? d.program (c.evalIn d w) op).toList.filter c.isPublic = []) :
    d'.Simulates c H E' (Function.update w d.builder.func.numInsts x) := by
  have hi := hg.toInserts
  have hb : d.program.globals <+: d'.program.globals := hi.program ▸ List.prefix_rfl
  have hf : d.program.decls <+: d'.program.decls := hi.program ▸ List.prefix_rfl
  have hva : ∀ {i : InstId} {v : Value},
      (∃ e, v = .inst e ∧ e < d.builder.func.numInsts ∧ w e = c.values i) ∨
        v = .inst d.builder.func.numInsts ∧ x = c.values i →
      ∃ e, v = .inst e ∧ e < d'.builder.func.numInsts ∧
        Function.update w d.builder.func.numInsts x e = c.values i := by
    rintro i v (⟨e, rfl, he, hv⟩ | ⟨rfl, rfl⟩)
    · exact ⟨e, rfl, hi.numInsts ▸ Nat.lt_succ_of_lt he, (update_old he).trans hv⟩
    · exact ⟨_, rfl, hi.numInsts ▸ Nat.lt_succ_self _, Function.update_self ..⟩
  have hse : c.effectIn d' (Function.update w d.builder.func.numInsts x) d.builder.func.numInsts
      = c.machine.effect? d.program (c.evalIn d w) op :=
    effectIn_insert_self hi hop.holds hop.operands
  refine ⟨?_, fun e inst he hp => ?_, fun e inst he y hy => ?_, fun e y v he hy => ?_,
    fun i v hv => hva ?_, fun i v hv => hva ?_, ?_⟩
  · rw [hg.globals, hi.program]
    exact h.globals
  · rcases hi.cases he with ho | ⟨rfl, rfl⟩
    · rw [compute_grown hs hb hf (fun e he => update_old he) ho,
        update_old (Array.getElem?_eq_some_iff.mp ho).1]
      exact h.computed e inst ho hp
    · rw [Function.update_self, ← hop.computed hp]
      exact Machine.compute_extends hop.holds hb hf
        (fun j hj => update_old (hop.operands j hj)) ty _
  · rcases hi.cases he with ho | ⟨rfl, rfl⟩
    · rw [reads_grown hs hb (fun e he => update_old he) ho] at hy
      exact h.reads e inst ho y hy
    · have hsa : c.machine.reads d'.program
          (c.evalIn d' (Function.update w d.builder.func.numInsts x)) op
            = c.machine.reads d.program (c.evalIn d w) op :=
        Machine.reads_extends hop.holds hb fun j hj => update_old (hop.operands j hj)
      exact hop.reads y (hsa ▸ hy)
  · by_cases hlt : e < d.builder.func.numInsts
    · rw [effectIn_insert_old hs hi hlt] at he
      exact h.fills e y v he hy
    · by_cases heq : e = d.builder.func.numInsts
      · subst heq
        rw [hse] at he
        exact hfi y v he hy
      · have hle : d'.builder.func.numInsts ≤ e :=
          hi.numInsts ▸ Nat.lt_of_le_of_ne (Nat.not_lt.mp hlt) (Ne.symm heq)
        rw [effectIn_eq_none hle] at he
        cases he
  · exact (hg.copies i v hv).imp_left (h.copies i v)
  · exact (hg.taken i v hv).imp_left (h.taken i v)
  · have ho : ∀ l : List InstId, (∀ e ∈ l, e ∈ d.builder.func.instsOf d.entry) →
        l.filterMap (c.effectIn d' (Function.update w d.builder.func.numInsts x))
          = l.filterMap (c.effectIn d w) := fun l hl => List.filterMap_congr fun e he =>
      effectIn_insert_old hs hi ((hs.listed e).mp (hl e he))
    have hne : List.filterMap (c.effectIn d' (Function.update w d.builder.func.numInsts x))
        [d.builder.func.numInsts] = (c.machine.effect? d.program (c.evalIn d w) op).toList := by
      rw [List.filterMap_cons, hse]
      cases c.machine.effect? d.program (c.evalIn d w) op <;> rfl
    have hsc := h.script
    rw [hi.instsOf hs, List.append_cons, List.filterMap_append, List.filterMap_append, hne,
      ho _ fun e he => List.mem_of_mem_take he, ho _ fun e he => List.mem_of_mem_drop he,
      List.filter_append, List.filter_append, hE]
    rcases hpo with hpo | hn
    · rw [List.take_of_length_le hpo, List.drop_of_length_le hpo, hsc]
      simp
    · rw [hn, List.append_nil, List.append_nil, ← hsc, ← List.filter_append,
        ← List.filterMap_append, List.take_append_drop]

end Insert

section SetOp

variable {i : InstId} {addr : Address}
  (hload : ∀ inst, d.builder.func.insts[i]? = some inst → ∃ addr, inst.op = .load addr)

include hload

theorem effectIn_setOp : c.effectIn (d.setOp i (.load addr)) w = c.effectIn d w := by
  funext e
  cases he : (d.setOp i (.load addr)).builder.func.insts[e]? with
  | none =>
    have hle : d.builder.func.numInsts ≤ e := by
      have := Array.getElem?_eq_none_iff.mp he
      rwa [show (d.setOp i (.load addr)).builder.func.insts.size = d.builder.func.numInsts from
        Function.setOp_numInsts ..] at this
    rw [effectIn_eq_none hle, Scenario.effectIn, Machine.effectOf, he]
    rfl
  | some inst =>
    rw [c.effectIn_eq he]
    rcases Function.setOp_getElem?_cases he with ⟨ho, -⟩ | ⟨rfl, inst', ho, rfl⟩
    · exact (c.effectIn_eq ho).symm
    · obtain ⟨old, hop⟩ := hload inst' ho
      rw [c.effectIn_eq ho, hop]
      rfl

theorem Fills.setOp {y : Place} (h : d.Fills c w y) : (d.setOp i (.load addr)).Fills c w y := by
  obtain ⟨e, he⟩ := h
  exact ⟨e, by rw [effectIn_setOp hload, he]⟩

theorem Simulates.setOp (h : d.Simulates c H E w)
    (hv : (c.machine.place? d.program (c.evalIn d w) addr).elim .blank c.memory.read = w i)
    (hr : ∀ y ∈ c.machine.reads d.program (c.evalIn d w) (.load addr), c.Reads y.binding ∨ H y) :
    (d.setOp i (.load addr)).Simulates c H E w := by
  have hn : (d.setOp i (.load addr)).builder.func.numInsts = d.builder.func.numInsts :=
    Function.setOp_numInsts ..
  refine ⟨h.globals, fun e inst he hop => ?_, fun e inst he y hy => ?_, ?_, ?_, ?_, ?_⟩
  · rcases Function.setOp_getElem?_cases he with ⟨ho, -⟩ | ⟨rfl, inst', ho, rfl⟩
    · exact h.computed e inst ho hop
    · exact hv
  · rcases Function.setOp_getElem?_cases he with ⟨ho, -⟩ | ⟨rfl, inst', ho, rfl⟩
    · exact h.reads e inst ho y hy
    · exact hr y hy
  · rw [effectIn_setOp hload]
    exact h.fills
  · rw [hn]
    exact h.copies
  · rw [hn]
    exact h.taken
  · rw [effectIn_setOp hload]
    exact h.script

end SetOp

/-- A part has grown, and kept its instructions, their values and the places that it fills. -/
structure Evolves (c : Scenario α) (w w' : InstId → Datum α) (d d' : Draft) : Prop where
  numInsts_le : d.builder.func.numInsts ≤ d'.builder.func.numInsts
  values : ∀ e, e < d.builder.func.numInsts → w' e = w e
  loads : ∀ e, d.Loads e → d'.Loads e
  listed : (d.builder.func.instsOf d.entry).Sublist (d'.builder.func.instsOf d'.entry)
  bindings : d.program.globals <+: d'.program.globals
  fills : ∀ y, d.Fills c w y → d'.Fills c w' y

theorem Evolves.refl (c : Scenario α) (w : InstId → Datum α) (d : Draft) : d.Evolves c w w d :=
  ⟨Nat.le_refl _, fun _ _ => rfl, fun _ h => h, .refl _, List.prefix_rfl, fun _ h => h⟩

theorem Evolves.trans {w' w'' : InstId → Datum α} {d'' : Draft} (h : d.Evolves c w w' d')
    (h' : d'.Evolves c w' w'' d'') : d.Evolves c w w'' d'' :=
  ⟨Nat.le_trans h.numInsts_le h'.numInsts_le,
    fun e he => (h'.values e (Nat.lt_of_lt_of_le he h.numInsts_le)).trans (h.values e he),
    fun e he => h'.loads e (h.loads e he), h.listed.trans h'.listed, h.bindings.trans h'.bindings,
    fun y hy => h'.fills y (h.fills y hy)⟩

theorem evolves_insertAt {pos : Nat} {ty : TypeId} {op : Operation} {x : Datum α} (hs : d.Straight)
    (hin : d.Inserts pos ty op d') :
    d.Evolves c w (Function.update w d.builder.func.numInsts x) d' := by
  refine ⟨?_, fun e he => update_old he, fun e he => ?_, hin.sublist,
    hin.program ▸ List.prefix_rfl, fun y hy => hy.insert hs hin⟩
  · rw [hin.numInsts]
    exact Nat.le_succ _
  · obtain ⟨inst, addr, hi, hop⟩ := he
    refine ⟨inst, addr, ?_, hop⟩
    rw [hin.func, Function.insertAt_getElem?_insts _ _ _ _ (Array.getElem?_eq_some_iff.mp hi).1]
    exact hi

/-- A part that follows a run: its code is in order, and it simulates the source. -/
structure Follows (c : Scenario α) (H : Place → Prop) (E : List (Effect α))
    (w : InstId → Datum α) (d : Draft) : Prop where
  straight : d.Straight
  simulates : d.Simulates c H E w

theorem Follows.of_builder (h : d.Follows c H E w) (hb : d'.builder = d.builder)
    (hglobals : d.program.globals <+: d'.program.globals)
    (hdecls : d.program.decls <+: d'.program.decls)
    (ht : ∀ g copy, d'.globals.lookup g = some copy → copy < d'.program.numGlobals ∧
      d'.program.globalName? copy = c.source.program.globalName? g)
    (hc : ∀ i v, (i, v) ∈ d'.copies → (i, v) ∈ d.copies ∨
      ∃ e, v = .inst e ∧ e < d.builder.func.numInsts ∧ w e = c.values i)
    (hr : d'.reads = d.reads) : d'.Follows c H E w ∧ d.Evolves c w w d' := by
  have hinsts : d'.builder.func.insts = d.builder.func.insts := by rw [hb]
  have hl : d'.builder.func.instsOf d'.entry = d.builder.func.instsOf d.entry := by
    rw [Draft.entry, hb]
    rfl
  refine ⟨⟨h.straight.of_builder hb hglobals hdecls, h.simulates.of_insts h.straight hinsts
    hglobals hdecls hl ht hc hr⟩, ?_, fun _ _ => rfl, fun e he => ?_, ?_, hglobals,
    fun y hy => hy.of_insts h.straight hinsts hglobals hdecls⟩
  · rw [hb]
  · rw [Loads, hb]
    exact he
  · rw [hl]

theorem Follows.append (h : d.Follows c H E w) {ty : TypeId} {op : Operation} {x : Datum α}
    (hg : d.Gains c (d.builder.func.instsOf d.entry).length ty op x d')
    (hop : d.Operates c H w ty op x)
    (hf : ∀ y v, c.machine.effect? d.program (c.evalIn d w) op = some (.write y v) →
      y.binding ∈ c.records → v = c.memory.read y) :
    d'.Follows c H
        (E ++ (c.machine.effect? d.program (c.evalIn d w) op).toList.filter c.isPublic)
        (Function.update w d.builder.func.numInsts x) ∧
      d.Evolves c w (Function.update w d.builder.func.numInsts x) d' := by
  have hs := h.straight
  refine ⟨⟨hs.insertAt hg.toInserts ?_ hop.holds,
    h.simulates.insert hs hg hop hf rfl (.inl (Nat.le_refl _))⟩, ?_⟩
  · intro j hj
    rw [List.take_length]
    exact (hs.listed j).mpr (hop.operands j hj)
  · exact evolves_insertAt hs hg.toInserts

end Draft

end Stagewise
