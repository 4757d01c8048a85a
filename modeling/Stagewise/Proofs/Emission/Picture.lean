import Stagewise.Emission.Branching
import Stagewise.Proofs.Emission.Copying
import Stagewise.Proofs.Function.Editing
import Stagewise.Proofs.Scope.Set
import Stagewise.Proofs.Sketch.Basic

namespace Stagewise

theorem exists_of_forall₂ {α β : Type} {R : α → β → Prop} {xs : List α} {ys : List β}
    (h : List.Forall₂ R xs ys) {x : α} (hx : x ∈ xs) : ∃ y ∈ ys, R x y := by
  induction h with
  | nil => simp at hx
  | cons hr _ ih =>
    rcases List.mem_cons.mp hx with rfl | hx
    · exact ⟨_, by simp, hr⟩
    · obtain ⟨y, hy, hxy⟩ := ih hx
      exact ⟨y, List.mem_cons_of_mem _ hy, hxy⟩

/-- The name of what an operation writes to: that of a binding or of an external function. -/
def Program.writeName? (p : Program) : Operation → Option String
  | .store _ addr => addr.global?.bind fun g => p.globals[g]?.map GlobalDecl.name
  | .call (.direct callee) _ => p.decls[callee]?.map FunctionDecl.name
  | _ => none

namespace Operation

def isWrite : Operation → Bool
  | .store _ .pending => false
  | .store _ _ => true
  | .call (.direct _) _ => true
  | _ => false

def isMarked (op : Operation) : Bool := op.isPhi || op.isWrite

def mark? (exits : BlockId → Option BlockId) (pred : Option BlockId) (i : InstId) :
    Operation → Option Mark
  | .phi incoming =>
    if pred.isNone then some (.phi (incoming.filterMap fun e => exits e.1)) else none
  | op => if op.isWrite then some (.write i) else none

theorem mark?_write? (op : Operation) (exits : BlockId → Option BlockId) (pred : Option BlockId)
    (i : InstId) :
    (op.mark? exits pred i).bind Mark.write? = if op.isWrite then some i else none := by
  cases op with
  | phi incoming => cases pred <;> rfl
  | store v addr => cases addr <;> rfl
  | call callee args => cases callee <;> rfl
  | _ => rfl

end Operation

def Function.selected (f : Function) (test : Inst → Bool) (b : BlockId) : List InstId :=
  (f.instsOf b).filter fun e => f.insts[e]?.any test

def Function.marked (f : Function) (b : BlockId) : List InstId := f.selected (·.op.isMarked) b

namespace Source

def mark? (src : Source) (scope : Scope) (exits : BlockId → Option BlockId) (pred : Option BlockId)
    (i : InstId) : Option Mark :=
  if src.table.instScope i = some scope then
    src.func.insts[i]?.bind (·.op.mark? exits pred i)
  else none

def writesIn (src : Source) (scope : Scope) (i : InstId) : Bool :=
  src.table.instScope i = some scope && src.func.insts[i]?.any (·.op.isWrite)

theorem mark?_write? (src : Source) (scope : Scope) (exits : BlockId → Option BlockId)
    (pred : Option BlockId) (i : InstId) :
    (src.mark? scope exits pred i).bind Mark.write?
      = if src.writesIn scope i then some i else none := by
  unfold mark? writesIn
  by_cases hs : src.table.instScope i = some scope
  · cases src.func.insts[i]? with
    | none => simp
    | some inst => simpa [hs] using inst.op.mark?_write? exits pred i
  · simp [hs]

def plan (src : Source) (scope : Scope) : Plan where
  wants site := (src.wantedScopes site).contains scope
  marks exits pred b := (src.func.instsOf b).filterMap (src.mark? scope exits pred)
  writes b := (src.func.instsOf b).filter (src.writesIn scope)
  marks_writes exits pred b := by
    rw [List.filterMap_filterMap, ← List.filterMap_eq_filter]
    refine List.filterMap_congr fun i _ => ?_
    rw [src.mark?_write?]
    rfl

end Source

namespace Draft

/-- An instruction of a part has a mark. A write is the copy of the marked one, and both write to
what has the same name. -/
inductive Marks (src : Source) (d : Draft) (e : InstId) : Mark → Prop
  | phi {inst : Inst} {incoming : List (BlockId × Value)} :
      d.builder.func.insts[e]? = some inst → inst.op = .phi incoming →
      Marks src d e (.phi (incoming.map Prod.fst))
  | write {i : InstId} {inst inst' : Inst} {name : String} :
      d.builder.func.insts[e]? = some inst → src.func.insts[i]? = some inst' →
      inst.op.isWrite = true → (i, .inst e) ∈ d.copies →
      d.program.writeName? inst.op = some name → src.program.writeName? inst'.op = some name →
      Marks src d e (.write i)

inductive Ends (d : Draft) (b : BlockId) : Option Terminator → Option Exit → Prop
  | none : Ends d b none none
  | ret : Ends d b (some .ret) (some .ret)
  | jump (target : BlockId) : Ends d b (some (.jump target)) (some (.jump target))
  | branch {source : BlockId} (cond : Value) (ifTrue ifFalse : BlockId) :
      d.branches.lookup b = some source →
      Ends d b (some (.branch cond ifTrue ifFalse)) (some (.branch source ifTrue ifFalse))

structure Shows (src : Source) (d : Draft) (k : Sketch) : Prop where
  size : d.builder.func.numBlocks = k.size
  current : d.builder.current = k.current
  current_lt : k.current < k.size
  entry : d.builder.func.entry = 0
  exits : ∀ b, d.exits.lookup b = k.exits b
  joins : ∀ b, d.joins.lookup b = k.joins b
  joins_lt : ∀ j b, k.joins j = some b → b < k.size
  ends : ∀ b, d.Ends b (d.builder.func.terminator? b) (k.ends b)
  marks : ∀ b, List.Forall₂ (d.Marks src) (d.builder.func.marked b) (k.marks b)
  listed : ∀ b, ∀ e ∈ d.builder.func.instsOf b, e < d.builder.func.numInsts
  names : ∀ g copy, d.globals.lookup g = some copy → ∃ decl decl',
    src.program.globals[g]? = some decl ∧ d.program.globals[copy]? = some decl' ∧
    decl'.name = decl.name
  functions : d.program.functions = []
  logged : ∀ b source, d.branches.lookup b = some source →
    ∃ ifTrue ifFalse, k.ends b = some (.branch source ifTrue ifFalse)
  homed : d.builder.func.Homed
  clashes : d.builder.clashes = k.clashes

structure Extends (d d' : Draft) : Prop where
  insts : ∀ (e : InstId) (inst : Inst), d.builder.func.insts[e]? = some inst →
    d'.builder.func.insts[e]? = some inst
  copies : ∀ x ∈ d.copies, x ∈ d'.copies
  bindings : d.program.globals <+: d'.program.globals
  decls : d.program.decls <+: d'.program.decls

end Draft

theorem Program.writeName?_of_grown {p p' : Program} (hg : p.globals <+: p'.globals)
    (hd : p.decls <+: p'.decls) {op : Operation} {name : String}
    (h : p.writeName? op = some name) : p'.writeName? op = some name := by
  unfold writeName? at *
  split at h
  · next addr _ =>
    obtain ⟨g, hgl, h⟩ := Option.bind_eq_some_iff.mp h
    obtain ⟨decl, hde, rfl⟩ := Option.map_eq_some_iff.mp h
    simp [hgl, getElem?_extend hg hde]
  · obtain ⟨decl, hde, rfl⟩ := Option.map_eq_some_iff.mp h
    simp [getElem?_extend hd hde]
  · exact absurd h (by simp)

namespace Draft

variable {src : Source} {d d' : Draft} {k : Sketch} {e i : InstId} {m : Mark}

theorem Marks.extends (h : d.Marks src e m) (hd : d.Extends d') : d'.Marks src e m := by
  cases h with
  | phi hi hop => exact .phi (hd.insts e _ hi) hop
  | write hi hs hw hc hn hn' =>
    exact .write (hd.insts e _ hi) hs hw (hd.copies _ hc)
      (Program.writeName?_of_grown hd.bindings hd.decls hn) hn'

theorem forall₂_marks_extends {es : List InstId} {ms : List Mark}
    (h : List.Forall₂ (d.Marks src) es ms) (hd : d.Extends d') :
    List.Forall₂ (d'.Marks src) es ms :=
  h.imp fun _ _ hm => hm.extends hd

end Draft

namespace Function

variable {f : Function} {b c : BlockId} {pos : Nat} {ty : TypeId} {op : Operation}
  {test : Inst → Bool}

theorem filter_insertAt {es : List InstId} (h : ∀ e ∈ es, e < f.numInsts) :
    (es.filter fun e => (f.insertAt b pos ty op).2.insts[e]?.any test)
      = es.filter fun e => f.insts[e]?.any test := by
  refine List.filter_congr fun e he => ?_
  rw [insertAt_getElem?_insts _ _ _ _ (h e he)]

section

variable (hl : ∀ b, ∀ e ∈ f.instsOf b, e < f.numInsts)
include hl

theorem selected_insertAt (ht : test ⟨op, ty, b⟩ = false) :
    (f.insertAt b pos ty op).2.selected test c = f.selected test c := by
  unfold selected
  by_cases hc : c = b
  · subst hc
    by_cases hlt : c < f.numBlocks
    · have hta : ∀ e ∈ (f.instsOf c).take pos, e < f.numInsts :=
        fun e he => hl c e (List.mem_of_mem_take he)
      have hd : ∀ e ∈ (f.instsOf c).drop pos, e < f.numInsts :=
        fun e he => hl c e (List.mem_of_mem_drop he)
      rw [insertAt_instsOf _ _ _ hlt, List.filter_append, List.filter_cons_of_neg,
        filter_insertAt hta, filter_insertAt hd, ← List.filter_append,
        List.take_append_drop]
      simp [insertAt_getElem?_insts_self, ht]
    · have hge := Nat.not_lt.mp hlt
      rw [instsOf_eq_nil hge, instsOf_eq_nil (by rwa [insertAt_numBlocks])]
      rfl
  · rw [insertAt_instsOf_ne _ _ _ hc, filter_insertAt (hl c)]

theorem selected_append_self (hb : b < f.numBlocks) (ht : test ⟨op, ty, b⟩ = true) :
    (f.append b ty op).2.selected test b = f.selected test b ++ [f.numInsts] := by
  unfold selected
  rw [append_instsOf _ _ hb, List.filter_append]
  refine congrArg₂ (· ++ ·) (filter_insertAt (hl b)) ?_
  simp [append_getElem?_insts_self, ht]

theorem selected_append_ne (hc : c ≠ b) :
    (f.append b ty op).2.selected test c = f.selected test c := by
  unfold selected
  rw [append_instsOf_ne _ _ hc]
  exact filter_insertAt (hl c)

end

theorem mem_instsOf_insertAt {e : InstId} (he : e ∈ (f.insertAt b pos ty op).2.instsOf c) :
    e ∈ f.instsOf c ∨ e = f.numInsts := by
  by_cases hc : c = b
  · subst hc
    have hlt := lt_of_mem_instsOf he
    rw [insertAt_numBlocks] at hlt
    rw [insertAt_instsOf _ _ _ hlt, List.mem_append, List.mem_cons] at he
    rcases he with he | rfl | he
    · exact .inl (List.mem_of_mem_take he)
    · exact .inr rfl
    · exact .inl (List.mem_of_mem_drop he)
  · rw [insertAt_instsOf_ne _ _ _ hc] at he
    exact .inl he

theorem listed_insertAt (hl : ∀ b, ∀ e ∈ f.instsOf b, e < f.numInsts) :
    ∀ e ∈ (f.insertAt b pos ty op).2.instsOf c, e < (f.insertAt b pos ty op).2.numInsts := by
  intro e he
  rw [insertAt_numInsts]
  rcases mem_instsOf_insertAt he with he | rfl
  · exact Nat.lt_succ_of_lt (hl c e he)
  · exact Nat.lt_succ_self _

end Function

namespace Draft

variable {src : Source} {d d' : Draft} {k : Sketch} {i : InstId}

theorem Ends.branches {b : BlockId} {t : Option Terminator} {x : Option Exit}
    (h : d.Ends b t x) (hb : d'.branches = d.branches) : d'.Ends b t x := by
  cases h with
  | none => exact .none
  | ret => exact .ret
  | jump target => exact .jump target
  | branch cond ifTrue ifFalse hs => exact .branch cond ifTrue ifFalse (hb ▸ hs)

theorem Shows.of_builder_eq (h : d.Shows src k) (hb : d'.builder = d.builder)
    (he : d'.exits = d.exits) (hj : d'.joins = d.joins)
    (hbr : d'.branches = d.branches) (hd : d.Extends d')
    (hn : ∀ g copy, d'.globals.lookup g = some copy → ∃ decl decl',
      src.program.globals[g]? = some decl ∧ d'.program.globals[copy]? = some decl' ∧
      decl'.name = decl.name)
    (hf : d'.program.functions = d.program.functions) : d'.Shows src k := by
  refine ⟨hb ▸ h.size, hb ▸ h.current, h.current_lt, hb ▸ h.entry, he ▸ h.exits,
    hj ▸ h.joins, h.joins_lt, fun b => ?_, fun b => ?_, hb ▸ h.listed, hn,
    hf.trans h.functions, hbr ▸ h.logged, hb ▸ h.homed, hb ▸ h.clashes⟩
  · rw [hb]
    exact (h.ends b).branches hbr
  · rw [hb]
    exact forall₂_marks_extends (h.marks b) hd

theorem Shows.names_of_grown (h : d.Shows src k) (hg : d.program.globals <+: d'.program.globals)
    {g copy : GlobalId} (hl : d.globals.lookup g = some copy) : ∃ decl decl',
      src.program.globals[g]? = some decl ∧ d'.program.globals[copy]? = some decl' ∧
      decl'.name = decl.name := by
  obtain ⟨decl, decl', hd, hd', hn⟩ := h.names g copy hl
  exact ⟨decl, decl', hd, getElem?_extend hg hd', hn⟩

theorem Shows.addCopy (h : d.Shows src k) (v : Value) : (d.addCopy i v).Shows src k := by
  refine h.of_builder_eq rfl rfl rfl rfl ⟨fun _ _ h => h, fun x hx => ?_, ?_, ?_⟩ h.names rfl
  · exact List.mem_cons_of_mem _ hx
  · exact List.prefix_rfl
  · exact List.prefix_rfl

theorem Shows.noteVisit (h : d.Shows src k) (pred : Option BlockId) :
    (d.noteVisit pred i).Shows src k :=
  h.of_builder_eq rfl rfl rfl rfl ⟨fun _ _ h => h, fun _ h => h, List.prefix_rfl, List.prefix_rfl⟩
    h.names rfl

theorem functions_getOrAddGlobal (p : Program) (decl : GlobalDecl) :
    (p.getOrAddGlobal decl).2.functions = p.functions := by
  unfold Program.getOrAddGlobal
  cases p.globalNamed? decl.name <;> rfl

theorem functions_declare (p : Program) (decl : FunctionDecl) :
    (p.declare decl).2.functions = p.functions := by
  unfold Program.declare
  cases p.declNamed? decl.name <;> rfl

theorem Shows.declareGlobal (h : d.Shows src k) {g : GlobalId} {decl : GlobalDecl}
    (hd : src.program.globals[g]? = some decl) : (d.declareGlobal g decl).2.Shows src k := by
  have hp := d.program.globals_getOrAddGlobal decl
  refine h.of_builder_eq rfl rfl rfl rfl ⟨fun _ _ h => h, fun _ h => h, hp, ?_⟩ ?_
    (functions_getOrAddGlobal ..)
  · rw [declareGlobal_program, Program.decls_getOrAddGlobal]
  · intro g' copy hl
    rw [declareGlobal_globals, List.lookup_cons] at hl
    split at hl
    · next heq =>
      obtain rfl := beq_iff_eq.mp heq
      obtain rfl := Option.some.inj hl
      obtain ⟨decl', hd', hn⟩ := d.program.getOrAddGlobal_name decl
      exact ⟨decl, decl', hd, hd', hn⟩
    · exact h.names_of_grown hp hl

theorem Shows.declare (h : d.Shows src k) (decl : FunctionDecl) :
    (d.declare decl).2.Shows src k := by
  have hg : (d.declare decl).2.program.globals = d.program.globals :=
    d.program.globals_declare decl
  refine h.of_builder_eq rfl rfl rfl rfl
    ⟨fun _ _ h => h, fun _ h => h, by rw [hg], d.program.decls_declare decl⟩ ?_
    (functions_declare ..)
  rw [hg]
  exact h.names

variable {op : Operation} {block : BlockId}

theorem extends_insertAt {pos : Nat} {ty : TypeId}
    (hb : d'.builder.func = (d.builder.func.insertAt block pos ty op).2)
    (hc : ∀ x ∈ d.copies, x ∈ d'.copies) (hp : d'.program = d.program) :
    d.Extends d' := by
  refine ⟨fun e inst he => ?_, hc, by rw [hp], by rw [hp]⟩
  rw [hb, Function.insertAt_getElem?_insts _ _ _ _ (Array.getElem?_eq_some_iff.mp he).1]
  exact he

section

variable (h : d.Shows src k)
include h

theorem Shows.current_lt_numBlocks : d.builder.current < d.builder.func.numBlocks := by
  rw [h.size, h.current]
  exact h.current_lt

theorem Shows.entry_lt_numBlocks : d.entry < d.builder.func.numBlocks := by
  show d.builder.func.entry < _
  rw [h.entry]
  exact Nat.zero_lt_of_lt h.current_lt_numBlocks

theorem Shows.insertAt (hb : block < d.builder.func.numBlocks) (pos : Nat) (ty : TypeId)
    (hop : op.isMarked = false) : Shows src { d with builder := { d.builder with
      func := (d.builder.func.insertAt block pos ty op).2 } } k := by
  refine ⟨?_, h.current, h.current_lt, h.entry, h.exits, h.joins, h.joins_lt, fun b => ?_,
    fun b => ?_, fun b => Function.listed_insertAt h.listed, h.names, h.functions, h.logged,
    h.homed.insertAt _ _ _ hb, h.clashes⟩
  · rw [Function.insertAt_numBlocks]
    exact h.size
  · rw [Function.insertAt_terminator?]
    exact (h.ends b).branches rfl
  · rw [Function.marked, Function.selected_insertAt h.listed hop]
    exact forall₂_marks_extends (h.marks b) (extends_insertAt rfl (fun _ h => h) rfl)

theorem Shows.append (hb : block < d.builder.func.numBlocks) (ty : TypeId)
    (hop : op.isMarked = false) : (d.append block ty op).2.Shows src k :=
  h.insertAt hb _ ty hop

theorem Shows.openRead (ty fieldTy : TypeId) (lanes : Option Nat) :
    (d.openRead i ty fieldTy lanes).2.Shows src k := by
  have hr : ∀ {d : Draft} {reads : List (InstId × Value)}, d.Shows src k →
      Shows src { d with reads := reads } k := fun h =>
    h.of_builder_eq rfl rfl rfl rfl
      ⟨fun _ _ h => h, fun _ h => h, List.prefix_rfl, List.prefix_rfl⟩ h.names rfl
  have hl : (d.append d.entry fieldTy (.load .pending)).2.Shows src k :=
    h.append h.entry_lt_numBlocks _ rfl
  cases lanes with
  | none => exact hr hl
  | some n =>
    have hi : ((d.append d.entry fieldTy (.load .pending)).2.append d.entry ty
        (.insert (.const (.undef ty)) (.inst d.builder.func.numInsts)
          (.const (.int TypeId.int 0)))).2.Shows src k := hl.append hl.entry_lt_numBlocks _ rfl
    exact hr (hi.append hi.entry_lt_numBlocks ty rfl)

theorem Shows.emit {ty : TypeId} {m : Mark} (hop : op.isMarked = true)
    (hm : ((d.emit ty op).2.addCopy i (.inst (d.emit ty op).1)).Marks src (d.emit ty op).1 m) :
    ((d.emit ty op).2.addCopy i (.inst (d.emit ty op).1)).Shows src (k.append [m]) := by
  have hc := h.current_lt_numBlocks
  have he : d.Extends ((d.emit ty op).2.addCopy i (.inst (d.emit ty op).1)) :=
    extends_insertAt rfl (fun _ hx => List.mem_cons_of_mem _ hx) rfl
  refine ⟨?_, h.current, h.current_lt, h.entry, h.exits, h.joins, h.joins_lt, fun b => ?_,
    fun b => ?_, fun b => Function.listed_insertAt h.listed, h.names, h.functions, h.logged,
    h.homed.insertAt _ _ _ hc, h.clashes⟩
  · exact (Function.append_numBlocks ..).trans h.size
  · show Ends _ b ((d.builder.func.append d.builder.current ty op).2.terminator? b) _
    rw [Function.append_terminator?]
    exact (h.ends b).branches rfl
  · show List.Forall₂ _ ((d.builder.func.append d.builder.current ty op).2.marked b) _
    by_cases hb : b = k.current
    · subst hb
      rw [← h.current, Function.marked, Function.selected_append_self h.listed hc hop, h.current]
      have ha : (k.append [m]).marks k.current = k.marks k.current ++ [m] :=
        Function.update_self ..
      rw [ha]
      exact List.rel_append (forall₂_marks_extends (h.marks k.current) he) (.cons hm .nil)
    · have ha : (k.append [m]).marks b = k.marks b := Function.update_of_ne hb _ _
      rw [Function.marked, Function.selected_append_ne h.listed (h.current ▸ hb), ha]
      exact forall₂_marks_extends (h.marks b) he

end

def Loads (d : Draft) (e : InstId) : Prop :=
  ∃ inst addr, d.builder.func.insts[e]? = some inst ∧ inst.op = .load addr

theorem Loads.exists_load {e : InstId} (h : d.Loads e) {inst : Inst}
    (hi : d.builder.func.insts[e]? = some inst) : ∃ addr, inst.op = .load addr := by
  obtain ⟨inst', addr, hi', hop⟩ := h
  obtain rfl := Option.mem_unique hi' hi
  exact ⟨addr, hop⟩

theorem Loads.extends {e : InstId} (h : d.Loads e) (hd : d.Extends d') : d'.Loads e := by
  obtain ⟨inst, addr, hi, hop⟩ := h
  exact ⟨inst, addr, hd.insts e inst hi, hop⟩

theorem Extends.trans {d'' : Draft} (h : d.Extends d') (h' : d'.Extends d'') : d.Extends d'' :=
  ⟨fun e inst he => h'.insts e inst (h.insts e inst he), fun x hx => h'.copies x (h.copies x hx),
    h.bindings.trans h'.bindings, h.decls.trans h'.decls⟩

theorem extends_of_builder_eq (hb : d'.builder = d.builder) (hc : d'.copies = d.copies)
    (hg : d.program.globals <+: d'.program.globals) (hd : d.program.decls <+: d'.program.decls) :
    d.Extends d' :=
  ⟨fun e inst he => by rw [hb]; exact he, fun x hx => by rw [hc]; exact hx, hg, hd⟩

theorem extends_append (d : Draft) (block : BlockId) (ty : TypeId) (op : Operation) :
    d.Extends (d.append block ty op).2 :=
  extends_insertAt rfl (fun _ h => h) rfl

theorem extends_addCopy (d : Draft) (i : InstId) (v : Value) : d.Extends (d.addCopy i v) :=
  ⟨fun _ _ h => h, fun _ h => List.mem_cons_of_mem _ h, List.prefix_rfl, List.prefix_rfl⟩

theorem loads_append (d : Draft) (block : BlockId) (ty : TypeId) (addr : Address) :
    (d.append block ty (.load addr)).2.Loads (d.append block ty (.load addr)).1 :=
  ⟨_, addr, d.builder.func.append_getElem?_insts_self block ty (.load addr), rfl⟩

theorem openRead_spec (d : Draft) (i : InstId) (ty fieldTy : TypeId) (lanes : Option Nat) :
    d.Extends (d.openRead i ty fieldTy lanes).2 ∧
      (d.openRead i ty fieldTy lanes).2.Loads (d.openRead i ty fieldTy lanes).1.1 := by
  have hlo := extends_append d d.entry fieldTy (.load .pending)
  have hr := loads_append d d.entry fieldTy .pending
  have hl : ∀ (d : Draft) (reads : List (InstId × Value)), d.Extends { d with reads := reads } :=
    fun d reads => extends_of_builder_eq rfl rfl List.prefix_rfl List.prefix_rfl
  cases lanes with
  | none =>
    have hl := hl (d.append d.entry fieldTy (.load .pending)).2
      ((i, .inst (d.append d.entry fieldTy (.load .pending)).1) :: d.reads)
    exact ⟨hlo.trans hl, hr.extends hl⟩
  | some n =>
    have hs : (d.append d.entry fieldTy (.load .pending)).2.Extends
        (d.openRead i ty fieldTy (some n)).2 :=
      (extends_append _ d.entry ty _).trans ((extends_append _ d.entry ty _).trans (hl _ _))
    exact ⟨hlo.trans hs, hr.extends hs⟩

end Draft

namespace Emission

variable {src : Source} {s t : Emission} {K : Scope → Sketch} {scope : Scope} {d d' : Draft}
  {k : Sketch} {allowed : Permit}

/-- Every part is as its sketch shows it, and the reads of the slots are loads. -/
structure Pictured (src : Source) (s : Emission) (K : Scope → Sketch) : Prop where
  scopes : ∀ (scope : Scope) (d : Draft), s.drafts[scope.val]? = some d → d.Shows src (K scope)
  others : ∀ (n : Nat) (d : Draft), 256 ≤ n → s.drafts[n]? = some d → d.Shows src .empty
  values : ∀ slot ∈ s.ledger.values, ∀ d, s.drafts[slot.dst.val]? = some d → d.Loads slot.read
  arrays : ∀ slot ∈ s.ledger.arrays, ∀ r ∈ slot.reads, ∀ d,
    s.drafts[slot.dst.val]? = some d → d.Loads r.1

theorem Pictured.setDraft (h : s.Pictured src K) (hd : s.drafts[scope.val]? = some d)
    (he : d.Extends d') (hsh : d'.Shows src k) :
    (s.setDraft scope d').Pictured src (Function.update K scope k) := by
  have hl : ∀ (other : Scope) (e : InstId),
      (∀ d, s.drafts[other.val]? = some d → d.Loads e) →
      ∀ d, (s.setDraft scope d').drafts[other.val]? = some d → d.Loads e := by
    intro other e ho d1 hd1
    rcases setDraft_scope_cases hd hd1 with ⟨rfl, rfl⟩ | ⟨-, hd1⟩
    · exact (ho d hd).extends he
    · exact ho d1 hd1
  refine ⟨fun other d1 hd1 => ?_, fun n d1 hn hd1 => ?_, fun slot hs => ?_,
    fun slot hs r hr => ?_⟩
  · rcases setDraft_scope_cases hd hd1 with ⟨rfl, rfl⟩ | ⟨hk, hd1⟩
    · rw [Function.update_self]
      exact hsh
    · rw [Function.update_of_ne hk]
      exact h.scopes other d1 hd1
  · have hk : n ≠ scope.val := Nat.ne_of_gt (Nat.lt_of_lt_of_le scope.isLt hn)
    rw [getElem?_setDraft_ne hk] at hd1
    exact h.others n d1 hn hd1
  · exact hl slot.dst slot.read (h.values slot hs)
  · exact hl slot.dst r.1 (h.arrays slot hs r hr)

theorem Pictured.setDraft_same (h : s.Pictured src K) (hd : s.drafts[scope.val]? = some d)
    (he : d.Extends d') (hs : d'.Shows src (K scope)) :
    (s.setDraft scope d').Pictured src K := by
  have := h.setDraft hd he hs
  rwa [Function.update_eq_self] at this

theorem ReadStep.pictured (hst : ReadStep src allowed s t) (h : s.Pictured src K) :
    t.Pictured src K := by
  cases hst with
  | report _ => exact ⟨h.scopes, h.others, h.values, h.arrays⟩
  | declareGlobal hd hg hde =>
    refine h.setDraft_same hd ?_ ((h.scopes _ _ hd).declareGlobal hde)
    refine Draft.extends_of_builder_eq rfl rfl (Program.globals_getOrAddGlobal _ _) ?_
    rw [Draft.declareGlobal_program, Program.decls_getOrAddGlobal]
  | @declare _ _ decl d hd _ =>
    refine h.setDraft_same hd ?_ ((h.scopes _ _ hd).declare _)
    refine Draft.extends_of_builder_eq rfl rfl ?_ (Program.decls_declare _ _)
    rw [Draft.declare_program, Program.globals_declare]
  | @openRead owner dst i inst d hd hi hin hlt ha =>
    obtain ⟨he, hl⟩ := d.openRead_spec i inst.ty (Source.fieldType s.types inst)
      (Source.fieldLanes s.types inst)
    have hse := h.setDraft_same hd he ((h.scopes _ _ hd).openRead ..)
    refine ⟨hse.scopes, hse.others, fun slot hs => ?_, hse.arrays⟩
    rcases List.mem_append.mp hs with hs | hs
    · exact hse.values slot hs
    · obtain rfl := List.mem_singleton.mp hs
      intro d1 hd1
      obtain rfl := Option.mem_unique (getElem?_setDraft_self hd) hd1
      exact hl

theorem Reads.pictured (hr : Reads src allowed s t) (h : s.Pictured src K) :
    t.Pictured src K := by
  induction hr with
  | refl => exact h
  | tail _ hs ih => exact hs.pictured ih

theorem RendersIncoming.map_fst {exits : List (BlockId × BlockId)} {a b : List (BlockId × Value)}
    (h : RendersIncoming src s scope exits a b) :
    b.map Prod.fst = a.filterMap fun e => exits.lookup e.1 := by
  induction h with
  | nil => rfl
  | cons he _ _ ih | skip he _ _ ih => simp [he, ih]

theorem RendersAddress.name {addr addr' : Address} (h : RendersAddress src s scope addr addr')
    (hd : s.drafts[scope.val]? = some d) (hs : d.Shows src k) :
    addr ≠ .pending ∧ addr' ≠ .pending ∧ ∃ g g' decl decl', addr.global? = some g ∧
      addr'.global? = some g' ∧ src.program.globals[g]? = some decl ∧
      d.program.globals[g']? = some decl' ∧ decl'.name = decl.name := by
  have hgl : ∀ {g copy : GlobalId}, Denotes src s scope (.global g) (.global copy) →
      ∃ decl decl', src.program.globals[g]? = some decl ∧ d.program.globals[copy]? = some decl' ∧
        decl'.name = decl.name := by
    intro g copy hg
    cases hg with
    | @global _ _ e he hl =>
      obtain rfl := Option.mem_unique hd he
      exact hs.names g copy hl
  cases h with
  | @member g copy path hg =>
    obtain ⟨decl, decl', hde, hd', hn⟩ := hgl hg
    exact ⟨by simp, by simp, g, copy, decl, decl', rfl, rfl, hde, hd', hn⟩
  | @element g copy path path' hg _ =>
    obtain ⟨decl, decl', hde, hd', hn⟩ := hgl hg
    exact ⟨by simp, by simp, g, copy, decl, decl', rfl, rfl, hde, hd', hn⟩

end Emission

namespace Operation

theorem isMarked_withOperands {op : Operation} (h : op.isPlain = true) (vs : List Value) :
    (op.withOperands vs).isMarked = false := by
  cases op <;> first | rfl | simp [isPlain] at h

theorem mark?_eq_none_of_isPlain {op : Operation} (h : op.isPlain = true)
    (exits : BlockId → Option BlockId) (pred : Option BlockId) (i : InstId) :
    op.mark? exits pred i = none := by
  cases op <;> first | rfl | simp [isPlain] at h

theorem isWrite_store {v : Value} {addr : Address} (h : addr ≠ .pending) :
    (Operation.store v addr).isWrite = true := by
  cases addr with
  | pending => exact absurd rfl h
  | _ => rfl

theorem mark?_store {v : Value} {addr : Address} (h : addr ≠ .pending)
    (exits : BlockId → Option BlockId) (pred : Option BlockId) (i : InstId) :
    (Operation.store v addr).mark? exits pred i = some (.write i) := by
  simp [mark?, isWrite_store h]

end Operation

@[simp] theorem Sketch.append_nil (k : Sketch) : k.append [] = k := by
  simp [Sketch.append, Function.update_eq_self]

namespace Emission

variable {src : Source} {s t : Emission} {K : Scope → Sketch} {scope : Scope} {d : Draft}
  {k : Sketch} {allowed : Permit} {pred : Option BlockId} {inst : Inst}

/-- A copied operation adds its mark to the sketch: a phi, a write, or none. -/
theorem Renders.shows {op op' : Operation} {ty : TypeId} {i : InstId}
    (h : Renders src s scope op op') (hi : src.func.insts[i]? = some inst) (hop : inst.op = op)
    (hph : op.isPhi → pred = none) (hd : s.drafts[scope.val]? = some d) (hs : d.Shows src k) :
    ((d.emit ty op').2.addCopy i (.inst (d.emit ty op').1)).Shows src
      (k.append (op.mark? k.exits pred i).toList) := by
  have hse : (d.emit ty op').2.builder.func.insts[(d.emit ty op').1]?
      = some ⟨op', ty, d.builder.current⟩ := d.builder.func.append_getElem?_insts_self ..
  have hc : (i, .inst (d.emit ty op').1)
      ∈ ((d.emit ty op').2.addCopy i (.inst (d.emit ty op').1)).copies := List.mem_cons_self
  cases h with
  | @plain _ vs hp _ =>
    rw [Operation.mark?_eq_none_of_isPlain hp, Option.toList_none, Sketch.append_nil]
    exact (hs.append hs.current_lt_numBlocks ty (Operation.isMarked_withOperands hp vs)).addCopy _
  | @load addr addr' _ =>
    have hl : (d.append d.builder.current ty (.load addr')).2.Shows src k :=
      hs.append hs.current_lt_numBlocks _ rfl
    have hm : (Operation.load addr).mark? k.exits pred i = none := rfl
    rw [hm, Option.toList_none, Sketch.append_nil]
    exact hl.addCopy _
  | @store v r addr addr' _ ha =>
    obtain ⟨hne, hne', g, g', decl, decl', hg, hg', hde, hd', hn⟩ := ha.name hd hs
    rw [Operation.mark?_store hne]
    have hw : (Operation.store r addr').isWrite = true := Operation.isWrite_store hne'
    have hto : d.program.writeName? (.store r addr') = some decl.name := by
      simp [Program.writeName?, hg', hd', hn]
    have hf : src.program.writeName? inst.op = some decl.name := by
      simp [hop, Program.writeName?, hg, hde]
    exact hs.emit (by simp [Operation.isMarked, hw])
      (.write hse hi hw hc hto hf)
  | @phi e incoming incoming' he hin =>
    obtain rfl := Option.mem_unique hd he
    obtain rfl := hph rfl
    have hma := hin.map_fst
    rw [show (fun e : BlockId × Value => d.exits.lookup e.1) = fun e => k.exits e.1 from
      funext fun e => hs.exits e.1] at hma
    have hm : (Operation.phi incoming).mark? k.exits none i
        = some (.phi (incoming'.map Prod.fst)) := by
      simp [Operation.mark?, hma]
    rw [hm]
    exact hs.emit rfl (.phi hse rfl)
  | @call callee copy args args' hca _ =>
    obtain ⟨e, decl, decl', he, hde, hd', hn⟩ := hca
    obtain rfl := Option.mem_unique hd he
    have hto : d.program.writeName? (.call (.direct copy) args') = some decl.name := by
      simp [Program.writeName?, hd', hn]
    have hf : src.program.writeName? inst.op = some decl.name := by
      simp [hop, Program.writeName?, hde]
    exact hs.emit rfl (.write hse hi rfl hc hto hf)

/-- Copying an instruction draws its mark in its scope, and leaves all other scopes alone. -/
theorem Copied.pictured {i : InstId} (hco : Copied src allowed scope pred i inst s t)
    (hi : src.func.insts[i]? = some inst) (h : s.Pictured src K) :
    t.Pictured src (Function.update K scope
      ((K scope).append (inst.op.mark? (K scope).exits pred i).toList)) := by
  have hs : ∀ {t : Emission}, inst.op.mark? (K scope).exits pred i = none → t.Pictured src K →
      t.Pictured src (Function.update K scope
        ((K scope).append (inst.op.mark? (K scope).exits pred i).toList)) := by
    intro t hm ht
    rw [hm, Option.toList_none, Sketch.append_nil, Function.update_eq_self]
    exact ht
  have hc : ∀ {t : Emission} {d : Draft} (v : Value), t.Pictured src K →
      t.drafts[scope.val]? = some d → (t.setDraft scope (d.addCopy i v)).Pictured src K :=
    fun v ht hd => ht.setDraft_same hd (Draft.extends_addCopy _ _ _) ((ht.scopes _ _ hd).addCopy v)
  cases hco with
  | @emitted t d op hr hd hop hph _ =>
    have ht := hr.pictured h
    refine ht.setDraft hd ((Draft.extends_append d _ _ op).trans (Draft.extends_addCopy ..)) ?_
    exact hop.shows hi rfl hph hd (ht.scopes _ _ hd)
  | known hop hp _ hr _ hd | missing hop hp _ hr _ hd =>
    refine hs ?_ (hc _ (hr.pictured h) hd)
    simp [hop, hp, Operation.mark?]
  | unsupported hop _ hr _ hd =>
    refine hs ?_ (hc _ (hr.pictured h) hd)
    simp [hop, Operation.mark?, Operation.isWrite]
  | @raised t u d e owner g copy path r hop _ _ hr he _ hr' hd _ =>
    have ht := hr.pictured h
    have hl : (e.append e.entry inst.ty (.load (.member copy path))).2.Shows src (K owner) :=
      (ht.scopes _ _ he).append (ht.scopes _ _ he).entry_lt_numBlocks _ rfl
    refine hs ?_ (hc _ (hr'.pictured ?_) hd)
    · simp [hop, Operation.mark?, Operation.isWrite]
    · exact ht.setDraft_same he ((Draft.extends_append e e.entry inst.ty _).trans
        (Draft.extends_addCopy ..)) (hl.addCopy _)
  | @array t d owner g decl path index r len hop _ _ _ _ _ hr _ hd =>
    have ht := hr.pictured h
    have hl : (d.emit inst.ty (.load .pending)).2.Shows src (K scope) :=
      (ht.scopes _ _ hd).append (ht.scopes _ _ hd).current_lt_numBlocks _ rfl
    have hse := ht.setDraft_same hd
      ((Draft.extends_append d d.builder.current inst.ty (.load .pending)).trans
        (Draft.extends_addCopy _ i (.inst (d.emit inst.ty (.load .pending)).1)))
      (hl.addCopy _)
    refine hs (by simp [hop, Operation.mark?, Operation.isWrite])
      ⟨hse.scopes, hse.others, hse.values, fun slot hsl x hx => ?_⟩
    rcases Ledger.mem_reads_mergeArray hsl hx with ⟨y, hy, hds, hx⟩ | ⟨hds, hx⟩
    · rw [← hds]
      exact hse.arrays y hy x hx
    · obtain rfl := List.mem_singleton.mp hx
      rw [← hds]
      intro d1 hd1
      obtain rfl := Option.mem_unique (getElem?_setDraft_self hd) hd1
      exact (Draft.loads_append d _ _ _).extends (Draft.extends_addCopy ..)
  | skipped hop hr =>
    refine hs ?_ (hr.pictured h)
    rcases hop with ⟨v, args, hop⟩ | ⟨v, hop, -⟩ <;> simp [hop, Operation.mark?, Operation.isWrite]

end Emission

end Stagewise
