import Mathlib.Logic.Relation
import Stagewise.Emission.Operand
import Stagewise.Proofs.Act

namespace Stagewise

def Act.Tolerant (E : Fault → Prop) : Prop := ∀ e, E e

theorem Act.tolerant_any : Act.Tolerant Act.Any := fun _ => trivial

section Fault

variable {α : Type} {E : Fault → Prop} {k : Nat} {e : Fault}

theorem Act.fault_of_array_none {xs : Array α} (hE : Act.Tolerant E ∨ k < xs.size)
    (hn : xs[k]? = none) : E e :=
  hE.elim (· e) fun hlt => absurd hlt (Nat.not_lt.mpr (Array.getElem?_eq_none_iff.mp hn))

theorem Act.fault_of_list_none {xs : List α} (hE : Act.Tolerant E ∨ k < xs.length)
    (hn : xs[k]? = none) : E e :=
  hE.elim (· e) fun hlt => absurd hlt (Nat.not_lt.mpr (List.getElem?_eq_none_iff.mp hn))

end Fault

theorem mem_of_lookup {α β : Type} [BEq α] [LawfulBEq α] {l : List (α × β)} {a : α} {b : β}
    (h : l.lookup a = some b) : (a, b) ∈ l := by
  obtain ⟨before, after, rfl, -⟩ := List.lookup_eq_some_iff.mp h
  exact List.mem_append_right _ List.mem_cons_self

namespace Emission

def setDraft (s : Emission) (scope : Scope) (d : Draft) : Emission :=
  { s with drafts := s.drafts.setIfInBounds scope.val d }

@[simp] theorem size_setDraft (s : Emission) (scope : Scope) (d : Draft) :
    (s.setDraft scope d).drafts.size = s.drafts.size := by
  simp [setDraft]

theorem getElem?_setDraft (s : Emission) (scope : Scope) (d : Draft) (k : Nat) :
    (s.setDraft scope d).drafts[k]?
      = if k = scope.val ∧ k < s.drafts.size then some d else s.drafts[k]? := by
  simp only [setDraft, Array.getElem?_setIfInBounds]
  by_cases hk : scope.val = k
  · subst hk
    by_cases hlt : scope.val < s.drafts.size <;> simp [hlt]
  · have hk' : ¬k = scope.val := fun h => hk h.symm
    simp [hk, hk']

variable {d : Draft}

theorem getElem?_setDraft_self {s : Emission} {scope : Scope} {d' : Draft}
    (h : s.drafts[scope.val]? = some d) : (s.setDraft scope d').drafts[scope.val]? = some d' := by
  have hlt : scope.val < s.drafts.size := (Array.getElem?_eq_some_iff.mp h).1
  rw [getElem?_setDraft, if_pos ⟨rfl, hlt⟩]

theorem getElem?_setDraft_ne {s : Emission} {scope : Scope} {k : Nat}
    (h : k ≠ scope.val) : (s.setDraft scope d).drafts[k]? = s.drafts[k]? := by
  simp [getElem?_setDraft, h]

theorem setDraft_cases {s : Emission} {scope : Scope} {k : Nat} {d' e : Draft}
    (h : s.drafts[scope.val]? = some d) (he : (s.setDraft scope d').drafts[k]? = some e) :
    k = scope.val ∧ e = d' ∨ k ≠ scope.val ∧ s.drafts[k]? = some e := by
  by_cases hk : k = scope.val
  · subst hk
    exact .inl ⟨rfl, Option.mem_unique he (getElem?_setDraft_self h)⟩
  · exact .inr ⟨hk, getElem?_setDraft_ne hk ▸ he⟩

theorem setDraft_scope_cases {s : Emission} {scope x : Scope} {d' e : Draft}
    (h : s.drafts[scope.val]? = some d) (he : (s.setDraft scope d').drafts[x.val]? = some e) :
    x = scope ∧ e = d' ∨ x ≠ scope ∧ s.drafts[x.val]? = some e :=
  (setDraft_cases h he).imp (.imp_left Fin.ext) (.imp_left fun hk hx => hk (congrArg Fin.val hx))

theorem getElem?_start {src : Source} {types : TypePool} {scopes : List String} {k : Nat}
    (h : (start src types scopes).drafts[k]? = some d) : ∃ name,
      d = Draft.empty (.ofNat k) (src.program.name ++ "." ++ name) src.func.name := by
  simp only [start, List.getElem?_toArray, List.getElem?_mapIdx, Option.map_eq_some_iff] at h
  obtain ⟨name, -, rfl⟩ := h
  exact ⟨name, rfl⟩

section Sat

variable {E : Fault → Prop} {s : Emission} {scope : Scope} {α : Type} {Q : Unit → Emission → Prop}

theorem sat_draft {Q : Draft → Emission → Prop} :
    Act.Sat E (draft scope) s Q ↔ (∀ d, s.drafts[scope.val]? = some d → Q d s) ∧
      (s.drafts[scope.val]? = none → E (.scopeOutOfRange scope s.drafts.size)) := by
  unfold draft
  simp only [Act.sat_bind, Act.sat_get]
  cases s.drafts[scope.val]? <;> simp

theorem sat_editDraft {edit : Draft → α × Draft} {Q : α → Emission → Prop} :
    Act.Sat E (editDraft scope edit) s Q ↔
      (∀ d, s.drafts[scope.val]? = some d → Q (edit d).1 (s.setDraft scope (edit d).2)) ∧
      (s.drafts[scope.val]? = none → E (.scopeOutOfRange scope s.drafts.size)) := by
  unfold editDraft
  simp only [Act.sat_bind, sat_draft, Act.sat_modify, Act.sat_pure]
  rfl

theorem sat_updateDraft {update : Draft → Draft} :
    Act.Sat E (updateDraft scope update) s Q ↔
      (∀ d, s.drafts[scope.val]? = some d → Q () (s.setDraft scope (update d))) ∧
      (s.drafts[scope.val]? = none → E (.scopeOutOfRange scope s.drafts.size)) := by
  unfold updateDraft
  rw [sat_editDraft]

theorem sat_report {p : Problem} :
    Act.Sat E (report p) s Q ↔ Q () { s with problems := Problem.note s.problems p } := Iff.rfl

end Sat

end Emission

namespace Draft

section Fields

variable (d : Draft) (g : GlobalId) (decl : GlobalDecl) (fdecl : FunctionDecl) (i : InstId)
  (ty fieldTy : TypeId) (lanes : Option Nat) (block : BlockId) (op : Operation) (v : Value)

@[simp] theorem declareGlobal_program :
    (d.declareGlobal g decl).2.program = (d.program.getOrAddGlobal decl).2 := rfl
@[simp] theorem declareGlobal_globals :
    (d.declareGlobal g decl).2.globals = (g, (d.declareGlobal g decl).1) :: d.globals := rfl

@[simp] theorem declare_program : (d.declare fdecl).2.program = (d.program.declare fdecl).2 := rfl

theorem openRead_reads : (d.openRead i ty fieldTy lanes).2.reads
    = (i, (d.openRead i ty fieldTy lanes).1.2) :: d.reads := by
  cases lanes <;> rfl

end Fields

end Draft

namespace Source

def fieldType (types : TypePool) (inst : Inst) : TypeId :=
  if isSplat types inst then (types.element inst.ty).getD inst.ty else inst.ty

def fieldLanes (types : TypePool) (inst : Inst) : Option Nat :=
  if isSplat types inst then some ((types.lengthOf inst.ty).getD 1) else none

end Source

/-- The draft with the read of an element, which is the copy of the load. -/
def Draft.openElement (d : Draft) (i : InstId) (ty : TypeId) : Draft :=
  (d.emit ty (.load .pending)).2.addCopy i (.inst d.builder.func.numInsts)

namespace Emission

def openElement (s : Emission) (i : InstId) (d : Draft) (slot : ArraySlot) : Emission :=
  { s.setDraft slot.dst (d.openElement i slot.elem) with ledger := s.ledger.addArray slot }

def openRead (s : Emission) (owner dst : Scope) (i : InstId) (inst : Inst) (d : Draft) : Emission :=
  let opened := d.openRead i inst.ty (Source.fieldType s.types inst)
    (Source.fieldLanes s.types inst)
  let slot : ValueSlot := ⟨owner, dst, i, Source.fieldType s.types inst,
    Source.isSplat s.types inst, opened.1.1⟩
  { s.setDraft dst opened.2 with ledger := s.ledger.addValue slot }

/-- What the steps on the way to operands may do: the results that they read, from which scope and in
which, and the problems that they report. -/
structure Permit where
  reads : Scope → Scope → InstId → Prop
  reports : Problem → Prop

def Permit.carrying (P : Scope → InstId → Prop) : Permit := ⟨fun owner _ i => P owner i, fun _ => True⟩

/-- One step on the way to an operand, of those that are `allowed`. -/
inductive ReadStep (src : Source) (allowed : Permit) : Emission → Emission → Prop
  | report {s : Emission} {p : Problem} : allowed.reports p →
      ReadStep src allowed s { s with problems := Problem.note s.problems p }
  | declareGlobal {s : Emission} {scope : Scope} {g : GlobalId} {decl : GlobalDecl} {d : Draft} :
      s.drafts[scope.val]? = some d → d.globals.lookup g = none →
      src.program.globals[g]? = some decl →
      ReadStep src allowed s (s.setDraft scope (d.declareGlobal g decl).2)
  | declare {s : Emission} {scope : Scope} {callee : FuncId} {decl : FunctionDecl} {d : Draft} :
      s.drafts[scope.val]? = some d → src.program.decls[callee]? = some decl →
      ReadStep src allowed s (s.setDraft scope (d.declare decl).2)
  | openRead {s : Emission} {owner dst : Scope} {i : InstId} {inst : Inst} {d : Draft} :
      s.drafts[dst.val]? = some d → d.reads.lookup i = none → src.func.insts[i]? = some inst →
      owner < dst → allowed.reads owner dst i →
      ReadStep src allowed s (s.openRead owner dst i inst d)

abbrev Reads (src : Source) (allowed : Permit) : Emission → Emission → Prop :=
  Relation.ReflTransGen (ReadStep src allowed)

inductive Denotes (src : Source) (s : Emission) (scope : Scope) : Value → Value → Prop
  | const (c : Constant) : Denotes src s scope (.const c) (.const c)
  | global {g copy : GlobalId} {d : Draft} : s.drafts[scope.val]? = some d →
      d.globals.lookup g = some copy → Denotes src s scope (.global g) (.global copy)
  | copy {i : InstId} {v : Value} {d : Draft} : src.table.instScope i = some scope →
      s.drafts[scope.val]? = some d → d.copies.lookup i = some v → Denotes src s scope (.inst i) v
  | read {i : InstId} {v : Value} {d : Draft} {owner : Scope} :
      src.table.instScope i = some owner → owner < scope → s.drafts[scope.val]? = some d →
      d.reads.lookup i = some v → Denotes src s scope (.inst i) v
  | undefined {i : InstId} {inst : Inst} : src.table.instScope i = none →
      src.func.insts[i]? = some inst → .undefinedValue i ∈ s.problems →
      Denotes src s scope (.inst i) (.const (.undef inst.ty))
  | backward {i : InstId} {inst : Inst} {owner : Scope} : src.table.instScope i = some owner →
      scope < owner → src.func.insts[i]? = some inst →
      .backwardTransfer i owner scope ∈ s.problems →
      Denotes src s scope (.inst i) (.const (.undef inst.ty))

end Emission

theorem Problem.mem_note {problems : List Problem} {p q : Problem} :
    q ∈ Problem.note problems p ↔ q ∈ problems ∨ q = p := by
  unfold Problem.note
  split
  · next h =>
    have : p ∈ problems := by simpa using h
    constructor
    · exact .inl
    · rintro (hq | rfl)
      · exact hq
      · exact this
  · simp

/-- What no read takes from a part: its tables keep their entries, and its copies and its flow of
control stay as they are. -/
structure Draft.Keeps (d d' : Draft) : Prop where
  scope : d'.scope = d.scope
  copies : d'.copies = d.copies
  exits : d'.exits = d.exits
  joins : d'.joins = d.joins
  branches : d'.branches = d.branches
  current : d'.builder.current = d.builder.current
  globals : ∀ g c, d.globals.lookup g = some c → d'.globals.lookup g = some c
  reads : ∀ i v, d.reads.lookup i = some v → d'.reads.lookup i = some v
  bindings : d.program.globals <+: d'.program.globals
  decls : d.program.decls <+: d'.program.decls

theorem Draft.Keeps.refl (d : Draft) : d.Keeps d :=
  ⟨rfl, rfl, rfl, rfl, rfl, rfl, fun _ _ h => h, fun _ _ h => h, List.prefix_rfl, List.prefix_rfl⟩

theorem Draft.Keeps.trans {a b c : Draft} (h : a.Keeps b) (h' : b.Keeps c) : a.Keeps c :=
  ⟨h'.scope.trans h.scope, h'.copies.trans h.copies, h'.exits.trans h.exits,
    h'.joins.trans h.joins, h'.branches.trans h.branches, h'.current.trans h.current,
    fun g c hg => h'.globals g c (h.globals g c hg), fun i v hi => h'.reads i v (h.reads i v hi),
    h.bindings.trans h'.bindings, h.decls.trans h'.decls⟩

theorem getElem?_extend {α : Type} {l l' : List α} (h : l <+: l') {k : Nat} {x : α}
    (hk : l[k]? = some x) : l'[k]? = some x := by
  obtain ⟨t, rfl⟩ := h
  rw [List.getElem?_append_left (List.getElem?_eq_some_iff.mp hk).1, hk]

theorem lookup_cons_of_none {α : Type} {l : List (Nat × α)} {k j : Nat} {x y : α}
    (hk : l.lookup k = none) (hj : l.lookup j = some y) : ((k, x) :: l).lookup j = some y := by
  have hne : j ≠ k := by
    rintro rfl
    rw [hk] at hj
    exact absurd hj (by simp)
  rw [List.lookup_cons, beq_false_of_ne hne]
  exact hj

theorem Program.globals_getOrAddGlobal (p : Program) (decl : GlobalDecl) :
    p.globals <+: (p.getOrAddGlobal decl).2.globals := by
  unfold getOrAddGlobal
  split
  · exact List.prefix_rfl
  · exact List.prefix_append _ _

theorem Program.getOrAddGlobal_name (p : Program) (decl : GlobalDecl) :
    ∃ decl', (p.getOrAddGlobal decl).2.globals[(p.getOrAddGlobal decl).1]? = some decl' ∧
      decl'.name = decl.name := by
  unfold getOrAddGlobal
  cases h : p.globalNamed? decl.name with
  | some id =>
    obtain ⟨hlt, hid, -⟩ := List.findIdx?_eq_some_iff_getElem.mp h
    exact ⟨_, List.getElem?_eq_getElem hlt, by simpa using hid⟩
  | none => exact ⟨decl, by simp [addGlobal], rfl⟩

theorem Program.decls_getOrAddGlobal (p : Program) (decl : GlobalDecl) :
    (p.getOrAddGlobal decl).2.decls = p.decls := by
  unfold getOrAddGlobal
  split <;> rfl

theorem Program.decls_declare (p : Program) (decl : FunctionDecl) :
    p.decls <+: (p.declare decl).2.decls := by
  unfold declare
  split
  · exact List.prefix_rfl
  · exact List.prefix_append _ _

theorem Program.globals_declare (p : Program) (decl : FunctionDecl) :
    (p.declare decl).2.globals = p.globals := by
  unfold declare
  split <;> rfl

theorem Draft.keeps_declareGlobal {d : Draft} {g : GlobalId} (decl : GlobalDecl)
    (hg : d.globals.lookup g = none) : d.Keeps (d.declareGlobal g decl).2 :=
  ⟨rfl, rfl, rfl, rfl, rfl, rfl, fun _ _ h => lookup_cons_of_none hg h, fun _ _ h => h,
    d.program.globals_getOrAddGlobal decl, by simp [Program.decls_getOrAddGlobal]⟩

theorem Draft.keeps_declare (d : Draft) (decl : FunctionDecl) : d.Keeps (d.declare decl).2 :=
  ⟨rfl, rfl, rfl, rfl, rfl, rfl, fun _ _ h => h, fun _ _ h => h,
    by simp [Program.globals_declare], d.program.decls_declare decl⟩

theorem Draft.keeps_openRead {d : Draft} {i : InstId} (ty fieldTy : TypeId) (lanes : Option Nat)
    (hi : d.reads.lookup i = none) : d.Keeps (d.openRead i ty fieldTy lanes).2 := by
  have hr : ∀ j v, d.reads.lookup j = some v →
      (d.openRead i ty fieldTy lanes).2.reads.lookup j = some v := by
    intro j v hj
    rw [openRead_reads]
    exact lookup_cons_of_none hi hj
  cases lanes with
  | none | some n =>
    exact ⟨rfl, rfl, rfl, rfl, rfl, rfl, fun _ _ h => h, hr, List.prefix_rfl, List.prefix_rfl⟩

namespace Emission

variable {src : Source} {allowed : Permit} {s s' t : Emission} {scope : Scope}
  {E : Fault → Prop} {v w : Value}

structure Keeps (s s' : Emission) : Prop where
  size : s'.drafts.size = s.drafts.size
  types : s'.types = s.types
  fanout : s'.fanout = s.fanout
  problems : ∀ p ∈ s.problems, p ∈ s'.problems
  drafts : ∀ (k : Nat) (d : Draft), s.drafts[k]? = some d →
    ∃ d', s'.drafts[k]? = some d' ∧ d.Keeps d'

theorem Keeps.refl (s : Emission) : s.Keeps s :=
  ⟨rfl, rfl, rfl, fun _ h => h, fun _ d h => ⟨d, h, .refl d⟩⟩

theorem Keeps.trans (h : s.Keeps s') (h' : s'.Keeps t) : s.Keeps t := by
  refine ⟨h'.size.trans h.size, h'.types.trans h.types, h'.fanout.trans h.fanout,
    fun p hp => h'.problems p (h.problems p hp), fun k d hd => ?_⟩
  obtain ⟨d', hd', hk⟩ := h.drafts k d hd
  obtain ⟨d'', hd'', hk'⟩ := h'.drafts k d' hd'
  exact ⟨d'', hd'', hk.trans hk'⟩

theorem keeps_setDraft {d d' : Draft} (hd : s.drafts[scope.val]? = some d) (h : d.Keeps d') :
    s.Keeps (s.setDraft scope d') := by
  refine ⟨by simp, rfl, rfl, fun _ h => h, fun k e he => ?_⟩
  by_cases hk : k = scope.val
  · subst hk
    obtain rfl := Option.mem_unique hd he
    exact ⟨d', getElem?_setDraft_self hd, h⟩
  · exact ⟨e, by rw [getElem?_setDraft_ne hk, he], .refl e⟩

def Has (s : Emission) (scope : Scope) (i : InstId) : Prop :=
  ∃ d v, s.drafts[scope.val]? = some d ∧ d.copies.lookup i = some v

/-- Copies are not lost. -/
structure Grows (s s' : Emission) : Prop where
  size : s'.drafts.size = s.drafts.size
  has : ∀ scope i, s.Has scope i → s'.Has scope i

theorem Grows.refl (s : Emission) : s.Grows s := ⟨rfl, fun _ _ h => h⟩

theorem Grows.trans (h : s.Grows s') (h' : s'.Grows t) : s.Grows t :=
  ⟨h'.size.trans h.size, fun scope i hi => h'.has scope i (h.has scope i hi)⟩

theorem Keeps.grows (h : s.Keeps s') : s.Grows s' := by
  refine ⟨h.size, fun scope i ⟨d, v, hd, hv⟩ => ?_⟩
  obtain ⟨d', hd', hk⟩ := h.drafts _ d hd
  exact ⟨d', v, hd', hk.copies ▸ hv⟩

theorem grows_setDraft {d d' : Draft} (hd : s.drafts[scope.val]? = some d)
    (hc : ∀ i v, d.copies.lookup i = some v → ∃ v', d'.copies.lookup i = some v') :
    s.Grows (s.setDraft scope d') := by
  refine ⟨by simp, ?_⟩
  rintro other i ⟨e, v, he, hv⟩
  by_cases hk : other.val = scope.val
  · rw [hk] at he
    obtain rfl := Option.mem_unique hd he
    obtain ⟨v', hv'⟩ := hc i v hv
    exact ⟨d', v', by rw [hk]; exact getElem?_setDraft_self hd, hv'⟩
  · exact ⟨e, v, by rw [getElem?_setDraft_ne hk, he], hv⟩

theorem ReadStep.keeps (h : ReadStep src allowed s s') : s.Keeps s' := by
  cases h with
  | report _ =>
    exact ⟨rfl, rfl, rfl, fun q hq => Problem.mem_note.mpr (.inl hq), fun _ d hd => ⟨d, hd, .refl d⟩⟩
  | declareGlobal hd hg _ => exact keeps_setDraft hd (Draft.keeps_declareGlobal _ hg)
  | declare hd _ => exact keeps_setDraft hd (Draft.keeps_declare _ _)
  | @openRead _ _ _ inst _ hd hi _ _ _ =>
    have := keeps_setDraft hd (Draft.keeps_openRead inst.ty (Source.fieldType s.types inst)
      (Source.fieldLanes s.types inst) hi)
    exact ⟨this.size, rfl, rfl, this.problems, this.drafts⟩

theorem Reads.keeps (h : Reads src allowed s s') : s.Keeps s' := by
  induction h with
  | refl => exact .refl _
  | tail _ hs ih => exact ih.trans hs.keeps

theorem Reads.mono {allowed' : Permit} (h : Reads src allowed s t)
    (hre : ∀ owner dst i, owner < dst → allowed.reads owner dst i → allowed'.reads owner dst i)
    (hr : ∀ p, allowed.reports p → allowed'.reports p) : Reads src allowed' s t := by
  refine Relation.ReflTransGen.mono (fun s t hs => ?_) _ _ h
  cases hs with
  | report hp => exact .report (hr _ hp)
  | declareGlobal hd hg hde => exact .declareGlobal hd hg hde
  | declare hd hde => exact .declare hd hde
  | openRead hd hi hin hlt hrea => exact .openRead hd hi hin hlt (hre _ _ _ hlt hrea)

theorem Denotes.keeps (h : Denotes src s scope v w) (hk : s.Keeps s') :
    Denotes src s' scope v w := by
  cases h with
  | const c => exact .const c
  | global hd hg =>
    obtain ⟨d', hd', hk'⟩ := hk.drafts _ _ hd
    exact .global hd' (hk'.globals _ _ hg)
  | copy hs hd hi =>
    obtain ⟨d', hd', hk'⟩ := hk.drafts _ _ hd
    exact .copy hs hd' (hk'.copies ▸ hi)
  | read hs hlt hd hi =>
    obtain ⟨d', hd', hk'⟩ := hk.drafts _ _ hd
    exact .read hs hlt hd' (hk'.reads _ _ hi)
  | undefined hs hi hp => exact .undefined hs hi (hk.problems _ hp)
  | backward hs hlt hi hp => exact .backward hs hlt hi (hk.problems _ hp)

theorem sat_mapM_reads {α β : Type} {f : α → Act Emission β} {xs : List α}
    {P : Emission → α → Prop} {R : Emission → α → β → Prop}
    (hR : ∀ s t a b, R s a b → s.Keeps t → R t a b) (hP : ∀ s t a, P s a → s.Keeps t → P t a)
    (step : ∀ x ∈ xs, ∀ s, P s x → Act.Sat E (f x) s fun y t => Reads src allowed s t ∧ R t x y)
    (h : ∀ x ∈ xs, P s x) :
    Act.Sat E (xs.mapM f) s fun ys t => Reads src allowed s t ∧ List.Forall₂ (R t) xs ys := by
  induction xs generalizing s with
  | nil => exact ⟨.refl, .nil⟩
  | cons x xs ih =>
    simp only [List.mapM_cons, Act.sat_bind, Act.sat_pure]
    refine (step x (by simp) s (h x (by simp))).mono fun y t hyt => ?_
    obtain ⟨hr, hy⟩ := hyt
    refine (ih (fun z hz => step z (by simp [hz])) fun z hz => ?_).mono
      fun ys u hysu => ?_
    · exact hP s t z (h z (by simp [hz])) hr.keeps
    · obtain ⟨hr', hys⟩ := hysu
      exact ⟨hr.trans hr', .cons (hR t u x y hy hr'.keeps) hys⟩

end Emission

namespace Source

open Emission

variable {src : Source} {allowed : Permit} {s : Emission} {scope : Scope}
  {E : Fault → Prop}

theorem sat_getGlobal_of {g : GlobalId} {Q : GlobalId → Emission → Prop} (hE : Act.Tolerant E ∨
      scope.val < s.drafts.size ∧ g < src.program.numGlobals)
    (hf : ∀ d copy, s.drafts[scope.val]? = some d → d.globals.lookup g = some copy → Q copy s)
    (hne : ∀ d decl, s.drafts[scope.val]? = some d → d.globals.lookup g = none →
      src.program.globals[g]? = some decl →
      Q (d.declareGlobal g decl).1 (s.setDraft scope (d.declareGlobal g decl).2)) :
    Act.Sat E (src.getGlobal scope g) s Q := by
  unfold getGlobal
  simp only [Act.sat_bind, sat_draft]
  refine ⟨fun d hd => ?_, fun hd => ?_⟩
  · cases hg : d.globals.lookup g with
    | some copy => exact hf d copy hd hg
    | none =>
      simp only [Act.sat_bind, Act.sat_ofOption, sat_editDraft]
      refine ⟨fun decl hde => ⟨fun d' hd' => ?_, fun hn => ?_⟩, fun hn => ?_⟩
      · obtain rfl := Option.mem_unique hd hd'
        exact hne d decl hd hg hde
      · rw [hn] at hd
        exact absurd hd (by simp)
      · exact Act.fault_of_list_none (hE.imp_right And.right) hn
  · exact Act.fault_of_array_none (hE.imp_right And.left) hd

theorem sat_getGlobal {g : GlobalId} (hE : Act.Tolerant E ∨
      scope.val < s.drafts.size ∧ g < src.program.numGlobals) :
    Act.Sat E (src.getGlobal scope g) s fun copy t =>
      Reads src allowed s t ∧ Denotes src t scope (.global g) (.global copy) := by
  refine sat_getGlobal_of hE (fun d copy hd hg => ⟨.refl, .global hd hg⟩)
    fun d decl hd hg hde => ?_
  refine ⟨.single (.declareGlobal hd hg hde), .global (getElem?_setDraft_self hd) ?_⟩
  simp

theorem sat_transferValue {owner dst : Scope} {i : InstId} (hlt : owner < dst)
    (ha : allowed.reads owner dst i)
    (hE : Act.Tolerant E ∨ dst.val < s.drafts.size ∧ i < src.func.numInsts) :
    Act.Sat E (src.transferValue owner dst i) s fun v t =>
      Reads src allowed s t ∧ ∃ d, t.drafts[dst.val]? = some d ∧ d.reads.lookup i = some v := by
  unfold transferValue
  simp only [Act.sat_bind, sat_draft]
  refine ⟨fun d hd => ?_, fun hd => ?_⟩
  · cases hi : d.reads.lookup i with
    | some v => exact ⟨.refl, d, hd, hi⟩
    | none =>
      simp only [inst, Act.sat_bind, Act.sat_ofOption, Act.sat_get, Act.sat_modify, Act.sat_pure,
        sat_editDraft]
      refine ⟨fun inst hin => ⟨fun d' hd' => ?_, fun hn => ?_⟩, fun hn => ?_⟩
      · obtain rfl := Option.mem_unique hd hd'
        refine ⟨.single (.openRead hd hi hin hlt ha), _, getElem?_setDraft_self hd, ?_⟩
        rw [Draft.openRead_reads]
        simp
      · rw [hn] at hd
        exact absurd hd (by simp)
      · exact Act.fault_of_array_none (hE.imp_right And.right) hn
  · exact Act.fault_of_array_none (hE.imp_right And.left) hd

/-- An operand can be had in a scope: it exists, and if it is made there it is there already. -/
def Ready (src : Source) (s : Emission) (scope : Scope) : Value → Prop
  | .const _ => True
  | .global g => g < src.program.numGlobals
  | .inst i => i < src.table.insts.size ∧ i < src.func.numInsts ∧
    (src.table.instScope i = some scope → s.Has scope i)

theorem Ready.keeps {t : Emission} {v : Value} (h : src.Ready s scope v) (hk : s.Keeps t) :
    src.Ready t scope v := by
  cases v with
  | const c => trivial
  | global g => exact h
  | inst i => exact ⟨h.1, h.2.1, fun hs => hk.grows.has scope i (h.2.2 hs)⟩

/-- A problem of an operand in a scope: it has no scope, or its scope is later. -/
inductive Refuses (src : Source) (scope : Scope) : Value → Problem → Prop
  | undefined {i : InstId} : src.table.instScope i = none →
      Refuses src scope (.inst i) (.undefinedValue i)
  | backward {i : InstId} {owner : Scope} : src.table.instScope i = some owner → scope < owner →
      Refuses src scope (.inst i) (.backwardTransfer i owner scope)

structure Allows (src : Source) (allowed : Permit) (scope : Scope) (v : Value) : Prop where
  reads : ∀ i owner, v = .inst i → src.table.instScope i = some owner → owner < scope →
    allowed.reads owner scope i
  reports : ∀ p, src.Refuses scope v p → allowed.reports p

theorem sat_undef {i : InstId} {Q : Value → Emission → Prop}
    (hE : Act.Tolerant E ∨ i < src.func.numInsts)
    (h : ∀ inst, src.func.insts[i]? = some inst → Q (.const (.undef inst.ty)) s) :
    Act.Sat E (src.undef i) s Q := by
  simp only [undef, inst, Act.sat_bind, Act.sat_ofOption, Act.sat_pure]
  refine ⟨h, fun hn => ?_⟩
  exact Act.fault_of_array_none hE hn

/-- Getting an operand only reads, and the answer is what it denotes in the scope. -/
theorem sat_getValue {v : Value} (ha : src.Allows allowed scope v)
    (hE : Act.Tolerant E ∨ scope.val < s.drafts.size ∧ src.Ready s scope v) :
    Act.Sat E (src.getValue scope v) s fun r t =>
      Reads src allowed s t ∧ Denotes src t scope v r := by
  cases v with
  | const c => exact ⟨.refl, .const c⟩
  | global g =>
    simp only [getValue, Act.sat_bind, Act.sat_pure]
    exact (sat_getGlobal hE).mono fun _ _ h => h
  | inst i =>
    simp only [getValue, Act.sat_bind, Act.sat_ofOption]
    refine ⟨fun info hinf => ?_, fun hn => ?_⟩
    · have hs : src.table.instScope i = info.usedScope := by
        simp [Classification.instScope, Classification.inst, hinf]
      cases ho : info.usedScope with
      | none =>
        rw [ho] at hs
        simp only [Act.sat_bind, sat_report]
        refine sat_undef (hE.imp_right fun h => h.2.2.1) fun inst hin => ?_
        exact ⟨.single (.report (ha.reports _ (.undefined hs))),
          .undefined hs hin (Problem.mem_note.mpr (.inr rfl))⟩
      | some owner =>
        rw [ho] at hs
        simp only
        split
        · next heq =>
          subst heq
          simp only [Act.sat_bind, sat_draft]
          refine ⟨fun d hd => ?_, fun hn => ?_⟩
          · cases hi : d.copies.lookup i with
            | some v => exact ⟨.refl, .copy hs hd hi⟩
            | none =>
              simp only [Act.sat_throw]
              rcases hE with hE | ⟨_, hr⟩
              · exact hE _
              · obtain ⟨d', v, hd', hv⟩ := hr.2.2 hs
                obtain rfl := Option.mem_unique hd hd'
                rw [hi] at hv
                exact absurd hv (by simp)
          · exact Act.fault_of_array_none (hE.imp_right And.left) hn
        · next hne =>
          split
          · next hlt =>
            refine (sat_transferValue hlt (ha.reads i owner rfl hs hlt)
              (hE.imp_right fun h => ⟨h.1, h.2.2.1⟩)).mono fun r t h => ?_
            obtain ⟨hre, d, hd, hi⟩ := h
            exact ⟨hre, .read hs hlt hd hi⟩
          · next hlt =>
            have hgt : scope < owner :=
              Nat.lt_of_le_of_ne (Nat.not_lt.mp hlt) fun h => hne (Fin.ext h.symm)
            simp only [Act.sat_bind, sat_report]
            refine sat_undef (hE.imp_right fun h => h.2.2.1) fun inst hin => ?_
            exact ⟨.single (.report (ha.reports _ (.backward hs hgt))),
              .backward hs hgt hin (Problem.mem_note.mpr (.inr rfl))⟩
    · exact Act.fault_of_array_none (hE.imp_right fun h => h.2.1) hn

theorem sat_getValues {vs : List Value} (ha : ∀ v ∈ vs, src.Allows allowed scope v)
    (hE : ∀ v ∈ vs, Act.Tolerant E ∨ scope.val < s.drafts.size ∧ src.Ready s scope v) :
    Act.Sat E (vs.mapM (src.getValue scope)) s fun rs t =>
      Reads src allowed s t ∧ List.Forall₂ (Denotes src t scope) vs rs := by
  refine sat_mapM_reads (fun _ _ _ _ h hk => h.keeps hk) (fun _ t _ h hk => ?_)
    (fun v hv t ht => sat_getValue (ha v hv) ht) hE
  exact h.imp_right fun h => ⟨hk.size ▸ h.1, h.2.keeps hk⟩

end Source

end Stagewise
