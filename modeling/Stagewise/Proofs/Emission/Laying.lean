import Stagewise.Proofs.Emission.Reading
import Stagewise.Proofs.Function.Editing
import Stagewise.Proofs.Semantics.Types
import Stagewise.Split

namespace Stagewise

def TransferLayout.key (l : TransferLayout) : RecordKey := ⟨l.src, l.dst, l.objects⟩

namespace Ledger

variable {l : Ledger} {types : TypePool} {key : RecordKey}

theorem mem_valuesOf {slot : ValueSlot} :
    slot ∈ l.valuesOf types key ↔ slot ∈ l.values ∧ valueKey types slot = key := by
  simp [valuesOf]

theorem mem_arraysOf {slot : ArraySlot} :
    slot ∈ l.arraysOf types key ↔ slot ∈ l.arrays ∧ arrayKey types slot = key := by
  simp [arraysOf]

end Ledger

namespace Draft

variable {d d' : Draft} {slot : ValueSlot}

def Calls (d : Draft) (g : GlobalId) (name : String) : Prop :=
  ∃ decl, d.program.globals[g]? = some decl ∧ decl.name = name

theorem Calls.of_grown {g : GlobalId} {name : String} (h : d.Calls g name)
    (hb : d.program.globals <+: d'.program.globals) : d'.Calls g name := by
  obtain ⟨decl, hd, hn⟩ := h
  exact ⟨decl, getElem?_extend hb hd, hn⟩

theorem calls_declareRecord (d : Draft) (decl : GlobalDecl) :
    (d.declareRecord decl).2.Calls (d.declareRecord decl).1 decl.name :=
  d.program.getOrAddGlobal_name decl

def homeOf (d : Draft) : Value → BlockId
  | .inst i => d.builder.func.insts[i]?.elim d.entry Inst.block
  | _ => d.entry

theorem storeField_whole (hs : slot.scalarized = false) (d : Draft) (record : GlobalId)
    (field : Nat) (v : Value) :
    d.storeField record field slot v
      = (d.append (d.homeOf v) TypeId.void (.store v (.member record [field]))).2 := by
  cases v <;> simp [storeField, homeOf, hs]

theorem storeField_lane (hs : slot.scalarized = true) (d : Draft) (record : GlobalId) (field : Nat)
    (v : Value) :
    d.storeField record field slot v
      = ((d.append (d.homeOf v) slot.ty (.extract v (.const (.int TypeId.int 0)))).2.append
          (d.homeOf v) TypeId.void (.store (.inst d.builder.func.numInsts)
            (.member record [field]))).2 := by
  cases v <;> simp [storeField, homeOf, hs, Draft.append, Builder.append]

theorem storeField_eq (d : Draft) (record : GlobalId) (field : Nat) (slot : ValueSlot) (v : Value) :
    ∃ func, d.storeField record field slot v = { d with builder := { d.builder with func := func } } := by
  unfold storeField
  cases slot.scalarized <;> exact ⟨_, rfl⟩

theorem copyElements_eq (d : Draft) (record : GlobalId) (field : Nat) (slot : ArraySlot)
    (g : GlobalId) : ∃ func, d.copyElements record field slot g
      = { d with builder := { d.builder with func := func } } := by
  unfold copyElements
  induction List.range slot.len generalizing d with
  | nil => exact ⟨_, rfl⟩
  | cons position rest ih =>
    obtain ⟨func, hf⟩ := ih (copyPosition record field slot g d position)
    exact ⟨func, hf⟩

theorem patchReads_eq (d : Draft) (record : GlobalId) (field : Nat) (slot : ArraySlot) :
    ∃ func, d.patchReads record field slot = { d with builder := { d.builder with func := func } } := by
  unfold patchReads
  induction slot.reads generalizing d with
  | nil => exact ⟨_, rfl⟩
  | cons r rest ih =>
    obtain ⟨func, hf⟩ := ih (d.setOp r.1 (.load (.element record [.fixed field, .dynamic r.2])))
    exact ⟨func, hf⟩

section Functions

variable (d : Draft) (record : GlobalId) (field : Nat)

@[simp] theorem storeField_program (slot : ValueSlot) (v : Value) :
    (d.storeField record field slot v).program = d.program := by
  obtain ⟨_, h⟩ := d.storeField_eq record field slot v
  rw [h]

@[simp] theorem copyElements_program (slot : ArraySlot) (g : GlobalId) :
    (d.copyElements record field slot g).program = d.program := by
  obtain ⟨_, h⟩ := d.copyElements_eq record field slot g
  rw [h]

@[simp] theorem patchReads_program (slot : ArraySlot) :
    (d.patchReads record field slot).program = d.program := by
  obtain ⟨_, h⟩ := d.patchReads_eq record field slot
  rw [h]

end Functions

inductive Wired : Draft → Draft → Prop
  | declareRecord (d : Draft) (decl : GlobalDecl) : Wired d (d.declareRecord decl).2
  | declareGlobal (d : Draft) (g : GlobalId) (decl : GlobalDecl) : Wired d (d.declareGlobal g decl).2
  | storeField (d : Draft) (record : GlobalId) (field : Nat) (slot : ValueSlot) (v : Value) :
      Wired d (d.storeField record field slot v)
  | setOp (d : Draft) (i : InstId) (addr : Address) : Wired d (d.setOp i (.load addr))
  | copyPosition (d : Draft) (record : GlobalId) (field : Nat) (slot : ArraySlot) (g : GlobalId)
      (position : Nat) : Wired d (copyPosition record field slot g d position)

theorem Wired.copies {d d' : Draft} (h : d.Wired d') : d'.copies = d.copies := by
  cases h with
  | storeField _ _ slot _ =>
    unfold Draft.storeField
    cases slot.scalarized <;> rfl
  | _ => rfl

theorem wired_copyElements (d : Draft) (record : GlobalId) (field : Nat) (slot : ArraySlot)
    (g : GlobalId) : Relation.ReflTransGen Wired d (d.copyElements record field slot g) := by
  unfold copyElements
  induction List.range slot.len generalizing d with
  | nil => exact .refl
  | cons position rest ih => exact .head (.copyPosition ..) (ih _)

theorem wired_patchReads (d : Draft) (record : GlobalId) (field : Nat) (slot : ArraySlot) :
    Relation.ReflTransGen Wired d (d.patchReads record field slot) := by
  unfold patchReads
  induction slot.reads generalizing d with
  | nil => exact .refl
  | cons r rest ih => exact .head (.setOp ..) (ih _)

end Draft

namespace Emission

variable {src : Source} {l : TransferLayout} {values : List ValueSlot} {arrays : List ArraySlot}
  {s t : Emission} {x scope : Scope} {d d' : Draft} {k : Nat}

def withTypes (s : Emission) (types : TypePool) : Emission := { s with types := types }

def Meets (s : Emission) (scope : Scope) (P : Draft → Prop) : Prop :=
  ∀ d, s.drafts[scope.val]? = some d → P d

theorem Meets.setDraft {P : Draft → Prop} (h : s.Meets x P) (hd : s.drafts[scope.val]? = some d)
    (hP : P d → P d') : (s.setDraft scope d').Meets x P := by
  intro e he
  rcases setDraft_scope_cases hd he with ⟨rfl, rfl⟩ | ⟨-, he⟩
  · exact hP (h d hd)
  · exact h e he

theorem meets_setDraft_self {P : Draft → Prop} (hd : s.drafts[scope.val]? = some d) (hP : P d') :
    (s.setDraft scope d').Meets scope P :=
  fun _ he => Option.mem_unique (getElem?_setDraft_self hd) he ▸ hP

/-- The next field of a record is wired. The part that makes a value stores it into its field and the
read of the value loads it from there; of an array, which is copied from a binding of the source, the
elements are. -/
inductive WireStep (src : Source) (l : TransferLayout) (values : List ValueSlot)
    (arrays : List ArraySlot) (t : Emission) : Nat → Nat → Emission → Prop
  | global {k : Nat} {d : Draft} {g : GlobalId} {decl : GlobalDecl} :
      t.drafts[l.src.val]? = some d → d.globals.lookup g = none →
      src.program.globals[g]? = some decl →
      WireStep src l values arrays t k k (t.setDraft l.src (d.declareGlobal g decl).2)
  | value {k : Nat} {slot : ValueSlot} {stored loaded : GlobalId} {v : Value} {d e : Draft} :
      values[k]? = some slot → t.drafts[l.src.val]? = some d → d.Calls stored l.name →
      d.copies.lookup slot.source = some v →
      (t.setDraft l.src (d.storeField stored k slot v)).drafts[l.dst.val]? = some e →
      e.Calls loaded l.name → WireStep src l values arrays t k (k + 1)
        ((t.setDraft l.src (d.storeField stored k slot v)).setDraft l.dst
          (e.setOp slot.read (.load (.member loaded [k]))))
  | array {j : Nat} {slot : ArraySlot} {stored loaded g : GlobalId} {d e : Draft} :
      arrays[j]? = some slot → t.drafts[l.src.val]? = some d → d.Calls stored l.name →
      d.globals.lookup slot.global = some g →
      (t.setDraft l.src (d.copyElements stored (values.length + j) slot g)).drafts[l.dst.val]?
        = some e → e.Calls loaded l.name →
      WireStep src l values arrays t (values.length + j) (values.length + j + 1)
        ((t.setDraft l.src (d.copyElements stored (values.length + j) slot g)).setDraft l.dst
          (e.patchReads loaded (values.length + j) slot))

/-- The wiring of a record as far as some field: both parts have bound its name, and the fields before
are wired, one after the other. -/
inductive Wiring (src : Source) (l : TransferLayout) (values : List ValueSlot)
    (arrays : List ArraySlot) (s : Emission) : Nat → Emission → Prop
  | declared {d e : Draft} : s.drafts[l.src.val]? = some d →
      (s.setDraft l.src (d.declareRecord (.plain l.name l.record)).2).drafts[l.dst.val]? = some e →
      Wiring src l values arrays s 0 ((s.setDraft l.src
        (d.declareRecord (.plain l.name l.record)).2).setDraft l.dst
        (e.declareRecord (.plain l.name l.record)).2)
  | step {k k' : Nat} {t u : Emission} : Wiring src l values arrays s k t →
      WireStep src l values arrays t k k' u → Wiring src l values arrays s k' u

theorem Wiring.frame (h : Wiring src l values arrays s k t) :
    ∃ drafts, t = { s with drafts := drafts } ∧ drafts.size = s.drafts.size := by
  induction h with
  | declared _ _ => exact ⟨_, rfl, by simp [setDraft]⟩
  | step _ hstep ih =>
    obtain ⟨drafts, rfl, hs⟩ := ih
    cases hstep <;> exact ⟨_, rfl, by simpa [setDraft] using hs⟩

structure Bound (l : TransferLayout) (stored loaded : GlobalId) (s : Emission) : Prop where
  stored : s.Meets l.src (·.Calls stored l.name)
  loaded : s.Meets l.dst (·.Calls loaded l.name)

theorem Bound.setDraft {stored loaded : GlobalId} (h : s.Bound l stored loaded)
    (hd : s.drafts[scope.val]? = some d) (hb : d.program.globals <+: d'.program.globals) :
    (s.setDraft scope d').Bound l stored loaded :=
  ⟨h.stored.setDraft hd fun hc => hc.of_grown hb,
    h.loaded.setDraft hd fun hc => hc.of_grown hb⟩

inductive LayStep : Emission → Emission → Prop
  | markFixed (s : Emission) (key : RecordKey) :
      LayStep s { s with ledger := s.ledger.markFixed key }
  | types (s : Emission) (types : TypePool) : LayStep s { s with types := types }
  | edit {s : Emission} {scope : Scope} {d d' : Draft} : s.drafts[scope.val]? = some d →
      d.Wired d' → LayStep s (s.setDraft scope d')

abbrev Lays : Emission → Emission → Prop := Relation.ReflTransGen LayStep

theorem lays_setDraft (hd : s.drafts[scope.val]? = some d)
    (h : Relation.ReflTransGen Draft.Wired d d') : s.Lays (s.setDraft scope d') := by
  induction h with
  | refl =>
    have hs : s.setDraft scope d = s := by
      obtain ⟨hlt, rfl⟩ := Array.getElem?_eq_some_iff.mp hd
      simp [setDraft, Array.setIfInBounds]
    rw [hs]
  | @tail e d' _ hstep ih =>
    have he : (s.setDraft scope e).drafts[scope.val]? = some e := getElem?_setDraft_self hd
    have ha : (s.setDraft scope e).setDraft scope d' = s.setDraft scope d' := by
      simp [setDraft]
    exact ha ▸ ih.tail (.edit he hstep)

theorem Wiring.lays (h : Wiring src l values arrays s k t) : s.Lays t := by
  induction h with
  | declared hd he =>
    exact (lays_setDraft hd (.single (.declareRecord ..))).tail (.edit he (.declareRecord ..))
  | step _ hstep ih =>
    cases hstep with
    | global hd _ _ => exact ih.tail (.edit hd (.declareGlobal ..))
    | value _ hd _ _ he _ => exact (ih.tail (.edit hd (.storeField ..))).tail (.edit he (.setOp ..))
    | array _ hd _ _ he _ =>
      exact (ih.trans (lays_setDraft hd (Draft.wired_copyElements ..))).trans
        (lays_setDraft he (Draft.wired_patchReads ..))

theorem Lays.grows (h : s.Lays t) : s.Grows t := by
  induction h with
  | refl => exact .refl s
  | tail _ hstep ih =>
    cases hstep with
    | edit hd hw => exact ih.trans (grows_setDraft hd fun _ v hv => ⟨v, by rw [hw.copies, hv]⟩)
    | _ => exact ⟨ih.size, ih.has⟩

theorem Lays.slots (h : s.Lays t) :
    t.ledger.values = s.ledger.values ∧ t.ledger.arrays = s.ledger.arrays := by
  induction h with
  | refl => exact ⟨rfl, rfl⟩
  | tail _ hstep ih => cases hstep <;> exact ih

theorem Lays.problems (h : s.Lays t) : t.problems = s.problems := by
  induction h with
  | refl => rfl
  | tail _ hstep ih => cases hstep <;> exact ih

end Emission

namespace Source

open Emission

variable {src : Source} {l : TransferLayout} {values : List ValueSlot} {arrays : List ArraySlot}
  {s t : Emission} {key : RecordKey} {name : String} {stored loaded : GlobalId} {E : Fault → Prop}

/-- What wiring a record finds: its parts, the copies of its values and the bindings of its arrays. -/
structure Backs (src : Source) (l : TransferLayout) (values : List ValueSlot)
    (arrays : List ArraySlot) (s : Emission) : Prop where
  src_lt : l.src.val < s.drafts.size
  dst_lt : l.dst.val < s.drafts.size
  values : ∀ slot ∈ values, s.Has l.src slot.source
  arrays : ∀ slot ∈ arrays, slot.global < src.program.numGlobals

theorem Backs.lays (h : Backs src l values arrays s) (hl : s.Lays t) : Backs src l values arrays t :=
  ⟨hl.grows.size ▸ h.src_lt, hl.grows.size ▸ h.dst_lt,
    fun slot hs => hl.grows.has _ _ (h.values slot hs), h.arrays⟩

/-- Wiring goes through the values field by field, with those before done and those after untouched.
-/
theorem sat_wireValues_wiring {done slots : List ValueSlot}
    (hE : Act.Tolerant E ∨ Backs src l (done ++ slots) arrays s)
    (h : Wiring src l (done ++ slots) arrays s done.length t) (hb : t.Bound l stored loaded) :
    Act.Sat E (wireValues l.key stored loaded done.length slots) t fun _ u =>
      Wiring src l (done ++ slots) arrays s (done ++ slots).length u ∧ u.Bound l stored loaded := by
  induction slots generalizing t done with
  | nil => exact ⟨by simpa using h, hb⟩
  | cons slot rest ih =>
    have hE' := hE.imp_right fun hb => hb.lays h.lays
    simp only [wireValues, storeValue, Act.sat_bind, sat_draft]
    refine ⟨fun d hd => ?_, Act.fault_of_array_none (hE'.imp_right fun hb => hb.src_lt)⟩
    cases hv : d.copies.lookup slot.source with
    | none =>
      refine hE'.elim (· _) fun hb => ?_
      obtain ⟨e, v, he, hv'⟩ := hb.values slot (by simp)
      obtain rfl := Option.mem_unique hd he
      cases hv.symm.trans hv'
    | some v =>
      simp only [sat_updateDraft]
      refine ⟨fun d' hd' => ⟨fun e he => ?_, Act.fault_of_array_none (hE'.imp_right fun hb => ?_)⟩,
        fun hn => by simp [hn] at hd⟩
      swap
      · exact (size_setDraft ..).symm ▸ hb.dst_lt
      obtain rfl := Option.mem_unique hd hd'
      have hs : Bound l stored loaded (t.setDraft l.src (d.storeField stored done.length slot v)) :=
        hb.setDraft hd (by simp)
      have hn := h.step (.value (by simp) hd (hb.stored d hd) hv he (hs.loaded e he))
      have hsp : done ++ slot :: rest = done ++ [slot] ++ rest := by simp
      have hl : done.length + 1 = (done ++ [slot]).length := by simp
      rw [hsp] at hn hE ⊢
      rw [hl] at hn ⊢
      exact ih hE hn (hs.setDraft he List.prefix_rfl)

/-- Wiring goes on through the arrays, whose fields come after those of all values. -/
theorem sat_wireArrays_wiring {done slots : List ArraySlot}
    (hE : Act.Tolerant E ∨ Backs src l values (done ++ slots) s)
    (h : Wiring src l values (done ++ slots) s (values.length + done.length) t)
    (hb : t.Bound l stored loaded) :
    Act.Sat E (src.wireArrays l.key stored loaded (values.length + done.length) slots) t
      fun _ u => Wiring src l values (done ++ slots) s (values.length + (done ++ slots).length) u := by
  induction slots generalizing t done with
  | nil =>
    show Wiring src l values (done ++ []) s (values.length + (done ++ []).length) t
    simpa using h
  | cons slot rest ih =>
    -- the binding that the elements are copied from is there, or is declared now
    have hge : Act.Sat E (src.getGlobal l.key.src slot.global) t fun g u =>
        Wiring src l values (done ++ slot :: rest) s (values.length + done.length) u ∧
          u.Bound l stored loaded ∧ u.Meets l.src (·.globals.lookup slot.global = some g) := by
      refine sat_getGlobal_of (hE.imp_right fun hb => ?_) (fun d g hd hg => ⟨h, hb, fun e he => ?_⟩)
        fun d decl hd hno hde => ⟨h.step (.global hd hno hde), ?_, meets_setDraft_self hd ?_⟩
      · exact ⟨(hb.lays h.lays).src_lt, hb.arrays slot (by simp)⟩
      · exact Option.mem_unique hd he ▸ hg
      · exact hb.setDraft hd (d.program.globals_getOrAddGlobal decl)
      · rw [Draft.declareGlobal_globals, List.lookup_cons, beq_self_eq_true]
    simp only [wireArrays, Act.sat_bind, sat_updateDraft]
    refine hge.mono fun g u hu => ?_
    obtain ⟨hu, hb, hg⟩ := hu
    have hE' := hE.imp_right fun hb => hb.lays hu.lays
    refine ⟨fun d hd => ⟨fun e he => ?_, Act.fault_of_array_none (hE'.imp_right fun hb => ?_)⟩,
      Act.fault_of_array_none (hE'.imp_right fun hb => hb.src_lt)⟩
    swap
    · exact (size_setDraft ..).symm ▸ hb.dst_lt
    have hs : Bound l stored loaded
        (u.setDraft l.src (d.copyElements stored (values.length + done.length) slot g)) :=
      hb.setDraft hd (by simp)
    have hn := hu.step (.array (by simp) hd (hb.stored d hd) (hg d hd) he (hs.loaded e he))
    have hsp : done ++ slot :: rest = done ++ [slot] ++ rest := by simp
    have hl : values.length + done.length + 1 = values.length + (done ++ [slot]).length := by
      simp [Nat.add_assoc]
    rw [hsp] at hn hE ⊢
    rw [hl] at hn ⊢
    exact ih hE hn (hs.setDraft he (by simp))

def wireRecord (src : Source) (l : TransferLayout) (values : List ValueSlot)
    (arrays : List ArraySlot) : Act Emission (Option TransferLayout) := do
  let stored ← editDraft l.src (·.declareRecord (.plain l.name l.record))
  let loaded ← editDraft l.dst (·.declareRecord (.plain l.name l.record))
  wireValues l.key stored loaded 0 values
  src.wireArrays l.key stored loaded values.length arrays
  return some l

theorem sat_wireRecord (hE : Act.Tolerant E ∨ Backs src l values arrays s) :
    Act.Sat E (src.wireRecord l values arrays) s fun o t =>
      o = some l ∧ Wiring src l values arrays s (values.length + arrays.length) t := by
  simp only [wireRecord, Act.sat_bind, Act.sat_pure, sat_editDraft]
  refine ⟨fun d hd => ⟨fun e he => ?_, Act.fault_of_array_none (hE.imp_right fun hb => ?_)⟩,
    Act.fault_of_array_none (hE.imp_right fun hb => hb.src_lt)⟩
  swap
  · exact (size_setDraft ..).symm ▸ hb.dst_lt
  have hb : Bound l _ _ _ :=
    ⟨(meets_setDraft_self hd (d.calls_declareRecord (.plain l.name l.record))).setDraft he
      fun hc => hc.of_grown (e.program.globals_getOrAddGlobal (.plain l.name l.record)),
      meets_setDraft_self he (e.calls_declareRecord (.plain l.name l.record))⟩
  have hde : Wiring src l ([] ++ values) arrays s ([] : List ValueSlot).length _ := .declared hd he
  refine (sat_wireValues_wiring hE hde hb).mono fun _ t ht => ?_
  have hv : Wiring src l values ([] ++ arrays) s (values.length + ([] : List ArraySlot).length) t :=
    ht.1
  exact (sat_wireArrays_wiring hE hv ht.2).mono fun _ u hu => ⟨trivial, hu⟩

def layoutOf (types : TypePool) (key : RecordKey) (name : String) (values : List ValueSlot)
    (arrays : List ArraySlot) : TransferLayout × TypePool :=
  let (ids, types) := types.internArrays arrays
  let fields := values.map ValueSlot.ty ++ ids
  let (record, types) := types.intern (.struct fields true)
  (⟨name, key.src, key.dst, key.objects, record, fields, fields.map (SlotType.ofType types)⟩, types)

theorem run_layOut (key : RecordKey) (name : String) (s : Emission) :
    (src.layOut key name).run s =
      let values := s.ledger.valuesOf s.types key
      let arrays := s.ledger.arraysOf s.types key
      let s' : Emission := { s with ledger := s.ledger.markFixed key }
      if values.isEmpty && arrays.isEmpty then (.ok none, s') else
        let (layout, types) := layoutOf s.types key name values arrays
        (src.wireRecord layout values arrays).run (s'.withTypes types) := by
  show ((if (s.ledger.valuesOf s.types key).isEmpty && (s.ledger.arraysOf s.types key).isEmpty then
    pure none else _ : Act Emission _).run _) = _
  simp only
  split <;> rfl

/-- What a layout says: its fields are the values and then the arrays. -/
structure LaidAs (types : TypePool) (key : RecordKey) (name : String) (values : List ValueSlot)
    (arrays : List ArraySlot) (l : TransferLayout) (types' : TypePool) : Prop where
  name : l.name = name
  key : l.key = key
  grows : types.Extends types'
  fields : ∃ ids, l.fields = values.map ValueSlot.ty ++ ids ∧
    types'.get l.record = .struct l.fields true ∧
    List.Forall₂ (fun slot id => types'.get id = .array slot.elem slot.len) arrays ids

theorem laidAs_layoutOf (types : TypePool) (key : RecordKey) (name : String)
    (values : List ValueSlot) (arrays : List ArraySlot) :
    LaidAs types key name values arrays (layoutOf types key name values arrays).1
      (layoutOf types key name values arrays).2 := by
  obtain ⟨hg, hi⟩ := types.internArrays_spec arrays
  obtain ⟨he, -, hs⟩ := (types.internArrays arrays).2.intern_spec
    (.struct (values.map ValueSlot.ty ++ (types.internArrays arrays).1) true)
  exact ⟨rfl, rfl, hg.trans he, _, rfl, hs, hi.imp fun slot id hid =>
    (he.get id hid.1).trans hid.2⟩

/-- What laying out a record does: one without slots is passed over, another one is wired. -/
inductive LayingOut (src : Source) (key : RecordKey) (name : String) (s : Emission) :
    Option TransferLayout → Emission → Prop
  | empty : s.ledger.valuesOf s.types key = [] → s.ledger.arraysOf s.types key = [] →
      LayingOut src key name s none { s with ledger := s.ledger.markFixed key }
  | wired {l : TransferLayout} {types : TypePool} {t : Emission} :
      ¬(s.ledger.valuesOf s.types key = [] ∧ s.ledger.arraysOf s.types key = []) →
      LaidAs s.types key name (s.ledger.valuesOf s.types key) (s.ledger.arraysOf s.types key) l types →
      Wiring src l (s.ledger.valuesOf s.types key) (s.ledger.arraysOf s.types key)
        { s with ledger := s.ledger.markFixed key, types := types }
        ((s.ledger.valuesOf s.types key).length + (s.ledger.arraysOf s.types key).length) t →
      LayingOut src key name s (some l) t

theorem LayingOut.lays {o : Option TransferLayout} (h : LayingOut src key name s o t) : s.Lays t := by
  cases h with
  | empty _ _ => exact .single (.markFixed s key)
  | wired _ _ hw => exact .head (.markFixed s key) (.head (.types _ _) hw.lays)

theorem sat_layOut (hE : Act.Tolerant E ∨
    (¬(s.ledger.valuesOf s.types key = [] ∧ s.ledger.arraysOf s.types key = []) →
      ∀ l : TransferLayout, l.key = key → Backs src l (s.ledger.valuesOf s.types key)
        (s.ledger.arraysOf s.types key) s)) :
    Act.Sat E (src.layOut key name) s fun o t => LayingOut src key name s o t := by
  unfold Act.Sat
  rw [run_layOut]
  simp only
  by_cases hs : ((s.ledger.valuesOf s.types key).isEmpty &&
      (s.ledger.arraysOf s.types key).isEmpty) = true
  · rw [if_pos hs]
    rw [Bool.and_eq_true, List.isEmpty_iff, List.isEmpty_iff] at hs
    exact .empty hs.1 hs.2
  · rw [if_neg hs]
    rw [Bool.and_eq_true, List.isEmpty_iff, List.isEmpty_iff] at hs
    have hl := laidAs_layoutOf s.types key name (s.ledger.valuesOf s.types key)
      (s.ledger.arraysOf s.types key)
    refine Act.Sat.mono (sat_wireRecord (hE.imp_right fun hb => (hb hs _ hl.key).lays
      (.head (.markFixed s key) (.single (.types _ _))))) ?_
    rintro _ t ⟨rfl, hw⟩
    exact .wired hs hl hw

theorem sat_layOut_layingOut (key : RecordKey) (name : String) (s : Emission) :
    Act.Sat Act.Any (src.layOut key name) s fun o t => LayingOut src key name s o t :=
  sat_layOut (.inl Act.tolerant_any)

theorem sat_layOut_lays (name : String) :
    Act.Sat Act.Any (src.layOut key name) s fun _ t => s.Lays t :=
  (sat_layOut_layingOut key name s).mono fun _ _ ht => ht.lays

theorem sat_layOutAll_lays (records : List (RecordKey × String)) :
    Act.Sat Act.Any (src.layOutAll records) s fun _ t => s.Lays t := by
  unfold layOutAll
  simp only [Act.sat_bind, Act.sat_pure]
  refine (Act.sat_mapM (R := fun _ _ => True) (P := fun t => s.Lays t) .refl
    fun r _ t ht => ?_).mono fun _ _ h => h.1
  exact (sat_layOut_lays r.2).mono fun _ _ h => ⟨ht.trans h, trivial⟩

section Runs

variable {P : List (RecordKey × String) → List TransferLayout → Emission → Prop}
  (hstep : ∀ done layouts s r, P done layouts s → Act.Sat Act.Any (src.layOut r.1 r.2) s
    fun o t => P (done ++ [r]) (layouts ++ o.toList) t)
include hstep

theorem sat_layOutAll_of_step (done : List (RecordKey × String)) {layouts : List TransferLayout}
    (h : P done layouts s) (records : List (RecordKey × String)) :
    Act.Sat Act.Any (src.layOutAll records) s fun layouts' t =>
      P (done ++ records) (layouts ++ layouts') t := by
  unfold layOutAll
  simp only [Act.sat_bind, Act.sat_pure]
  induction records generalizing done layouts s with
  | nil => simpa using h
  | cons r rest ih =>
    simp only [List.mapM_cons, Act.sat_bind, Act.sat_pure]
    refine (hstep done layouts s r h).mono fun o t ht => (ih _ ht).mono fun os u hu => ?_
    cases o <;> simpa using hu

/-- What copying establishes and each record keeps holds of all parts. The records of the table come
first, then those that are left. -/
theorem sat_emitTable_of_step {tree : PostDominators} {table : ScopeTable}
    (hc : Act.Sat Act.Any (src.copyAll tree) s fun _ t => P [] [] t) :
    Act.Sat Act.Any (src.emitTable tree table) s fun layouts t => ∃ named u,
      P table.records named u ∧ P (table.records ++ table.others u) layouts t := by
  unfold emitTable layOutTable
  simp only [Act.sat_bind, Act.sat_get, Act.sat_pure]
  refine hc.mono fun _ s1 hs1 => ?_
  refine (sat_layOutAll_of_step hstep [] hs1 table.records).mono fun named u hu => ?_
  exact (sat_layOutAll_of_step hstep _ hu (table.others u)).mono fun others t ht => ⟨named, u, hu, ht⟩

end Runs

end Source

end Stagewise
