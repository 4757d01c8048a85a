import Stagewise.Proofs.Emission.Sourcing
import Stagewise.Proofs.Semantics.ClosedTypes

namespace Stagewise

variable {α β : Type}

namespace Emission

/-- From states with the types `P`, a computation leaves the types as they are, and with the types `Q`
it comes to the same. -/
def Overlooks (P Q : TypePool) (x : Act Emission α) : Prop :=
  ∀ s, s.types = P → (x.run s).2.types = P ∧
    x.run (s.withTypes Q) = ((x.run s).1, (x.run s).2.withTypes Q)

section Overlooks

variable {P Q : TypePool} {scope : Scope}

theorem overlooks_pure (a : α) : Overlooks P Q (pure a) := fun _ hs => ⟨hs, rfl⟩

theorem overlooks_throw (e : Fault) : Overlooks P Q (throw e : Act Emission α) :=
  fun _ hs => ⟨hs, rfl⟩

variable {f : α → Act Emission β} {xs : List α}

theorem Overlooks.bind {x : Act Emission α} (hx : Overlooks P Q x)
    (hf : ∀ a, Overlooks P Q (f a)) : Overlooks P Q (x >>= f) := by
  intro s hs
  obtain ⟨ht, hru⟩ := hx s hs
  rw [Act.run_bind, Act.run_bind, hru]
  rcases hr : x.run s with ⟨_ | a, t⟩
  · rw [hr] at ht
    exact ⟨ht, rfl⟩
  · rw [hr] at ht
    exact hf a t ht

theorem overlooks_get {f : Emission → Act Emission α} (hf : ∀ s, s.types = P → Overlooks P Q (f s))
    (hsa : ∀ s, s.types = P → f (s.withTypes Q) = f s) : Overlooks P Q (get >>= f) := by
  intro s hs
  obtain ⟨ht, hr⟩ := hf s hs s hs
  refine ⟨ht, ?_⟩
  show (f (s.withTypes Q)).run (s.withTypes Q) = _
  rw [hsa s hs]
  exact hr

theorem overlooks_modify {f : Emission → Emission} (ht : ∀ s, (f s).types = s.types)
    (hsa : ∀ s, f (s.withTypes Q) = (f s).withTypes Q) : Overlooks P Q (modify f) := by
  intro s hs
  refine ⟨(ht s).trans hs, ?_⟩
  show (_, f (s.withTypes Q)) = _
  rw [hsa]
  rfl

theorem overlooks_ofOption {o : Option α}
    (h : ∀ a, o = some a → Overlooks P Q (f a)) : Overlooks P Q (Act.ofOption o >>= f) := by
  cases o with
  | none => exact fun _ hs => ⟨hs, rfl⟩
  | some a => exact h a rfl

theorem overlooks_draft : Overlooks P Q (draft scope) := by
  refine overlooks_get (fun s _ => ?_) fun s _ => rfl
  split
  · exact overlooks_pure _
  · exact overlooks_throw _

theorem overlooks_editDraft {edit : Draft → α × Draft} : Overlooks P Q (editDraft scope edit) :=
  overlooks_draft.bind fun d => show Overlooks P Q (do
      modify fun s => { s with drafts := s.drafts.setIfInBounds scope.val (edit d).2 }
      return (edit d).1) from
    Overlooks.bind (overlooks_modify (fun _ => rfl) fun _ => rfl) fun _ => overlooks_pure _

theorem overlooks_updateDraft {update : Draft → Draft} : Overlooks P Q (updateDraft scope update) :=
  overlooks_editDraft

theorem overlooks_report (p : Problem) : Overlooks P Q (report p) :=
  overlooks_modify (fun _ => rfl) fun _ => rfl

theorem overlooks_emit (ty : TypeId) (op : Operation) : Overlooks P Q (emit scope ty op) :=
  overlooks_editDraft.bind fun _ => overlooks_pure _

theorem overlooks_forM {f : α → Act Emission PUnit} (h : ∀ x, Overlooks P Q (f x)) :
    Overlooks P Q (xs.forM f) := by
  induction xs with
  | nil => exact overlooks_pure _
  | cons x xs ih => exact (h x).bind fun _ => ih

theorem overlooks_mapM (h : ∀ x, Overlooks P Q (f x)) : Overlooks P Q (xs.mapM f) := by
  induction xs with
  | nil => exact overlooks_pure _
  | cons x xs ih =>
    rw [List.mapM_cons]
    exact (h x).bind fun _ => ih.bind fun _ => overlooks_pure _

end Overlooks

end Emission

namespace Source

open Emission

variable {src : Source} {P Q : TypePool} {scope : Scope}

/-- Two pools say the same of the types that copying a function asks about: those of its instructions,
and those along its bindings. -/
structure Agrees (src : Source) (P Q : TypePool) : Prop where
  insts : ∀ inst ∈ src.func.insts, Q.get inst.ty = P.get inst.ty
  arrays : ∀ decl ∈ src.program.globals, ∀ path, (Q.memberPath decl.ty path).bind Q.lengthOf
    = (P.memberPath decl.ty path).bind P.lengthOf

section Copying

theorem overlooks_undef (i : InstId) : Overlooks P Q (src.undef i) :=
  overlooks_ofOption fun _ _ => overlooks_pure _

theorem overlooks_getGlobal (g : GlobalId) : Overlooks P Q (src.getGlobal scope g) := by
  refine overlooks_draft.bind fun d => ?_
  cases d.globals.lookup g with
  | some copy => exact overlooks_pure _
  | none => exact overlooks_ofOption fun _ _ => overlooks_editDraft

theorem overlooks_earlierOwner (addr : Address) : Overlooks P Q (src.earlierOwner scope addr) := by
  unfold earlierOwner
  split
  · exact overlooks_ofOption fun _ _ => overlooks_pure _
  · exact overlooks_pure _

variable (h : src.Agrees P Q)
include h

theorem Agrees.transferValue (owner dst : Scope) (i : InstId) :
    Overlooks P Q (src.transferValue owner dst i) := by
  refine overlooks_draft.bind fun d => ?_
  cases d.reads.lookup i with
  | some value => exact overlooks_pure _
  | none =>
    refine overlooks_ofOption fun inst hi => overlooks_get (fun s _ => ?_) fun s hs => ?_
    · exact overlooks_editDraft.bind fun _ =>
        Overlooks.bind (overlooks_modify (fun _ => rfl) fun _ => rfl) fun _ => overlooks_pure _
    · subst hs
      have hg := h.insts inst (Array.mem_of_getElem? hi)
      have hsp : isSplat Q inst = isSplat s.types inst := by
        simp only [isSplat, TypePool.isVector, hg]
      have he : Q.element inst.ty = s.types.element inst.ty := by
        simp only [TypePool.element, hg]
      have hl : Q.lengthOf inst.ty = s.types.lengthOf inst.ty := by
        simp only [TypePool.lengthOf, hg]
      simp only [withTypes, hsp, he, hl]

theorem Agrees.getValue (v : Value) : Overlooks P Q (src.getValue scope v) := by
  cases v with
  | const c => exact overlooks_pure _
  | global g => exact (overlooks_getGlobal g).bind fun _ => overlooks_pure _
  | inst i =>
    refine overlooks_ofOption fun info _ => ?_
    cases info.usedScope with
    | none => exact (overlooks_report _).bind fun _ => overlooks_undef i
    | some owner =>
      simp only
      split
      · refine overlooks_draft.bind fun d => ?_
        split
        · exact overlooks_pure _
        · exact overlooks_throw _
      · split
        · exact h.transferValue owner scope i
        · exact (overlooks_report _).bind fun _ => overlooks_undef i

theorem Agrees.copyStep (step : Step) : Overlooks P Q (src.copyStep scope step) := by
  cases step with
  | fixed k => exact overlooks_pure _
  | dynamic v => exact (h.getValue v).bind fun _ => overlooks_pure _

theorem Agrees.copyAddress (i : InstId) (addr : Address) :
    Overlooks P Q (src.copyAddress scope i addr) := by
  cases addr with
  | member g path => exact (overlooks_getGlobal g).bind fun _ => overlooks_pure _
  | element g path =>
    exact (overlooks_getGlobal g).bind fun _ =>
      (overlooks_mapM h.copyStep).bind fun _ => overlooks_pure _
  | pending => exact (overlooks_report _).bind fun _ => overlooks_pure _

theorem Agrees.copyKnownPhi (i : InstId) (pred : BlockId) (incoming : List (BlockId × Value)) :
    Overlooks P Q (src.copyKnownPhi scope i pred incoming) := by
  unfold Source.copyKnownPhi
  split
  · exact h.getValue _
  · exact (overlooks_report _).bind fun _ => overlooks_undef i

theorem Agrees.copyIncoming (i : InstId) (incoming : List (BlockId × Value)) :
    Overlooks P Q (src.copyIncoming scope i incoming) := by
  induction incoming with
  | nil => exact overlooks_pure _
  | cons e rest ih =>
    refine overlooks_draft.bind fun d => ?_
    cases d.exits.lookup e.1 with
    | some exit => exact (h.getValue _).bind fun _ => ih.bind fun _ => overlooks_pure _
    | none => exact (overlooks_report _).bind fun _ => ih

theorem Agrees.copyArrayRead (owner : Scope) (i : InstId) (ty : TypeId) (g : GlobalId)
    (path : List Step) : Overlooks P Q (src.copyArrayRead owner scope i ty g path) := by
  have hr : Overlooks P Q (do report (.unsupportedAddress i); src.undef i) :=
    (overlooks_report _).bind fun _ => overlooks_undef i
  unfold Source.copyArrayRead
  split
  · refine overlooks_ofOption fun decl hd => overlooks_get (fun s _ => ?_) fun s hs => ?_
    · simp only
      split
      · exact (h.getValue _).bind fun _ => overlooks_editDraft.bind fun _ =>
          Overlooks.bind (overlooks_modify (fun _ => rfl) fun _ => rfl) fun _ => overlooks_pure _
      · exact hr
    · subst hs
      simp only [withTypes, h.arrays decl (List.mem_of_getElem? hd)]
  · exact hr

theorem Agrees.copyLoad (i : InstId) (ty : TypeId) (addr : Address) :
    Overlooks P Q (src.copyLoad scope i ty addr) := by
  refine (overlooks_earlierOwner addr).bind fun owner => ?_
  split
  · exact (overlooks_getGlobal _).bind fun _ => overlooks_updateDraft.bind fun _ =>
      h.transferValue _ _ i
  · exact h.copyArrayRead _ i ty _ _
  · refine (h.copyAddress i _).bind fun addr => ?_
    cases addr with
    | some addr => exact overlooks_emit _ _
    | none => exact overlooks_undef i

theorem Agrees.copyOperation (pred : Option BlockId) (i : InstId) (inst : Inst) :
    Overlooks P Q (src.copyOperation scope pred i inst) := by
  unfold Source.copyOperation
  split
  · cases pred with
    | some pred => exact (h.copyKnownPhi i pred _).bind fun _ => overlooks_pure _
    | none =>
      exact (h.copyIncoming i _).bind fun _ => (overlooks_emit _ _).bind fun _ => overlooks_pure _
  · exact (h.copyLoad i inst.ty _).bind fun _ => overlooks_pure _
  · refine (h.getValue _).bind fun v => (h.copyAddress i _).bind fun addr => ?_
    cases addr with
    | some addr => exact (overlooks_emit _ _).bind fun _ => overlooks_pure _
    | none => exact overlooks_pure _
  · exact overlooks_ofOption fun _ _ => overlooks_editDraft.bind fun _ =>
      (overlooks_mapM h.getValue).bind fun _ => (overlooks_emit _ _).bind fun _ => overlooks_pure _
  · exact (overlooks_report _).bind fun _ => overlooks_pure _
  · exact (overlooks_mapM h.getValue).bind fun _ =>
      (overlooks_emit _ _).bind fun _ => overlooks_pure _

theorem Agrees.visitInst (ctx : Coverage) (pred : Option BlockId) (i : InstId) :
    Overlooks P Q (src.visitInst ctx pred i) := by
  unfold Source.visitInst
  split
  · split
    · refine overlooks_ofOption fun inst _ => overlooks_updateDraft.bind fun _ =>
        (h.copyOperation pred i inst).bind fun value => ?_
      cases value with
      | some value => exact overlooks_updateDraft
      | none => exact overlooks_pure _
    · exact overlooks_pure _
  · exact overlooks_pure _

section Branches

variable {site : BranchSite} {walkArm : Coverage → BlockId → Act Emission Unit}

theorem Agrees.fanOut {walk : BlockId → Act Emission Unit} (hw : ∀ a, Overlooks P Q (walk a)) :
    Overlooks P Q (src.fanOut site scope walk) := by
  have ha : ∀ (fork : Fork) (arm : Arm) a, Overlooks P Q (copyArm scope fork arm (walk a)) :=
    fun _ _ a => overlooks_updateDraft.bind fun _ => (hw a).bind fun _ => overlooks_updateDraft
  exact (h.getValue _).bind fun _ => overlooks_editDraft.bind fun _ => (ha _ _ _).bind fun _ =>
    (ha _ _ _).bind fun _ => overlooks_updateDraft

theorem Agrees.fanOutAll (hw : ∀ ctx a, Overlooks P Q (walkArm ctx a)) (faithful riders : ScopeSet)
    (scopes : List Scope) : Overlooks P Q (src.fanOutAll site faithful walkArm riders scopes) := by
  induction scopes generalizing riders with
  | nil => exact overlooks_pure _
  | cons scope rest ih => exact (h.fanOut fun a => hw _ a).bind fun _ => ih _

theorem Agrees.copyBranch (hw : ∀ ctx a, Overlooks P Q (walkArm ctx a)) (ctx : Coverage) :
    Overlooks P Q (src.copyBranch ctx site walkArm) := by
  unfold Source.copyBranch
  simp only
  split
  · exact (hw _ _).bind fun _ => hw _ _
  · exact Overlooks.bind (overlooks_modify (fun _ => rfl) fun _ => rfl) fun _ =>
      h.fanOutAll hw _ _ _

end Branches

theorem Agrees.walk (it : Itinerary) (ctx : Coverage) (pred : Option BlockId) :
    Overlooks P Q (it.walk src.func src.copier ctx pred) := by
  have hi : ∀ (block : BlockId) ctx pred,
      Overlooks P Q ((src.func.instsOf block).forM (src.copier.onInst ctx pred)) :=
    fun _ ctx pred => overlooks_forM fun i => h.visitInst ctx pred i
  induction it generalizing ctx pred with
  | lost => exact overlooks_throw _
  | done => exact overlooks_pure _
  | join block =>
    cases pred with
    | none => exact overlooks_pure _
    | some pred => exact overlooks_forM fun _ => overlooks_updateDraft
  | loop block => exact overlooks_report _
  | ret block =>
    exact (hi block ctx pred).bind fun _ => overlooks_forM fun _ => overlooks_updateDraft
  | jump block next ih => exact (hi block ctx pred).bind fun _ => ih ctx (some block)
  | fork site arm rest iharm ihrest =>
    exact (hi site.block ctx pred).bind fun _ =>
      (h.copyBranch (fun ctx a => iharm a ctx (some site.block)) ctx).bind fun _ => ihrest ctx none

theorem Agrees.copyAll (tree : PostDominators) : Overlooks P Q (src.copyAll tree) := by
  refine overlooks_get (fun s _ => ?_) fun s _ => rfl
  rw [show src.func.entry = (Route.mk src.func tree).func.entry from rfl, Route.walk_eq_walk]
  exact h.walk _ _ _

end Copying

end Source

namespace Ledger

variable {l : Ledger} {P p q : TypePool}

structure TypedIn (l : Ledger) (P : TypePool) : Prop where
  values : ∀ slot ∈ l.values, slot.ty < P.size
  arrays : ∀ slot ∈ l.arrays, slot.elem < P.size

variable (h : l.TypedIn P) (hP : P.Closed) (hp : P.Extends p)
include h hP hp

theorem TypedIn.valueKey_eq {slot : ValueSlot} (hs : slot ∈ l.values) :
    valueKey p slot = valueKey P slot := by
  rw [valueKey, valueKey, hP.isObject_eq hp (h.values slot hs)]

theorem TypedIn.arrayKey_eq {slot : ArraySlot} (hs : slot ∈ l.arrays) :
    arrayKey p slot = arrayKey P slot := by
  rw [arrayKey, arrayKey, hP.isObject_eq hp (h.arrays slot hs)]

theorem TypedIn.valuesOf_eq (key : RecordKey) : l.valuesOf p key = l.valuesOf P key :=
  List.filter_congr fun _ hs => by rw [h.valueKey_eq hP hp hs]

theorem TypedIn.arraysOf_eq (key : RecordKey) : l.arraysOf p key = l.arraysOf P key :=
  List.filter_congr fun _ hs => by rw [h.arrayKey_eq hP hp hs]

theorem TypedIn.pending_eq : l.pending p = l.pending P := by
  have hv : l.values.map (valueKey p) = l.values.map (valueKey P) :=
    List.map_congr_left fun _ hs => h.valueKey_eq hP hp hs
  have ha : l.arrays.map (arrayKey p) = l.arrays.map (arrayKey P) :=
    List.map_congr_left fun _ hs => h.arrayKey_eq hP hp hs
  simp only [pending, hv, ha]

theorem TypedIn.slotTypes_eq (hq : p.Extends q) {values : List ValueSlot} {arrays : List ArraySlot}
    (hv : values ⊆ l.values) (ha : arrays ⊆ l.arrays) {ids : List TypeId}
    (hi : List.Forall₂ (fun slot id => id < p.size ∧ p.get id = .array slot.elem slot.len)
      arrays ids) :
    (values.map ValueSlot.ty ++ ids).map (SlotType.ofType q)
      = (values.map ValueSlot.ty ++ ids).map (SlotType.ofType p) := by
  refine List.map_congr_left fun ty hty => ?_
  rcases List.mem_append.mp hty with hty | hty
  · obtain ⟨slot, hs, rfl⟩ := List.mem_map.mp hty
    have hlt := h.values slot (hv hs)
    rw [hP.slotType_eq (hp.trans hq) hlt, hP.slotType_eq hp hlt]
  · obtain ⟨slot, hs, hlt, hg⟩ : ∃ slot ∈ arrays, ty < p.size ∧
        p.get ty = .array slot.elem slot.len := by
      obtain ⟨k, hk, rfl⟩ := List.mem_iff_getElem.mp hty
      have hk' : k < arrays.length := hi.length_eq ▸ hk
      exact ⟨arrays[k], List.getElem_mem hk', hi.get hk' hk⟩
    have he := h.arrays slot (ha hs)
    rw [hP.slotType_array (hp.trans hq) ((hq.get ty hlt).trans hg) he,
      hP.slotType_array hp hg he]

end Ledger

namespace Emission

variable {s : Emission} {P : TypePool}

/-- A computation adds types, and comes to the same from the pool that it leaves behind or one that
this has grown into; it adds nothing then. -/
def Repeats (x : Act Emission α) (s : Emission) : Prop :=
  s.types.Extends (x.run s).2.types ∧ ∀ Q, (x.run s).2.types.Extends Q →
    x.run (s.withTypes Q) = ((x.run s).1, (x.run s).2.withTypes Q)

theorem repeats_pure (a : α) : Repeats (pure a) s := ⟨.refl _, fun _ _ => rfl⟩

theorem repeats_get {f : Emission → Act Emission α} (hf : Repeats (f s) s)
    (hs : ∀ Q, s.types.Extends Q → f (s.withTypes Q) = f s) : Repeats (get >>= f) s := by
  refine ⟨hf.1, fun Q hQ => ?_⟩
  show (f (s.withTypes Q)).run (s.withTypes Q) = _
  rw [hs Q (hf.1.trans hQ)]
  exact hf.2 Q hQ

variable {x : Act Emission α} {Q : TypePool}

theorem repeats_of_overlooks
    (h : ∀ Q, s.types.Extends Q → Overlooks s.types Q x) : Repeats x s := by
  have ht := (h s.types (.refl _) s rfl).1
  refine ⟨ht ▸ .refl _, fun Q hQ => (h Q (ht ▸ hQ) s rfl).2⟩

theorem Repeats.bind {f : α → Act Emission β} (hx : Repeats x s)
    (hf : ∀ a t, x.run s = (.ok a, t) → Repeats (f a) t) : Repeats (x >>= f) s := by
  obtain ⟨he, hru⟩ := hx
  unfold Repeats
  rw [Act.run_bind]
  rcases hr : x.run s with ⟨_ | a, t⟩
  · rw [hr] at he hru
    refine ⟨he, fun Q hQ => ?_⟩
    rw [Act.run_bind, hru Q hQ]
  · rw [hr] at he hru
    obtain ⟨he', hr'⟩ := hf a t hr
    refine ⟨he.trans he', fun Q hQ => ?_⟩
    rw [Act.run_bind, hru Q (he'.trans hQ)]
    exact hr' Q hQ

/-- What laying out starts from: the slots are of types that were there at first. -/
structure Ready (s : Emission) (P : TypePool) : Prop where
  slots : s.ledger.TypedIn P
  types : P.Extends s.types

theorem Ready.pending_eq (hs : s.Ready P) (hP : P.Closed) (hQ : s.types.Extends Q) :
    s.ledger.pending Q = s.ledger.pending s.types :=
  (hs.slots.pending_eq hP (hs.types.trans hQ)).trans (hs.slots.pending_eq hP hs.types).symm

theorem Ready.valuesOf_eq (hs : s.Ready P) (hP : P.Closed) (hQ : s.types.Extends Q)
    (key : RecordKey) : s.ledger.valuesOf Q key = s.ledger.valuesOf s.types key :=
  (hs.slots.valuesOf_eq hP (hs.types.trans hQ) key).trans
    (hs.slots.valuesOf_eq hP hs.types key).symm

theorem Ready.arraysOf_eq (hs : s.Ready P) (hP : P.Closed) (hQ : s.types.Extends Q)
    (key : RecordKey) : s.ledger.arraysOf Q key = s.ledger.arraysOf s.types key :=
  (hs.slots.arraysOf_eq hP (hs.types.trans hQ) key).trans
    (hs.slots.arraysOf_eq hP hs.types key).symm

theorem Ready.lays {a : α} {t : Emission} (hs : s.Ready P)
    (hx : Repeats x s) (hr : x.run s = (.ok a, t)) (hl : s.Lays t) : t.Ready P := by
  obtain ⟨hv, ha⟩ := hl.slots
  have he : s.types.Extends t.types := by simpa only [hr] using hx.1
  exact ⟨⟨hv ▸ hs.slots.values, ha ▸ hs.slots.arrays⟩, hs.types.trans he⟩

theorem repeats_mapM {xs : List α} {f : α → Act Emission β} (hs : s.Ready P)
    (hr : ∀ x s, s.Ready P → Repeats (f x) s)
    (hl : ∀ x s, Act.Sat Act.Any (f x) s fun _ t => s.Lays t) : Repeats (xs.mapM f) s := by
  induction xs generalizing s with
  | nil => exact repeats_pure _
  | cons x xs ih =>
    rw [List.mapM_cons]
    have hx := hr x s hs
    refine hx.bind fun b t ht => ?_
    have ht : t.Ready P := hs.lays hx ht ((hl x s).of_run ht)
    exact (ih ht).bind fun _ _ _ => repeats_pure _

end Emission

namespace Source

open Emission

variable {src : Source} {P Q : TypePool} {s : Emission} {key : RecordKey} {stored loaded : GlobalId}

section Records

theorem overlooks_wireValues {field : Nat} {slots : List ValueSlot} :
    Overlooks P Q (wireValues key stored loaded field slots) := by
  induction slots generalizing field with
  | nil => exact overlooks_pure _
  | cons slot rest ih =>
    have hs : Overlooks P Q (storeValue key stored field slot) := by
      refine overlooks_draft.bind fun d => ?_
      cases d.copies.lookup slot.source with
      | some v => exact overlooks_updateDraft
      | none => exact overlooks_throw _
    exact hs.bind fun _ => overlooks_updateDraft.bind fun _ => ih

theorem overlooks_wireArrays {field : Nat} {slots : List ArraySlot} :
    Overlooks P Q (src.wireArrays key stored loaded field slots) := by
  induction slots generalizing field with
  | nil => exact overlooks_pure _
  | cons slot rest ih =>
    exact (overlooks_getGlobal _).bind fun _ => overlooks_updateDraft.bind fun _ =>
      overlooks_updateDraft.bind fun _ => ih

theorem overlooks_wireRecord (P Q : TypePool) (src : Source) (layout : TransferLayout)
    (values : List ValueSlot) (arrays : List ArraySlot) :
    Overlooks P Q (src.wireRecord layout values arrays) :=
  overlooks_editDraft.bind fun _ => overlooks_editDraft.bind fun _ =>
    overlooks_wireValues.bind fun _ => overlooks_wireArrays.bind fun _ => overlooks_pure _

variable {types : TypePool} {values : List ValueSlot} {arrays : List ArraySlot}

theorem layoutOf_extends (types : TypePool) (key : RecordKey) (name : String)
    (values : List ValueSlot) (arrays : List ArraySlot) :
    types.Extends (layoutOf types key name values arrays).2 :=
  (types.internArrays_spec arrays).1.trans (TypePool.intern_spec _ _).1

theorem layoutOf_again (key : RecordKey) (name : String) {l : Ledger} (hl : l.TypedIn P)
    (hP : P.Closed) (ht : P.Extends types) (hv : values ⊆ l.values)
    (ha : arrays ⊆ l.arrays) (Q : TypePool)
    (h : (layoutOf types key name values arrays).2.Extends Q) :
    layoutOf Q key name values arrays = ((layoutOf types key name values arrays).1, Q) := by
  obtain ⟨hg, hi⟩ := types.internArrays_spec arrays
  have he := (types.internArrays arrays).2.intern_spec
    (.struct (values.map ValueSlot.ty ++ (types.internArrays arrays).1) true)
  have hag : Q.internArrays arrays = ((types.internArrays arrays).1, Q) :=
    TypePool.internArrays_of_extends (he.1.trans h)
  have hr := TypePool.intern_of_extends h
  have hs := hl.slotTypes_eq hP ((ht.trans hg).trans he.1) h hv ha
    (hi.imp fun slot id hid => ⟨Nat.lt_of_lt_of_le hid.1 he.1.size_le,
      (he.1.get id hid.1).trans hid.2⟩)
  simp only [layoutOf, hag, hr, hs]

variable (hP : P.Closed)
include hP

/-- Laying out a record again finds the types that the first time added, and adds none. -/
theorem repeats_layOut (hs : s.Ready P) (key : RecordKey) (name : String) :
    Repeats (src.layOut key name) s := by
  unfold Repeats
  rw [run_layOut]
  simp only
  split
  · next he =>
    refine ⟨.refl _, fun Q hQ => ?_⟩
    rw [run_layOut]
    simp only [withTypes, hs.valuesOf_eq hP hQ, hs.arraysOf_eq hP hQ, he, if_true]
  · next hsl =>
    have hg := layoutOf_extends s.types key name (s.ledger.valuesOf s.types key)
      (s.ledger.arraysOf s.types key)
    have hsu : s.ledger.valuesOf s.types key ⊆ s.ledger.values := List.filter_subset_self _
    have hs' : s.ledger.arraysOf s.types key ⊆ s.ledger.arrays := List.filter_subset_self _
    have hag := layoutOf_again key name hs.slots hP hs.types hsu hs'
    generalize layoutOf s.types key name (s.ledger.valuesOf s.types key)
      (s.ledger.arraysOf s.types key) = r at hg hag ⊢
    obtain ⟨layout, types⟩ := r
    have hw := fun Q => overlooks_wireRecord types Q src layout (s.ledger.valuesOf s.types key)
      (s.ledger.arraysOf s.types key)
      ({ s with ledger := s.ledger.markFixed key }.withTypes types) rfl
    refine ⟨(hw types).1.symm ▸ hg, fun Q hQ => ?_⟩
    rw [(hw Q).1] at hQ
    have hv := hs.valuesOf_eq hP (hg.trans hQ) key
    have ha := hs.arraysOf_eq hP (hg.trans hQ) key
    have hsl : ¬ ((s.ledger.valuesOf Q key).isEmpty && (s.ledger.arraysOf Q key).isEmpty) = true := by
      rwa [hv, ha]
    rw [run_layOut]
    refine (if_neg hsl).trans ?_
    simp only [withTypes, hv, ha, hag Q hQ]
    exact (hw Q).2

theorem repeats_layOutAll (hs : s.Ready P) (records : List (RecordKey × String)) :
    Repeats (src.layOutAll records) s := by
  refine Repeats.bind (repeats_mapM hs ?_ ?_) fun _ _ _ => repeats_pure _
  · exact fun r _ hs => repeats_layOut hP hs r.1 r.2
  · exact fun r _ => sat_layOut_lays r.2

end Records

end Source

structure Program.TypedIn (p : Program) (types : TypePool) : Prop where
  pool : types.Closed
  globals : ∀ decl ∈ p.globals, decl.ty < types.size
  insts : ∀ f ∈ p.functions, ∀ inst ∈ f.insts, inst.ty < types.size

namespace Source

open Emission

variable {src : Source} {P Q : TypePool} (hP : src.program.TypedIn P)
  (hfunc : src.func ∈ src.program.functions)
include hP hfunc

theorem agrees_of_extends (hQ : P.Extends Q) : src.Agrees P Q := by
  refine ⟨fun inst hi => hQ.get _ (hP.insts _ hfunc inst hi), fun decl hd path => ?_⟩
  obtain ⟨hp, hlt⟩ := hP.pool.memberPath hQ (hP.globals decl hd) path
  rw [hp]
  cases hty : P.memberPath decl.ty path with
  | none => rfl
  | some ty => simp only [Option.bind_some, TypePool.lengthOf, hQ.get ty (hlt ty hty)]

theorem sat_copyAll_ready (tree : PostDominators) (scopes : List String) :
    Act.Sat Act.Any (src.copyAll tree) (start src P scopes) fun _ t => t.Ready P := by
  rw [Act.sat_any_iff]
  intro _ t ht
  have hty : t.types = P := by
    have h := (((agrees_of_extends hP hfunc (.refl P)).copyAll tree) (start src P scopes) rfl).1
    rwa [ht] at h
  have hc := (sat_copyAll_copying tree (start src P scopes)).of_run ht
  have hp := hc.posted (posted_start src P scopes)
  have ha := hc.accounted (posted_start src P scopes) (accounted_start src P scopes)
  refine ⟨⟨fun slot hs => ?_, fun slot hs => ?_⟩, hty ▸ .refl P⟩
  · obtain ⟨-, -, d, inst, -, hi, haw⟩ := hp.slots slot hs
    have hlt := hP.insts _ hfunc inst (Array.mem_of_getElem? hi)
    rw [haw.ty, hty, fieldType]
    split
    · cases he : P.element inst.ty with
      | none => exact hlt
      | some elem => exact hP.pool.element_lt he
    · exact hlt
  · obtain ⟨inst, hi, he⟩ := (ha.spans slot hs).elem
    exact he ▸ hP.insts _ hfunc inst hi

section Tables

omit hfunc

variable {s t : Emission} {table : ScopeTable}

theorem ready_named (hs : s.Ready P) {named : List TransferLayout}
    (ht : (src.layOutAll table.records).run s = (.ok named, t)) : t.Ready P :=
  hs.lays (repeats_layOutAll hP.pool hs _) ht ((sat_layOutAll_lays _).of_run ht)

theorem others_eq (hs : s.Ready P) (hQ : s.types.Extends Q) :
    table.others (s.withTypes Q) = table.others s := by
  simp only [ScopeTable.others, withTypes, hs.pending_eq hP.pool hQ]

theorem repeats_others (hs : s.Ready P) (named : List TransferLayout) : Repeats (do
    let others ← src.layOutAll (table.others (← get))
    return named ++ others) s := by
  refine repeats_get ?_ fun Q hQ => by simp only [others_eq hP hs hQ]
  exact (repeats_layOutAll hP.pool hs _).bind fun _ _ _ => repeats_pure _

theorem repeats_layOutTable (hs : s.Ready P) : Repeats (src.layOutTable table) s :=
  (repeats_layOutAll hP.pool hs _).bind fun named _ ht => repeats_others hP (ready_named hP hs ht) named

end Tables

theorem repeats_copyAll (tree : PostDominators) (scopes : List String) :
    Repeats (src.copyAll tree) (start src P scopes) :=
  repeats_of_overlooks fun _ hQ => (agrees_of_extends hP hfunc hQ).copyAll tree

theorem repeats_emitTable (tree : PostDominators) (table : ScopeTable) (scopes : List String) :
    Repeats (src.emitTable tree table) (start src P scopes) :=
  (repeats_copyAll hP hfunc tree scopes).bind fun _ _ hs =>
    repeats_layOutTable hP ((sat_copyAll_ready hP hfunc tree scopes).of_run hs)

end Source

end Stagewise
