import Stagewise.Proofs.Emission.Laying
import Stagewise.Proofs.Emission.Slots
import Stagewise.Proofs.Semantics.Rendering

namespace Stagewise

theorem Program.nodup_getOrAddGlobal {p : Program} (h : (p.globals.map GlobalDecl.name).Nodup)
    (decl : GlobalDecl) : ((p.getOrAddGlobal decl).2.globals.map GlobalDecl.name).Nodup := by
  unfold Program.getOrAddGlobal
  split
  · exact h
  · next hn =>
    have hne : decl.name ∉ p.globals.map GlobalDecl.name := by
      intro hm
      obtain ⟨x, hx, hna⟩ := List.mem_map.mp hm
      exact beq_eq_false_iff_ne.mp (List.findIdx?_eq_none_iff.mp hn x hx) hna
    rw [Program.addGlobal, List.map_append, List.map_singleton]
    exact List.nodup_append.mpr ⟨h, List.nodup_singleton _, fun a ha b hb hab =>
      hne (List.mem_singleton.mp hb ▸ hab ▸ ha)⟩

def Draft.Mirrors (src : Source) (d : Draft) (g : GlobalId) : Prop :=
  ∃ decl, d.program.globals[g]? = some decl ∧ ∃ decl' ∈ src.program.globals, decl'.name = decl.name

def Value.Sourced (src : Source) (d : Draft) (v : Value) : Prop :=
  ∀ g, v = .global g → d.Mirrors src g

namespace Draft

variable {src : Source} {d d' : Draft}

/-- Whatever a part computes with names only bindings of the source program, and no two of its
bindings have one name. -/
structure Sourced (src : Source) (d : Draft) : Prop where
  copies : ∀ x ∈ d.copies, x.2.Sourced src d
  reads : ∀ x ∈ d.reads, x.2.Sourced src d
  operands : ∀ (e : InstId) (inst : Inst), d.builder.func.insts[e]? = some inst →
    ∀ v ∈ inst.op.operands, v.Sourced src d
  conds : ∀ b v, d.builder.func.cond? b = some v → v.Sourced src d
  distinct : (d.program.globals.map GlobalDecl.name).Nodup

theorem Mirrors.of_grown {g : GlobalId} (h : d.Mirrors src g)
    (hb : d.program.globals <+: d'.program.globals) : d'.Mirrors src g := by
  obtain ⟨decl, hd, hn⟩ := h
  exact ⟨decl, getElem?_extend hb hd, hn⟩

end Draft

namespace Value.Sourced

variable {src : Source} {d d' : Draft} {v : Value}

theorem of_grown (h : v.Sourced src d) (hb : d.program.globals <+: d'.program.globals) :
    v.Sourced src d' := fun g hg => (h g hg).of_grown hb

theorem of_inst {j : InstId} : (Value.inst j).Sourced src d := fun g hg => by cases hg

theorem of_const {c : Constant} : (Value.const c).Sourced src d := fun g hg => by cases hg

end Value.Sourced

namespace Draft

variable {src : Source} {d d' : Draft}

theorem sourced_empty (src : Source) (scope : Scope) (program func : String) :
    (Draft.empty scope program func).Sourced src := by
  refine ⟨by simp [empty], by simp [empty], by simp [empty, Builder.empty, Function.empty], ?_,
    .nil⟩
  intro b v hv
  have hn : (Draft.empty scope program func).builder.func.terminator? b = none := by
    cases b <;> rfl
  simp [Function.cond?, hn] at hv

section

variable (h : d.Sourced src)
include h

theorem Sourced.of_builder_eq (hb : d'.builder = d.builder)
    (hbe : d.program.globals <+: d'.program.globals) (hc : d'.copies = d.copies)
    (hr : d'.reads = d.reads) (hd : (d'.program.globals.map GlobalDecl.name).Nodup) :
    d'.Sourced src := by
  refine ⟨fun x hx => ?_, fun x hx => ?_, fun e inst he v hv => ?_, fun b v hv => ?_, hd⟩
  · exact (h.copies x (hc ▸ hx)).of_grown hbe
  · exact (h.reads x (hr ▸ hx)).of_grown hbe
  · exact (h.operands e inst (hb ▸ he) v hv).of_grown hbe
  · exact (h.conds b v (hb ▸ hv)).of_grown hbe

theorem Sourced.of_sameCode (hs : d.SameCode d')
    (hc : ∀ b v, d'.builder.func.cond? b = some v →
      d.builder.func.cond? b = some v ∨ v.Sourced src d) : d'.Sourced src := by
  have hb : d.program.globals <+: d'.program.globals := hs.program ▸ List.prefix_rfl
  refine ⟨fun x hx => ?_, fun x hx => ?_, fun e inst he v hv => ?_, fun b v hv => ?_,
    hs.program ▸ h.distinct⟩
  · exact (h.copies x (hs.copies ▸ hx)).of_grown hb
  · exact (h.reads x (hs.reads ▸ hx)).of_grown hb
  · exact (h.operands e inst (hs.insts ▸ he) v hv).of_grown hb
  · rcases hc b v hv with ho | hn
    · exact (h.conds b v ho).of_grown hb
    · exact hn.of_grown hb

theorem Sourced.insertAt (block : BlockId) (pos : Nat) (ty : TypeId) {op : Operation}
    (hop : ∀ v ∈ op.operands, v.Sourced src d) : Sourced src { d with builder := { d.builder with
      func := (d.builder.func.insertAt block pos ty op).2 } } := by
  refine ⟨h.copies, h.reads, fun e inst he v hv => ?_, fun b v hv => ?_, h.distinct⟩
  · rcases Function.insertAt_getElem?_cases he with ho | ⟨-, rfl⟩
    · exact h.operands e inst ho v hv
    · exact hop v hv
  · refine h.conds b v ?_
    simpa only [Function.cond?, Function.insertAt_terminator?] using hv

theorem Sourced.append (block : BlockId) (ty : TypeId) {op : Operation}
    (hop : ∀ v ∈ op.operands, v.Sourced src d) : (d.append block ty op).2.Sourced src :=
  h.insertAt block _ ty hop

theorem Sourced.addCopy {i : InstId} {v : Value} (hv : v.Sourced src d) :
    (d.addCopy i v).Sourced src := by
  refine ⟨fun x hx => ?_, h.reads, h.operands, h.conds, h.distinct⟩
  rcases List.mem_cons.mp hx with rfl | hx
  · exact hv
  · exact h.copies x hx

theorem Sourced.openRead (i : InstId) (ty fieldTy : TypeId) (lanes : Option Nat) :
    (d.openRead i ty fieldTy lanes).2.Sourced src := by
  have hl : (d.append d.entry fieldTy (.load .pending)).2.Sourced src :=
    h.append _ _ fun v hv => by cases hv
  have hr : ∀ {d : Draft} {j : InstId}, d.Sourced src →
      Sourced src { d with reads := (i, .inst j) :: d.reads } := by
    intro d j h
    refine ⟨h.copies, fun x hx => ?_, h.operands, h.conds, h.distinct⟩
    rcases List.mem_cons.mp hx with rfl | hx
    · exact .of_inst
    · exact h.reads x hx
  cases lanes with
  | none => exact hr hl
  | some n =>
    refine hr ((hl.append _ _ fun v hv => ?_).append _ _ fun v hv => ?_)
    · rintro g rfl
      simp [Operation.operands] at hv
    · rintro g rfl
      simp [Operation.operands] at hv

end

section Conditions

variable {b : BlockId} {v : Value}

variable {builder : Builder} {site : BranchSite}

theorem cond?_terminate {t : Terminator}
    (h : (builder.terminate t).func.cond? b = some v) :
    builder.func.cond? b = some v ∨ t.cond? = some v := by
  have h : (builder.func.setTerminator builder.current t).cond? b = some v := h
  simp only [Function.cond?] at h ⊢
  by_cases hb : b = builder.current
  · subst hb
    by_cases hlt : builder.current < builder.func.numBlocks
    · rw [Function.setTerminator_terminator? _ hlt] at h
      exact .inr h
    · rw [Function.terminator?_eq_none (by simpa using hlt)] at h
      cases h
  · rw [Function.setTerminator_terminator?_ne _ hb] at h
    exact .inl h

theorem cond?_terminateIfOpen {t : Terminator} (ht : t.cond? = none)
    (h : (builder.terminateIfOpen t).func.cond? b = some v) : builder.func.cond? b = some v := by
  unfold Builder.terminateIfOpen at h
  split at h
  · exact h
  · exact (cond?_terminate h).resolve_right (by simp [ht])

theorem cond?_newBlock (h : builder.newBlock.2.func.cond? b = some v) :
    builder.func.cond? b = some v := by
  have h : builder.func.addBlock.2.cond? b = some v := h
  simpa only [Function.cond?, Function.addBlock_terminator?] using h

theorem Takes.cond? {forks after : List Fork} {m : Move} (h : d.Takes forks m d' after)
    (hv : d'.builder.func.cond? b = some v) : d.builder.func.cond? b = some v := by
  cases h with
  | exit _ _ | enter _ _ _ => exact hv
  | ret _ => exact cond?_terminateIfOpen rfl hv
  | leave _ _ =>
    unfold Draft.leaveArm at hv
    split at hv
    · split at hv
      · exact hv
      · exact cond?_terminateIfOpen rfl hv
    · exact hv
  | close _ _ =>
    unfold Draft.closeFork at hv
    split at hv <;> exact hv

theorem cond?_joinBlock {join : BlockId}
    (hv : (d.joinBlock join).2.builder.func.cond? b = some v) :
    d.builder.func.cond? b = some v := by
  unfold joinBlock at hv
  split at hv
  · exact hv
  · exact cond?_newBlock hv

theorem cond?_armBlock {join : Option BlockId} {arm : BlockId}
    (hv : (d.armBlock site join arm).2.builder.func.cond? b = some v) :
    d.builder.func.cond? b = some v := by
  unfold armBlock at hv
  split at hv
  · split at hv
    · exact hv
    · exact cond?_newBlock hv
  · exact cond?_newBlock hv

theorem cond?_openFork {cond : Value}
    (hv : (d.openFork site cond).2.builder.func.cond? b = some v) :
    d.builder.func.cond? b = some v ∨ v = cond := by
  have ha : ∀ {d : Draft} {join : Option BlockId} {t : Terminator}, t.cond? = some cond →
      (((d.armBlock site join site.ifTrue).2.armBlock site join site.ifFalse).2.builder.terminate
        t).func.cond? b = some v → d.builder.func.cond? b = some v ∨ v = cond := by
    intro d join t ht hv
    rcases cond?_terminate hv with ho | hn
    · exact .inl (cond?_armBlock (cond?_armBlock ho))
    · exact .inr (Option.mem_unique hn ht)
  unfold openFork at hv
  cases hj : site.join with
  | none =>
    simp only [hj] at hv
    exact ha rfl hv
  | some join =>
    simp only [hj] at hv
    exact (ha rfl hv).imp_left cond?_joinBlock

end Conditions

end Draft

/-- A slot is for all elements of a binding that is loaded in an earlier scope. -/
structure Source.Spans (src : Source) (types : TypePool) (slot : ArraySlot) : Prop where
  owned : src.table.globalScope slot.global = some slot.src
  elem : ∃ inst ∈ src.func.insts, slot.elem = inst.ty
  len : ∀ path, path.map Step.fixed? = slot.path →
    src.slotLength types slot.global path = some slot.len

namespace Draft

variable {src : Source} {x : Scope} {d d' : Draft} {v r : Value}

/-- What an operand of the source was resolved to in the part of a scope. -/
inductive Resolves (src : Source) (x : Scope) (d : Draft) : Value → Value → Prop
  | const (c : Constant) : Resolves src x d (.const c) (.const c)
  | global {g copy : GlobalId} : (g, copy) ∈ d.globals → Resolves src x d (.global g) (.global copy)
  | copy {i : InstId} {v : Value} : src.table.instScope i = some x → (i, v) ∈ d.copies →
      Resolves src x d (.inst i) v
  | read {i : InstId} {v : Value} {owner : Scope} : src.table.instScope i = some owner →
      owner < x → (i, v) ∈ d.reads → Resolves src x d (.inst i) v
  | undefined {i : InstId} {inst : Inst} : src.func.insts[i]? = some inst →
      (∀ owner, src.table.instScope i = some owner → x < owner) →
      Resolves src x d (.inst i) (.const (.undef inst.ty))

/-- An instruction of a part reads the element of a slot that a load of the source reads. -/
def Fetches (src : Source) (slot : ArraySlot) (r : InstId × Value) (d : Draft) : Prop :=
  ∃ i inst path index, src.func.insts[i]? = some inst ∧ inst.op = .load (.element slot.global path) ∧
    path.map Step.fixed? = slot.path ∧ path.filterMap Step.dynamic? = [index] ∧
    (i, .inst r.1) ∈ d.copies ∧ d.Resolves src slot.dst index r.2

structure Retains (d d' : Draft) : Prop where
  copies : d.copies ⊆ d'.copies
  reads : d.reads ⊆ d'.reads
  globals : d.globals ⊆ d'.globals

theorem retains_addCopy (d : Draft) (builder : Builder) (i : InstId) (v : Value) :
    d.Retains ({ d with builder := builder }.addCopy i v) :=
  ⟨List.subset_cons_self _ _, List.Subset.refl _, List.Subset.refl _⟩

theorem retains_openElement (d : Draft) (i : InstId) (ty : TypeId) :
    d.Retains (d.openElement i ty) :=
  retains_addCopy ..

theorem retains_openRead (d : Draft) (i : InstId) (ty fieldTy : TypeId) (lanes : Option Nat) :
    d.Retains (d.openRead i ty fieldTy lanes).2 := by
  cases lanes <;> exact ⟨List.Subset.refl _, List.subset_cons_self _ _, List.Subset.refl _⟩

theorem Resolves.retains (h : d.Resolves src x v r) (hd : d.Retains d') :
    d'.Resolves src x v r := by
  cases h with
  | const c => exact .const c
  | global hg => exact .global (hd.globals hg)
  | copy hs hv => exact .copy hs (hd.copies hv)
  | read hs hlt hv => exact .read hs hlt (hd.reads hv)
  | undefined hi hn => exact .undefined hi hn

theorem Resolves.sourced (h : d.Resolves src x v r) (hc : d.Closed src)
    (hs : d.Sourced src) : r.Sourced src d := by
  cases h with
  | const _ | undefined _ _ => exact .of_const
  | global hg =>
    rintro g' ⟨⟩
    have hb := List.getElem?_eq_getElem (hc.globals _ hg)
    exact ⟨_, hb, hc.bindings _ (List.mem_of_getElem? hb)⟩
  | copy _ hv => exact hs.copies _ hv
  | read _ _ hv => exact hs.reads _ hv

theorem Fetches.retains {slot : ArraySlot} {r : InstId × Value} (h : d.Fetches src slot r)
    (hd : d.Retains d') : d'.Fetches src slot r := by
  obtain ⟨i, inst, path, index, hin, hop, hp, hi, hc, hr⟩ := h
  exact ⟨i, inst, path, index, hin, hop, hp, hi, hd.copies hc, hr.retains hd⟩

theorem Fetches.of_path {slot slot' : ArraySlot} {r : InstId × Value} (h : d.Fetches src slot r)
    (hd : slot'.dst = slot.dst) (hg : slot'.global = slot.global)
    (hp : slot'.path = slot.path) : d.Fetches src slot' r := by
  unfold Fetches
  rw [hd, hg, hp]
  exact h

end Draft

theorem Emission.Denotes.resolves {src : Source} {s : Emission} {x : Scope} {d : Draft} {v r : Value}
    (h : Denotes src s x v r) (hd : s.drafts[x.val]? = some d) : d.Resolves src x v r := by
  cases h with
  | const c => exact .const c
  | global hd' hg => exact .global (Option.mem_unique hd hd' ▸ mem_of_lookup hg)
  | copy hs hd' hv => exact .copy hs (Option.mem_unique hd hd' ▸ mem_of_lookup hv)
  | read hs hlt hd' hv => exact .read hs hlt (Option.mem_unique hd hd' ▸ mem_of_lookup hv)
  | undefined hn hi _ => exact .undefined hi fun _ h => by simp [hn] at h
  | backward hs hlt hi _ =>
    exact .undefined hi fun _ h => Option.mem_unique hs h ▸ hlt

namespace Ledger

theorem mem_reads_of_mergeArray {slot x : ArraySlot} {l : List ArraySlot} (hx : x ∈ slot :: l)
    {r : InstId × Value} (hr : r ∈ x.reads) :
    ∃ y ∈ mergeArray slot l, y.dst = x.dst ∧ r ∈ y.reads := by
  induction l with
  | nil => exact ⟨x, hx, rfl, hr⟩
  | cons z l ih =>
    unfold mergeArray
    split
    · next hs =>
      rcases List.mem_cons.mp hx with rfl | hx
      · exact ⟨_, List.mem_cons_self, hs.2.1, List.mem_append_right _ hr⟩
      · rcases List.mem_cons.mp hx with rfl | hx
        · exact ⟨_, List.mem_cons_self, rfl, List.mem_append_left _ hr⟩
        · exact ⟨x, List.mem_cons_of_mem _ hx, rfl, hr⟩
    · rcases List.mem_cons.mp hx with rfl | hx
      · obtain ⟨y, hy, hre⟩ := ih List.mem_cons_self
        exact ⟨y, List.mem_cons_of_mem _ hy, hre⟩
      · rcases List.mem_cons.mp hx with rfl | hx
        · exact ⟨x, List.mem_cons_self, rfl, hr⟩
        · obtain ⟨y, hy, hre⟩ := ih (List.mem_cons_of_mem _ hx)
          exact ⟨y, List.mem_cons_of_mem _ hy, hre⟩

def Apart (a b : ArraySlot) : Prop :=
  (a.dst = b.dst → ∀ r ∈ a.reads, ∀ r' ∈ b.reads, r.1 ≠ r'.1) ∧
    ¬(a.src = b.src ∧ a.dst = b.dst ∧ a.global = b.global ∧ a.path = b.path)

theorem pairwise_mergeArray {slot : ArraySlot} {l : List ArraySlot} (h : l.Pairwise Apart)
    (hsl : ∀ x ∈ l, x.dst = slot.dst → ∀ r ∈ x.reads, ∀ r' ∈ slot.reads, r.1 ≠ r'.1) :
    (mergeArray slot l).Pairwise Apart := by
  induction l with
  | nil => exact List.pairwise_singleton ..
  | cons x rest ih =>
    obtain ⟨hx, hre⟩ := List.pairwise_cons.mp h
    have hn := fun y hy => hsl y (List.mem_cons_of_mem x hy)
    unfold mergeArray
    split
    · next hs =>
      refine List.pairwise_cons.mpr ⟨fun y hy => ⟨fun hds r hr r' hr' => ?_, (hx y hy).2⟩, hre⟩
      rcases List.mem_append.mp hr with hr | hr
      · exact (hx y hy).1 hds r hr r' hr'
      · exact (hn y hy (hds.symm.trans hs.2.1) r' hr' r hr).symm
    · next hd =>
      refine List.pairwise_cons.mpr ⟨fun y hy => ⟨fun hds r hr r' hr' => ?_, ?_⟩, ih hre hn⟩
      · rcases mem_reads_mergeArray hy hr' with ⟨z, hz, hzd, hr'⟩ | ⟨hyd, hr'⟩
        · exact (hx z hz).1 (hds.trans hzd.symm) r hr r' hr'
        · exact hsl x List.mem_cons_self (hds.trans hyd.symm) r hr r' hr'
      · obtain ⟨z, hz, hs⟩ := mem_mergeArray hy
        rw [hs]
        rcases List.mem_cons.mp hz with rfl | hz
        · exact hd
        · exact (hx z hz).2

end Ledger

namespace Emission

variable {src : Source} {s t : Emission} {scope : Scope} {d d' : Draft}

def Expects (s : Emission) (n : Nat) (e : InstId) : Prop :=
  (∃ slot ∈ s.ledger.values, slot.dst.val = n ∧ slot.read = e) ∨
    ∃ slot ∈ s.ledger.arrays, slot.dst.val = n ∧ ∃ r ∈ slot.reads, r.1 = e

structure Accounted (src : Source) (s : Emission) : Prop where
  sourced : ∀ (n : Nat) (d : Draft), s.drafts[n]? = some d → d.Sourced src
  expected : ∀ (n : Nat) (d : Draft) (e : InstId) (inst : Inst), s.drafts[n]? = some d →
    d.builder.func.insts[e]? = some inst → inst.op.address? = some .pending → s.Expects n e
  spans : ∀ slot ∈ s.ledger.arrays, src.Spans s.types slot
  fetched : ∀ slot ∈ s.ledger.arrays, ∀ r ∈ slot.reads, s.Meets slot.dst (·.Fetches src slot r)
  apart : s.ledger.arrays.Pairwise Ledger.Apart
  distinct : ∀ slot ∈ s.ledger.arrays, (slot.reads.map Prod.fst).Nodup

theorem accounted_start (src : Source) (types : TypePool) (scopes : List String) :
    (start src types scopes).Accounted src := by
  refine ⟨fun n d hd => ?_, fun n d e inst hd he _ => ?_, by simp [start, Ledger.empty],
    by simp [start, Ledger.empty], .nil, by simp [start, Ledger.empty]⟩
  · obtain ⟨name, rfl⟩ := getElem?_start hd
    exact Draft.sourced_empty ..
  · obtain ⟨name, rfl⟩ := getElem?_start hd
    simp [Draft.empty, Builder.empty, Function.empty] at he

variable {inst : Inst} {i : InstId} {allowed : Permit} {e : InstId}

theorem append_pending {block : BlockId} {ty : TypeId} {op : Operation}
    (hop : op.address? ≠ some .pending)
    (he : (d.append block ty op).2.builder.func.insts[e]? = some inst)
    (hp : inst.op.address? = some .pending) : d.builder.func.insts[e]? = some inst := by
  rcases Function.insertAt_getElem?_cases he with ho | ⟨-, rfl⟩
  · exact ho
  · exact absurd hp hop

theorem openRead_pending {ty fieldTy : TypeId} {lanes : Option Nat}
    (he : (d.openRead i ty fieldTy lanes).2.builder.func.insts[e]? = some inst)
    (hp : inst.op.address? = some .pending) :
    d.builder.func.insts[e]? = some inst ∨ e = d.builder.func.numInsts := by
  have hl : ∀ {e : InstId} {inst : Inst},
      (d.append d.entry fieldTy (.load .pending)).2.builder.func.insts[e]? = some inst →
      d.builder.func.insts[e]? = some inst ∨ e = d.builder.func.numInsts :=
    fun he => (Function.insertAt_getElem?_cases he).imp_right And.left
  cases lanes with
  | none => exact hl he
  | some n =>
    exact hl (append_pending (by simp [Operation.address?])
      (append_pending (by simp [Operation.address?]) he hp) hp)

theorem Accounted.setDraft (h : s.Accounted src) (hd : s.drafts[scope.val]? = some d)
    (hs : d'.Sourced src) (hre : d.Retains d')
    (hin : ∀ (e : InstId) (inst : Inst), d'.builder.func.insts[e]? = some inst →
      inst.op.address? = some .pending → d.builder.func.insts[e]? = some inst) :
    (s.setDraft scope d').Accounted src := by
  refine ⟨fun n e he => ?_, fun n e i inst he hi hp => ?_, h.spans,
    fun slot hsl r hr => (h.fetched slot hsl r hr).setDraft hd fun hf => hf.retains hre,
    h.apart, h.distinct⟩
  · rcases setDraft_cases hd he with ⟨rfl, rfl⟩ | ⟨-, he⟩
    · exact hs
    · exact h.sourced n e he
  · rcases setDraft_cases hd he with ⟨rfl, rfl⟩ | ⟨-, he⟩
    · exact h.expected _ d i inst hd (hin i inst hi hp) hp
    · exact h.expected n e i inst he hi hp

theorem Accounted.openRead (h : s.Accounted src) {owner dst : Scope}
    (hd : s.drafts[dst.val]? = some d) : (s.openRead owner dst i inst d).Accounted src := by
  have hse : (s.openRead owner dst i inst d).drafts[dst.val]? = some (d.openRead i inst.ty
      (Source.fieldType s.types inst) (Source.fieldLanes s.types inst)).2 :=
    getElem?_setDraft_self hd
  have ho : ∀ n, n ≠ dst.val → (s.openRead owner dst i inst d).drafts[n]? = s.drafts[n]? :=
    fun n hn => getElem?_setDraft_ne hn
  have hm : ∀ {n e}, s.Expects n e → (s.openRead owner dst i inst d).Expects n e := by
    rintro n e (⟨slot, hs, hre⟩ | ha)
    · exact .inl ⟨slot, List.mem_append_left _ hs, hre⟩
    · exact .inr ha
  refine ⟨fun n e he => ?_, fun n e j inst' he hj hp => ?_, h.spans, fun slot hs r hr =>
    (h.fetched slot hs r hr).setDraft hd fun hf => hf.retains (d.retains_openRead ..), h.apart,
    h.distinct⟩
  · by_cases hn : n = dst.val
    · subst hn
      exact Option.mem_unique hse he ▸ (h.sourced _ d hd).openRead ..
    · exact h.sourced n e (ho n hn ▸ he)
  · by_cases hn : n = dst.val
    · subst hn
      obtain rfl := Option.mem_unique hse he
      rcases openRead_pending hj hp with hol | rfl
      · exact hm (h.expected _ d j inst' hd hol hp)
      · exact .inl ⟨_, List.mem_append_right _ (List.mem_singleton_self _), rfl,
          d.openRead_read i inst.ty (Source.fieldType s.types inst) (Source.fieldLanes s.types inst)⟩
    · exact hm (h.expected n e j inst' (ho n hn ▸ he) hj hp)

theorem ReadStep.accounted (hs : ReadStep src allowed s t) (h : s.Accounted src) :
    t.Accounted src := by
  cases hs with
  | report _ => exact ⟨h.sourced, h.expected, h.spans, h.fetched, h.apart, h.distinct⟩
  | @declareGlobal _ _ decl d hd _ _ =>
    have hb := d.program.globals_getOrAddGlobal decl
    have hdi := Program.nodup_getOrAddGlobal (h.sourced _ _ hd).distinct decl
    exact h.setDraft hd ((h.sourced _ _ hd).of_builder_eq rfl hb rfl rfl hdi)
      ⟨List.Subset.refl _, List.Subset.refl _, List.subset_cons_self _ _⟩ fun e inst he _ => he
  | @declare _ _ decl d hd _ =>
    have hb : d.program.globals <+: (d.declare decl).2.program.globals :=
      d.program.globals_declare decl ▸ List.prefix_rfl
    have hdi : ((d.declare decl).2.program.globals.map GlobalDecl.name).Nodup :=
      d.program.globals_declare decl ▸ (h.sourced _ _ hd).distinct
    exact h.setDraft hd ((h.sourced _ _ hd).of_builder_eq rfl hb rfl rfl hdi)
      ⟨List.Subset.refl _, List.Subset.refl _, List.Subset.refl _⟩ fun e inst he _ => he
  | openRead hd _ _ _ _ => exact h.openRead hd

theorem Reads.accounted (hr : Reads src allowed s t) (h : s.Accounted src) : t.Accounted src := by
  induction hr with
  | refl => exact h
  | tail _ hs ih => exact hs.accounted ih

section Operands

variable {r : Value} {op op' : Operation}

theorem Denotes.sourced {v : Value} (h : Denotes src s scope v r)
    (hd : s.drafts[scope.val]? = some d) (hc : d.Closed src) (hs : d.Sourced src) :
    r.Sourced src d :=
  (h.resolves hd).sourced hc hs

theorem RendersIncoming.exists_denotes {exits : List (BlockId × BlockId)}
    {incoming incoming' : List (BlockId × Value)}
    (h : RendersIncoming src s scope exits incoming incoming')
    (hr : r ∈ incoming'.map Prod.snd) : ∃ v, Denotes src s scope v r := by
  induction h with
  | nil => cases hr
  | cons _ hv _ ih =>
    rcases List.mem_cons.mp hr with rfl | hr
    · exact ⟨_, hv⟩
    · exact ih hr
  | skip _ _ _ ih => exact ih hr

theorem Renders.exists_denotes (h : Renders src s scope op op') (hr : r ∈ op'.operands) :
    ∃ v, Denotes src s scope v r := by
  cases hop : op.isPhi with
  | false =>
    obtain ⟨v, -, hv⟩ := exists_of_forall₂ (h.operands hop).flip hr
    exact ⟨v, hv⟩
  | true =>
    cases h with
    | phi _ hi => exact hi.exists_denotes hr
    | plain hp _ => cases op <;> simp_all [Operation.isPhi, Operation.isPlain]
    | _ => cases hop

theorem Renders.address?_ne_pending (h : Renders src s scope op op') :
    op'.address? ≠ some .pending := by
  cases h with
  | plain hp _ =>
    rw [Operation.address?_withOperands hp]
    simp
  | load ha | store _ ha => cases ha <;> simp [Operation.address?]
  | phi _ _ | call _ _ => simp [Operation.address?]

end Operands

section Elements

variable {slot : ArraySlot}

theorem Expects.addArray {n : Nat} {e : InstId} (h : s.Expects n e) (slot : ArraySlot) :
    Expects { s with ledger := s.ledger.addArray slot } n e := by
  rcases h with hva | ⟨x, hx, hds, y, hy, hrea⟩
  · exact .inl hva
  · obtain ⟨z, hz, hzd, hyz⟩ := Ledger.mem_reads_of_mergeArray (List.mem_cons_of_mem slot hx) hy
    exact .inr ⟨z, hz, hzd ▸ hds, y, hyz, hrea⟩

theorem expects_addArray {r : InstId × Value} (hr : r ∈ slot.reads) :
    Expects { s with ledger := s.ledger.addArray slot } slot.dst.val r.1 := by
  obtain ⟨z, hz, hzd, hrz⟩ := Ledger.mem_reads_of_mergeArray
    (List.mem_cons_self (a := slot) (l := s.ledger.arrays)) hr
  exact .inr ⟨z, hz, congrArg Fin.val hzd, r, hrz, rfl⟩

/-- A read of elements is an instruction that its part has. -/
theorem Posted.read_lt (h : s.Posted src) (hs : slot ∈ s.ledger.arrays)
    (hd : s.drafts[slot.dst.val]? = some d) {r : InstId × Value} (hr : r ∈ slot.reads) :
    r.1 < d.builder.func.numInsts := by
  obtain ⟨⟨e, inst, he, hi, -⟩, -⟩ := (h.arrays slot hs).2 r hr
  obtain rfl := Option.mem_unique hd he
  exact (Array.getElem?_eq_some_iff.mp hi).1

/-- A new read of elements is accounted for if its slot spans them and the part that it stands in
fetches what a load of the source reads. -/
theorem Accounted.openElement (h : s.Accounted src) (hp : s.Posted src)
    (hd : s.drafts[slot.dst.val]? = some d) {r : Value}
    (hre : slot.reads = [(d.builder.func.numInsts, r)]) (hsp : src.Spans s.types slot)
    (hf : (d.openElement i slot.elem).Fetches src slot (d.builder.func.numInsts, r)) :
    (s.openElement i d slot).Accounted src := by
  have hret : d.Retains (d.openElement i slot.elem) := Draft.retains_openElement ..
  have hse : (s.openElement i d slot).drafts[slot.dst.val]? = _ := getElem?_setDraft_self hd
  have hfr : ∀ x ∈ s.ledger.arrays, x.dst = slot.dst → ∀ y ∈ x.reads,
      y.1 ≠ d.builder.func.numInsts := fun x hx hds y hy =>
    Nat.ne_of_lt (hp.read_lt hx (hds ▸ hd) hy)
  have hol : ∀ x ∈ s.ledger.arrays, ∀ y ∈ x.reads,
      (s.openElement i d slot).Meets x.dst (·.Fetches src x y) := fun x hx y hy =>
    (h.fetched x hx y hy).setDraft hd fun hf => hf.retains hret
  refine ⟨fun n e he => ?_, fun n e j inst he hj hpe => ?_, fun x hx => ?_, fun x hx y hy => ?_,
    Ledger.pairwise_mergeArray h.apart fun x hx hds y hy z hz => ?_, fun x hx => ?_⟩
  · rcases setDraft_cases hd he with ⟨rfl, rfl⟩ | ⟨-, he⟩
    · exact Draft.Sourced.addCopy ((h.sourced _ d hd).append _ _ fun v hv => by cases hv) .of_inst
    · exact h.sourced n e he
  · rcases setDraft_cases hd he with ⟨rfl, rfl⟩ | ⟨-, he⟩
    · rcases Function.insertAt_getElem?_cases hj with hold | ⟨rfl, -⟩
      · exact (h.expected _ d j inst hd hold hpe).addArray slot
      · exact expects_addArray (hre ▸ List.mem_singleton_self _ :
          (d.builder.func.numInsts, r) ∈ slot.reads)
    · exact (h.expected n e j inst he hj hpe).addArray slot
  · obtain ⟨z, hz, hsa⟩ := Ledger.mem_mergeArray hx
    have hsp : src.Spans s.types z := (List.mem_cons.mp hz).elim (· ▸ hsp) (h.spans z)
    rw [hsa]
    exact ⟨hsp.owned, hsp.elem, hsp.len⟩
  · rcases Ledger.mergeArray_cases hx with hx | rfl | ⟨z, hz, ⟨-, hds, hgl, hpa⟩, rfl⟩
    · exact hol x hx y hy
    · rw [hre] at hy
      obtain rfl := List.mem_singleton.mp hy
      exact meets_setDraft_self hd hf
    · rcases List.mem_append.mp hy with hy | hy
      · exact hol z hz y hy
      · rw [hre] at hy
        obtain rfl := List.mem_singleton.mp hy
        intro e he
        have he : (s.openElement i d slot).drafts[z.dst.val]? = some e := he
        rw [hds] at he
        exact (Option.mem_unique hse he ▸ hf).of_path hds hgl hpa
  · rw [hre] at hz
    obtain rfl := List.mem_singleton.mp hz
    exact hfr x hx hds y hy
  · rcases Ledger.mergeArray_cases hx with hx | rfl | ⟨z, hz, ⟨-, hds, -, -⟩, rfl⟩
    · exact h.distinct x hx
    · rw [hre]
      exact List.nodup_singleton _
    · rw [hre, List.map_append]
      refine (h.distinct z hz).append (List.nodup_singleton _) (List.disjoint_singleton.mpr ?_)
      intro hme
      obtain ⟨y, hy, heq⟩ := List.mem_map.mp hme
      exact hfr z hz hds y hy heq

end Elements

/-- Copying keeps the account: a read that it opens is that of a slot it asks for. -/
theorem Copied.accounted {pred : Option BlockId}
    (hco : Copied src (.carrying src.Supplies) scope pred i inst s t)
    (hi : src.func.insts[i]? = some inst) (hp : s.Posted src) (h : s.Accounted src) :
    t.Accounted src := by
  have hc : ∀ {u : Emission} {d : Draft} {v : Value}, u.Accounted src →
      u.drafts[scope.val]? = some d → v.Sourced src d →
      (u.setDraft scope (d.addCopy i v)).Accounted src := fun hu hd hv =>
    hu.setDraft hd ((hu.sourced _ _ hd).addCopy hv) (Draft.retains_addCopy ..) fun e inst he _ => he
  cases hco with
  | @emitted u d op hre hd hop _ _ =>
    have hu := hre.accounted h
    have hcl := (hre.posted hp).closed _ d hd
    have hs := hu.sourced _ d hd
    refine hu.setDraft hd ?_ (Draft.retains_addCopy ..) fun e inst' he => ?_
    · refine Draft.Sourced.addCopy (hs.append _ _ fun r hr => ?_) .of_inst
      obtain ⟨v, hv⟩ := hop.exists_denotes hr
      exact hv.sourced hd hcl hs
    · exact append_pending hop.address?_ne_pending he
  | known _ _ _ hre hv hd =>
    have hu := hre.accounted h
    exact hc hu hd (hv.sourced hd ((hre.posted hp).closed _ _ hd) (hu.sourced _ _ hd))
  | missing _ _ _ hre _ hd | unsupported _ _ hre _ hd => exact hc (hre.accounted h) hd .of_const
  | @raised u w d e owner g copy path r _ _ _ hre he hg hr' hd hr =>
    have hu := hre.accounted h
    have hl : (u.setDraft owner ((e.append e.entry inst.ty (.load (.member copy path))).2.addCopy i
        (.inst (e.append e.entry inst.ty (.load (.member copy path))).1))).Accounted src := by
      refine hu.setDraft he ?_ (Draft.retains_addCopy ..) fun e' inst' he' => ?_
      · exact Draft.Sourced.addCopy ((hu.sourced _ e he).append _ _ fun v hv => by cases hv)
          .of_inst
      · exact append_pending (by simp [Operation.address?]) he'
    have hw := hr'.accounted hl
    exact hc hw hd ((hw.sourced _ d hd).reads (i, r) (mem_of_lookup hr))
  | @array u d owner g decl path index r len hop ho _ hdy hde hle hre hin hd =>
    refine (hre.accounted h).openElement (hre.posted hp) hd rfl ⟨ho, ?_, fun path' hpa => ?_⟩ ?_
    · exact ⟨inst, Array.mem_of_getElem? hi, rfl⟩
    · have hpa : path'.map Step.fixed? = path.map Step.fixed? := hpa
      show src.slotLength u.types g path' = some len
      rw [Source.slotLength, hde, Option.bind_some, Step.leading_eq, hpa, ← Step.leading_eq, hle]
    · exact ⟨i, inst, path, index, hi, hop, rfl, hdy, List.mem_cons_self,
        (hin.resolves hd).retains (Draft.retains_openElement ..)⟩
  | skipped _ hre => exact hre.accounted h

theorem CopyStep.accounted (hste : CopyStep src s t) (hp : s.Posted src)
    (h : s.Accounted src) : t.Accounted src := by
  have hsa : ∀ {s : Emission} {scope : Scope} {d d' : Draft}, s.Accounted src →
      s.drafts[scope.val]? = some d → d.SameCode d' →
      (∀ b v, d'.builder.func.cond? b = some v →
        d.builder.func.cond? b = some v ∨ v.Sourced src d) →
      (s.setDraft scope d').Accounted src := fun hs hd hsa hco =>
    hs.setDraft hd ((hs.sourced _ _ hd).of_sameCode hsa hco)
      ⟨hsa.copies ▸ List.Subset.refl _, hsa.reads ▸ List.Subset.refl _,
        hsa.globals ▸ List.Subset.refl _⟩ fun e inst he _ => hsa.insts ▸ he
  cases hste with
  | read hr => exact hr.accounted h
  | @inst _ scope pred i inst d hsc hi hd hc =>
    have hvi : d.SameCode (d.noteVisit pred i) :=
      ⟨rfl, rfl, Nat.le_refl _, fun _ => rfl, rfl, rfl, rfl, rfl⟩
    exact hc.accounted hi (hp.setDraft hd hvi.continues
      ((hp.closed _ _ hd).of_sameCode hvi)) (hsa h hd hvi fun b v hv => .inl hv)
  | steer hd hst => exact hsa h hd hst.sameCode fun b v hv => .inl (hst.cond? hv)
  | @branch scope d site cond hd hcon =>
    refine hsa h hd (d.sameCode_openFork site cond) fun b v hv => ?_
    rcases Draft.cond?_openFork hv with ho | rfl
    · exact .inl ho
    · exact .inr (hcon.sourced hd (hp.closed _ d hd) (h.sourced _ d hd))
  | fanout _ => exact ⟨h.sourced, h.expected, h.spans, h.fetched, h.apart, h.distinct⟩

theorem Copying.accounted (hc : Copying src s t) (hp : s.Posted src)
    (h : s.Accounted src) : t.Accounted src := by
  induction hc with
  | refl => exact h
  | tail hs hst ih => exact hst.accounted (Copying.posted hs hp) ih

end Emission

end Stagewise
