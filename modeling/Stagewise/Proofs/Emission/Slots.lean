import Stagewise.Proofs.Emission.Picture
import Stagewise.Proofs.Emission.Steps

namespace Stagewise

theorem Operation.address?_withOperands {op : Operation} (h : op.isPlain = true) (vs : List Value) :
    (op.withOperands vs).address? = none := by
  cases op <;> first | rfl | simp [isPlain] at h

namespace Value

def Placed (d : Draft) (v : Value) : Prop := ∀ j, v = .inst j → j < d.builder.func.numInsts

theorem Placed.mono {d d' : Draft} {v : Value} (h : v.Placed d)
    (hle : d.builder.func.numInsts ≤ d'.builder.func.numInsts) : v.Placed d' :=
  fun j hj => Nat.lt_of_lt_of_le (h j hj) hle

theorem placed_const (d : Draft) (c : Constant) : (Value.const c).Placed d := fun _ hj => by cases hj

end Value

namespace Draft

/-- All that a part refers to is there, and its bindings are those of the source program. -/
structure Closed (src : Source) (d : Draft) : Prop where
  entry_lt : d.entry < d.builder.func.numBlocks
  copies : ∀ x ∈ d.copies, x.2.Placed d
  reads : ∀ x ∈ d.reads, x.2.Placed d
  globals : ∀ x ∈ d.globals, x.2 < d.program.numGlobals
  bindings : ∀ decl ∈ d.program.globals, ∃ decl' ∈ src.program.globals, decl'.name = decl.name
  addresses : ∀ (e : InstId) (inst : Inst) (addr : Address) (g : GlobalId),
    d.builder.func.insts[e]? = some inst → inst.op.address? = some addr → addr.global? = some g →
    g < d.program.numGlobals

variable {src : Source} {d d' d'' : Draft} {op : Operation}

theorem Closed.of_sameCode (h : d.Closed src) (hs : d.SameCode d') : d'.Closed src := by
  have hi : d'.builder.func.numInsts = d.builder.func.numInsts := congrArg Array.size hs.insts
  have hp : ∀ {v : Value}, v.Placed d → v.Placed d' := fun hv => hv.mono (Nat.le_of_eq hi.symm)
  refine ⟨?_, fun x hx => ?_, fun x hx => ?_, fun x hx => ?_, ?_, ?_⟩
  · rw [hs.entry]
    exact Nat.lt_of_lt_of_le h.entry_lt hs.numBlocks_le
  · rw [hs.copies] at hx
    exact hp (h.copies x hx)
  · rw [hs.reads] at hx
    exact hp (h.reads x hx)
  · rw [hs.globals] at hx
    rw [hs.program]
    exact h.globals x hx
  · rw [hs.program]
    exact h.bindings
  · rw [hs.program, hs.insts]
    exact h.addresses

theorem closed_empty (src : Source) (scope : Scope) (program func : String) :
    (Draft.empty scope program func).Closed src :=
  ⟨Nat.one_pos, by simp [empty], by simp [empty], by simp [empty],
    by simp [empty, Program.empty], by simp [empty, Builder.empty, Function.empty]⟩

structure Continues (d d' : Draft) : Prop where
  insts : ∀ (e : InstId) (inst : Inst), d.builder.func.insts[e]? = some inst →
    d'.builder.func.insts[e]? = some inst
  entry : d'.entry = d.entry
  listed : ∀ b, (d.builder.func.instsOf b).Sublist (d'.builder.func.instsOf b)
  reads : d'.reads = d.reads

theorem SameCode.continues (h : d.SameCode d') : d.Continues d' :=
  ⟨fun e inst he => by rw [h.insts]; exact he, h.entry, fun b => by rw [h.instsOf], h.reads⟩

theorem continues_of_builder_eq (hb : d'.builder = d.builder) (hr : d'.reads = d.reads) :
    d.Continues d' :=
  ⟨fun e inst he => by rw [hb]; exact he, by rw [Draft.entry, hb]; rfl, fun b => by rw [hb], hr⟩

theorem Continues.trans (h : d.Continues d') (h' : d'.Continues d'') : d.Continues d'' :=
  ⟨fun e inst he => h'.insts e inst (h.insts e inst he), h'.entry.trans h.entry,
    fun b => (h.listed b).trans (h'.listed b), h'.reads.trans h.reads⟩

theorem continues_append (d : Draft) (block : BlockId) (ty : TypeId) (op : Operation) :
    d.Continues (d.append block ty op).2 :=
  ⟨(extends_append d block ty op).insts, rfl, fun _ => Function.sublist_insertAt .., rfl⟩

theorem numInsts_append (d : Draft) (block : BlockId) (ty : TypeId) (op : Operation) :
    (d.append block ty op).2.builder.func.numInsts = d.builder.func.numInsts + 1 :=
  Function.append_numInsts ..

theorem Closed.append (h : d.Closed src) (block : BlockId) (ty : TypeId)
    (hop : ∀ addr g, op.address? = some addr → addr.global? = some g → g < d.program.numGlobals) :
    (d.append block ty op).2.Closed src := by
  have hle : d.builder.func.numInsts ≤ (d.append block ty op).2.builder.func.numInsts := by
    rw [numInsts_append]
    exact Nat.le_succ _
  refine ⟨?_, fun x hx => (h.copies x hx).mono hle, fun x hx => (h.reads x hx).mono hle, h.globals,
    h.bindings, fun e inst addr g he => ?_⟩
  · show d.entry < (d.builder.func.append block ty op).2.numBlocks
    rw [Function.append_numBlocks]
    exact h.entry_lt
  · rcases Function.insertAt_getElem?_cases he with ho | ⟨-, rfl⟩
    · exact h.addresses e inst addr g ho
    · exact hop addr g

theorem Closed.addCopy (h : d.Closed src) {i : InstId} {v : Value} (hv : v.Placed d) :
    (d.addCopy i v).Closed src := by
  refine ⟨h.entry_lt, fun x hx => ?_, h.reads, h.globals, h.bindings, h.addresses⟩
  rcases List.mem_cons.mp hx with rfl | hx
  · exact hv
  · exact h.copies x hx

theorem Closed.appendCopy (h : d.Closed src) (i : InstId) (block : BlockId) (ty : TypeId)
    (hop : ∀ addr g, op.address? = some addr → addr.global? = some g → g < d.program.numGlobals) :
    ((d.append block ty op).2.addCopy i (.inst (d.append block ty op).1)).Closed src := by
  refine (h.append block ty hop).addCopy fun j hj => ?_
  obtain rfl := Value.inst.inj hj
  rw [numInsts_append]
  exact Nat.lt_succ_self _

theorem numGlobals_declareRecord (d : Draft) (decl : GlobalDecl) :
    d.program.numGlobals ≤ (d.declareRecord decl).2.program.numGlobals ∧
      (d.declareRecord decl).1 < (d.declareRecord decl).2.program.numGlobals := by
  obtain ⟨decl', hd', -⟩ := d.program.getOrAddGlobal_name decl
  exact ⟨(d.program.globals_getOrAddGlobal decl).length_le,
    (List.getElem?_eq_some_iff.mp hd').1⟩

theorem mem_globals_declareRecord {decl decl' : GlobalDecl}
    (h : decl' ∈ (d.declareRecord decl).2.program.globals) :
    decl' ∈ d.program.globals ∨ decl' = decl := by
  have h : decl' ∈ (d.program.getOrAddGlobal decl).2.globals := h
  unfold Program.getOrAddGlobal at h
  split at h
  · exact .inl h
  · simpa [Program.addGlobal] using h

theorem Closed.declareGlobal (h : d.Closed src) {g : GlobalId} {decl : GlobalDecl}
    (hd : src.program.globals[g]? = some decl) : (d.declareGlobal g decl).2.Closed src := by
  obtain ⟨hle, hlt⟩ := d.numGlobals_declareRecord decl
  refine ⟨h.entry_lt, h.copies, h.reads, fun x hx => ?_, fun decl' hd' => ?_,
    fun e inst addr g he ha hg => Nat.lt_of_lt_of_le (h.addresses e inst addr g he ha hg) hle⟩
  · rcases List.mem_cons.mp hx with rfl | hx
    · exact hlt
    · exact Nat.lt_of_lt_of_le (h.globals x hx) hle
  · rcases mem_globals_declareRecord hd' with ho | rfl
    · exact h.bindings decl' ho
    · exact ⟨decl', List.mem_of_getElem? hd, rfl⟩

theorem Closed.declare (h : d.Closed src) (decl : FunctionDecl) : (d.declare decl).2.Closed src := by
  have hgl : (d.declare decl).2.program.globals = d.program.globals := d.program.globals_declare decl
  refine ⟨h.entry_lt, h.copies, h.reads, fun x hx => ?_, ?_, fun e inst addr g he ha hg => ?_⟩
  · rw [Program.numGlobals, hgl]
    exact h.globals x hx
  · rw [hgl]
    exact h.bindings
  · rw [Program.numGlobals, hgl]
    exact h.addresses e inst addr g he ha hg

section Reads

variable {i : InstId} {ty fieldTy : TypeId} {lanes : Option Nat} {read : InstId} {v : Value}
  {types : TypePool} {slot : ValueSlot} {inst : Inst}

def Spreads (d : Draft) (ty : TypeId) (n : Nat) (read : InstId) (v : Value) : Prop :=
  ∃ lane value, v = .inst value ∧
    d.builder.func.insts[lane]? = some ⟨.insert (.const (.undef ty)) (.inst read)
      (.const (.int TypeId.int 0)), ty, d.entry⟩ ∧
    d.builder.func.insts[value]? = some ⟨.shuffle (.inst lane) (.const (.undef ty))
      (List.replicate n 0), ty, d.entry⟩ ∧
    [read, lane, value].Sublist (d.builder.func.instsOf d.entry)

/-- The value that a read of another part comes to: what was read, or a vector made of it. -/
def Renews (d : Draft) (ty : TypeId) (lanes : Option Nat) (read : InstId) (v : Value) : Prop :=
  match lanes with
  | none => v = .inst read
  | some n => d.Spreads ty n read v

theorem Spreads.continues {n : Nat} (h : d.Spreads ty n read v)
    (hi : ∀ (e : InstId) (inst : Inst), (∀ addr, inst.op ≠ .load addr) →
      d.builder.func.insts[e]? = some inst → d'.builder.func.insts[e]? = some inst)
    (he : d'.entry = d.entry)
    (hl : ∀ b, (d.builder.func.instsOf b).Sublist (d'.builder.func.instsOf b)) :
    d'.Spreads ty n read v := by
  obtain ⟨lane, value, rfl, hla, hv, ho⟩ := h
  refine ⟨lane, value, rfl, ?_, ?_, ?_⟩
  · rw [he]
    exact hi lane _ (by simp) hla
  · rw [he]
    exact hi value _ (by simp) hv
  · rw [he]
    exact ho.trans (hl _)

theorem openRead_read (d : Draft) (i : InstId) (ty fieldTy : TypeId) (lanes : Option Nat) :
    (d.openRead i ty fieldTy lanes).1.1 = d.builder.func.numInsts := by
  cases lanes <;> rfl

theorem openRead_entry (d : Draft) (i : InstId) (ty fieldTy : TypeId) (lanes : Option Nat) :
    (d.openRead i ty fieldTy lanes).2.entry = d.entry := by
  cases lanes <;> rfl

theorem sublist_openRead (d : Draft) (i : InstId) (ty fieldTy : TypeId) (lanes : Option Nat)
    (b : BlockId) : (d.builder.func.instsOf b).Sublist
      ((d.openRead i ty fieldTy lanes).2.builder.func.instsOf b) := by
  have hl := (continues_append d d.entry fieldTy (.load .pending)).listed b
  cases lanes with
  | none => exact hl
  | some n =>
    exact hl.trans (((continues_append _ d.entry ty _).listed b).trans
      ((continues_append _ d.entry ty _).listed b))

theorem openRead_getElem? (d : Draft) (i : InstId) (ty fieldTy : TypeId) (lanes : Option Nat) :
    (d.openRead i ty fieldTy lanes).2.builder.func.insts[d.builder.func.numInsts]?
      = some ⟨.load .pending, fieldTy, d.entry⟩ := by
  have hl : (d.append d.entry fieldTy (.load .pending)).2.builder.func.insts[
      d.builder.func.numInsts]? = some ⟨.load .pending, fieldTy, d.entry⟩ :=
    Function.append_getElem?_insts_self ..
  cases lanes with
  | none => exact hl
  | some n =>
    exact (continues_append _ d.entry ty _).insts _ _
      ((continues_append _ d.entry ty _).insts _ _ hl)

/-- A read just opened stands for its value at once, or through the vector that is spread from it.
-/
theorem renews_openRead (h : d.entry < d.builder.func.numBlocks) (i : InstId) (ty fieldTy : TypeId)
    (lanes : Option Nat) : (d.openRead i ty fieldTy lanes).2.Renews ty lanes d.builder.func.numInsts
      (d.openRead i ty fieldTy lanes).1.2 := by
  cases lanes with
  | none => rfl
  | some n =>
    -- The three instructions stand at the end of the entry block, one after the other.
    have ha : ∀ (d : Draft) (ty : TypeId) (op : Operation), d.entry < d.builder.func.numBlocks →
        (d.append d.entry ty op).2.builder.func.instsOf d.entry
          = d.builder.func.instsOf d.entry ++ [d.builder.func.numInsts] :=
      fun d ty op h => Function.append_instsOf ty op h
    have hb : ∀ (d : Draft) (ty : TypeId) (op : Operation), d.entry < d.builder.func.numBlocks →
        (d.append d.entry ty op).2.entry < (d.append d.entry ty op).2.builder.func.numBlocks := by
      intro d ty op h
      show d.entry < (d.builder.func.append d.entry ty op).2.numBlocks
      rw [Function.append_numBlocks]
      exact h
    let d1 := (d.append d.entry fieldTy (.load .pending)).2
    let d2 := (d1.append d.entry ty (.insert (.const (.undef ty)) (.inst d.builder.func.numInsts)
      (.const (.int TypeId.int 0)))).2
    have h1 := hb d fieldTy (.load .pending) h
    have h2 : d2.entry < d2.builder.func.numBlocks := hb d1 ty _ h1
    have hl : d2.builder.func.insts[d1.builder.func.numInsts]? = some ⟨.insert (.const (.undef ty))
        (.inst d.builder.func.numInsts) (.const (.int TypeId.int 0)), ty, d.entry⟩ :=
      Function.append_getElem?_insts_self ..
    refine ⟨d1.builder.func.numInsts, d2.builder.func.numInsts, rfl,
      (continues_append d2 d.entry ty _).insts _ _ hl, Function.append_getElem?_insts_self .., ?_⟩
    show List.Sublist _ ((d2.append d2.entry ty _).2.builder.func.instsOf d2.entry)
    rw [ha d2 ty _ h2, show d2.builder.func.instsOf d2.entry = _ from ha d1 ty _ h1,
      show d1.builder.func.instsOf d1.entry = _ from ha d fieldTy _ h, List.append_assoc,
      List.append_assoc]
    exact List.sublist_append_right ..

theorem Closed.openRead (h : d.Closed src) (i : InstId) (ty fieldTy : TypeId) (lanes : Option Nat) :
    (d.openRead i ty fieldTy lanes).2.Closed src := by
  have hr : ∀ {d : Draft} {v : Value}, d.Closed src → v.Placed d →
      Closed src { d with reads := (i, v) :: d.reads } := by
    intro d v h hv
    refine ⟨h.entry_lt, h.copies, fun x hx => ?_, h.globals, h.bindings, h.addresses⟩
    rcases List.mem_cons.mp hx with rfl | hx
    · exact hv
    · exact h.reads x hx
  have hp : ∀ (d : Draft) (ty : TypeId) (op : Operation),
      (Value.inst d.builder.func.numInsts).Placed (d.append d.entry ty op).2 := by
    intro d ty op j hj
    obtain rfl := Value.inst.inj hj
    rw [numInsts_append]
    exact Nat.lt_succ_self _
  have hl : (d.append d.entry fieldTy (.load .pending)).2.Closed src := by
    refine h.append d.entry fieldTy fun addr g ha hg => ?_
    cases ha
    cases hg
  cases lanes with
  | none => exact hr hl (hp d fieldTy _)
  | some n =>
    exact hr ((hl.append d.entry ty fun _ _ ha => by cases ha).append d.entry ty
      fun _ _ ha => by cases ha) (hp _ ty _)

structure Awaits (types : TypePool) (inst : Inst) (slot : ValueSlot) (d : Draft) : Prop where
  ty : slot.ty = Source.fieldType types inst
  scalarized : slot.scalarized = Source.isSplat types inst
  read : d.builder.func.insts[slot.read]? = some ⟨.load .pending, slot.ty, d.entry⟩
  value : ∃ v, d.reads.lookup slot.source = some v ∧
    d.Renews inst.ty (Source.fieldLanes types inst) slot.read v

theorem Renews.continues (h : d.Renews ty lanes read v)
    (hi : ∀ (e : InstId) (inst : Inst), (∀ addr, inst.op ≠ .load addr) →
      d.builder.func.insts[e]? = some inst → d'.builder.func.insts[e]? = some inst)
    (he : d'.entry = d.entry)
    (hl : ∀ b, (d.builder.func.instsOf b).Sublist (d'.builder.func.instsOf b)) :
    d'.Renews ty lanes read v := by
  cases lanes with
  | none => exact h
  | some n => exact Spreads.continues h hi he hl

theorem Awaits.lt (h : d.Awaits types inst slot) :
    slot.read < d.builder.func.numInsts := (Array.getElem?_eq_some_iff.mp h.read).1

theorem Awaits.continues
    (h : d.Awaits types inst slot) (hi : ∀ (e : InstId) (inst : Inst),
      d.builder.func.insts[e]? = some inst → d'.builder.func.insts[e]? = some inst)
    (he : d'.entry = d.entry)
    (hl : ∀ b, (d.builder.func.instsOf b).Sublist (d'.builder.func.instsOf b))
    (hre : ∀ v, d.reads.lookup slot.source = some v → d'.reads.lookup slot.source = some v) :
    d'.Awaits types inst slot := by
  obtain ⟨v, hv, hr⟩ := h.value
  refine ⟨h.ty, h.scalarized, he ▸ hi _ _ h.read, v, hre v hv, ?_⟩
  exact hr.continues (fun e inst _ => hi e inst) he hl

end Reads

end Draft

namespace Emission

variable {src : Source} {s t : Emission} {scope : Scope} {d d' : Draft}

structure Posted (src : Source) (s : Emission) : Prop where
  closed : ∀ (k : Nat) (d : Draft), s.drafts[k]? = some d → d.Closed src
  asked : ∀ (scope : Scope) (d : Draft) (i : InstId) (v : Value), s.drafts[scope.val]? = some d →
    d.reads.lookup i = some v → ∃ slot ∈ s.ledger.values, slot.dst = scope ∧ slot.source = i
  slots : ∀ slot ∈ s.ledger.values, slot.src < slot.dst ∧ src.Supplies slot.src slot.source ∧
    ∃ d inst, s.drafts[slot.dst.val]? = some d ∧ src.func.insts[slot.source]? = some inst ∧
      d.Awaits s.types inst slot
  apart : s.ledger.values.Pairwise fun a b => a.dst = b.dst → a.source ≠ b.source ∧ a.read ≠ b.read
  arrays : ∀ slot ∈ s.ledger.arrays, slot.src < slot.dst ∧ ∀ r ∈ slot.reads,
    (∃ d inst, s.drafts[slot.dst.val]? = some d ∧ d.builder.func.insts[r.1]? = some inst ∧
      inst.op = .load .pending) ∧ ∀ x ∈ s.ledger.values, x.dst = slot.dst → x.read ≠ r.1

theorem Posted.setDraft (h : s.Posted src) (hd : s.drafts[scope.val]? = some d)
    (hc : d.Continues d') (hcl : d'.Closed src) : (s.setDraft scope d').Posted src := by
  have hdr : ∀ (other : Scope) (e : Draft), s.drafts[other.val]? = some e →
      ∃ e', (s.setDraft scope d').drafts[other.val]? = some e' ∧ e.Continues e' := by
    intro other e he
    by_cases hk : other.val = scope.val
    · rw [hk] at he ⊢
      obtain rfl := Option.mem_unique hd he
      exact ⟨d', getElem?_setDraft_self hd, hc⟩
    · exact ⟨e, by rw [getElem?_setDraft_ne hk, he], Draft.continues_of_builder_eq rfl rfl⟩
  refine ⟨fun k e he => ?_, fun other e i v he hv => ?_, fun slot hs => ?_, h.apart,
    fun slot hs => ?_⟩
  · rcases setDraft_cases hd he with ⟨rfl, rfl⟩ | ⟨-, he⟩
    · exact hcl
    · exact h.closed k e he
  · rcases setDraft_scope_cases hd he with ⟨rfl, rfl⟩ | ⟨-, he⟩
    · exact h.asked other d i v hd (hc.reads ▸ hv)
    · exact h.asked other e i v he hv
  · obtain ⟨hlt, hsu, e, inst, he, hi, ha⟩ := h.slots slot hs
    obtain ⟨e', he', hco⟩ := hdr slot.dst e he
    refine ⟨hlt, hsu, e', inst, he', hi, ?_⟩
    exact ha.continues hco.insts hco.entry hco.listed fun v hv => by rwa [hco.reads]
  · obtain ⟨hlt, hre⟩ := h.arrays slot hs
    refine ⟨hlt, fun r hr => ?_⟩
    obtain ⟨⟨e, inst, he, hi, hop⟩, hne⟩ := hre r hr
    obtain ⟨e', he', hco⟩ := hdr slot.dst e he
    exact ⟨⟨e', inst, he', hco.insts _ _ hi, hop⟩, hne⟩

/-- A read that is opened waits for its address, and no other read has its slot. -/
theorem Posted.openRead (h : s.Posted src) {owner dst : Scope} {i : InstId} {inst : Inst}
    (hd : s.drafts[dst.val]? = some d) (hi : d.reads.lookup i = none)
    (hin : src.func.insts[i]? = some inst) (hlt : owner < dst) (hsu : src.Supplies owner i) :
    (s.openRead owner dst i inst d).Posted src := by
  let opened := d.openRead i inst.ty (Source.fieldType s.types inst) (Source.fieldLanes s.types inst)
  have hre : opened.1.1 = d.builder.func.numInsts := d.openRead_read ..
  have hex := (d.openRead_spec i inst.ty (Source.fieldType s.types inst)
    (Source.fieldLanes s.types inst)).1
  have hl : ∀ j v, d.reads.lookup j = some v → opened.2.reads.lookup j = some v := by
    intro j v hv
    rw [d.openRead_reads]
    exact lookup_cons_of_none hi hv
  have hse : (s.openRead owner dst i inst d).drafts[dst.val]? = some opened.2 :=
    getElem?_setDraft_self hd
  have ho : ∀ k, k ≠ dst.val → (s.openRead owner dst i inst d).drafts[k]? = s.drafts[k]? :=
    fun k hk => getElem?_setDraft_ne hk
  have hva : ∀ slot, slot ∈ (s.openRead owner dst i inst d).ledger.values ↔
      slot ∈ s.ledger.values ∨ slot = ⟨owner, dst, i, Source.fieldType s.types inst,
        Source.isSplat s.types inst, opened.1.1⟩ := by
    intro slot
    exact List.mem_append.trans (or_congr_right List.mem_singleton)
  -- The reads that were there are older than the new one.
  have hol : ∀ slot ∈ s.ledger.values, slot.dst = dst →
      slot.source ≠ i ∧ slot.read < d.builder.func.numInsts := by
    rintro slot hs rfl
    obtain ⟨-, -, e, inst', he, -, ha⟩ := h.slots slot hs
    obtain rfl := Option.mem_unique hd he
    refine ⟨?_, ha.lt⟩
    rintro rfl
    obtain ⟨v, hv, -⟩ := ha.value
    rw [hi] at hv
    cases hv
  refine ⟨fun k e he => ?_, fun other e j v he hv => ?_, fun slot hs => ?_, ?_,
    fun slot hs => ?_⟩
  · by_cases hk : k = dst.val
    · subst hk
      obtain rfl := Option.mem_unique hse he
      exact (h.closed _ d hd).openRead ..
    · exact h.closed k e (ho k hk ▸ he)
  · by_cases hk : other = dst
    · subst hk
      obtain rfl := Option.mem_unique hse he
      by_cases hj : j = i
      · exact ⟨_, (hva _).mpr (.inr rfl), rfl, hj.symm⟩
      · rw [d.openRead_reads, List.lookup_cons, beq_false_of_ne hj] at hv
        obtain ⟨slot, hs, hsl'⟩ := h.asked other d j v hd hv
        exact ⟨slot, (hva slot).mpr (.inl hs), hsl'⟩
    · obtain ⟨slot, hs, hsl'⟩ :=
        h.asked other e j v (ho _ (fun hval => hk (Fin.ext hval)) ▸ he) hv
      exact ⟨slot, (hva slot).mpr (.inl hs), hsl'⟩
  · rcases (hva slot).mp hs with hs | rfl
    · obtain ⟨hlt', hs', e, inst', he, hi', ha⟩ := h.slots slot hs
      by_cases hk : slot.dst = dst
      · rw [hk] at he
        obtain rfl := Option.mem_unique hd he
        refine ⟨hlt', hs', opened.2, inst', hk ▸ hse, hi', ?_⟩
        exact ha.continues hex.insts (d.openRead_entry ..)
          (fun _ => d.sublist_openRead ..) (hl _)
      · refine ⟨hlt', hs', e, inst', ?_, hi', ha⟩
        rw [ho _ fun hval => hk (Fin.ext hval), he]
    · refine ⟨hlt, hsu, opened.2, inst, hse, hin, rfl, rfl, ?_, opened.1.2, ?_, ?_⟩
      · show opened.2.builder.func.insts[opened.1.1]? = _
        rw [hre, d.openRead_getElem?, d.openRead_entry]
      · show opened.2.reads.lookup i = _
        rw [d.openRead_reads, List.lookup_cons, beq_self_eq_true]
      · show opened.2.Renews inst.ty _ opened.1.1 _
        rw [hre]
        exact Draft.renews_openRead (h.closed _ d hd).entry_lt ..
  · show (s.ledger.values ++ [_]).Pairwise _
    rw [List.pairwise_append]
    refine ⟨h.apart, List.pairwise_singleton .., fun slot hs x hx hds => ?_⟩
    obtain rfl := List.mem_singleton.mp hx
    obtain ⟨hso, hlt'⟩ := hol slot hs hds
    exact ⟨hso, hre ▸ Nat.ne_of_lt hlt'⟩
  · obtain ⟨hlt', hrea⟩ := h.arrays slot hs
    refine ⟨hlt', fun r hr => ?_⟩
    obtain ⟨⟨e, inst', he, hi', hop⟩, hne⟩ := hrea r hr
    by_cases hk : slot.dst = dst
    · rw [hk] at he
      obtain rfl := Option.mem_unique hd he
      refine ⟨⟨opened.2, inst', hk ▸ hse, hex.insts _ _ hi', hop⟩, fun x hx hds => ?_⟩
      rcases (hva x).mp hx with hx | rfl
      · exact hne x hx hds
      · exact hre ▸ Nat.ne_of_gt (Array.getElem?_eq_some_iff.mp hi').1
    · refine ⟨⟨e, inst', ?_, hi', hop⟩, fun x hx hds => ?_⟩
      · rw [ho _ fun hval => hk (Fin.ext hval), he]
      · rcases (hva x).mp hx with hx | rfl
        · exact hne x hx hds
        · exact absurd hds.symm hk

theorem ReadStep.posted (hst : ReadStep src (.carrying src.Supplies) s t)
    (h : s.Posted src) : t.Posted src := by
  cases hst with
  | report _ => exact ⟨h.closed, h.asked, h.slots, h.apart, h.arrays⟩
  | declareGlobal hd _ hde =>
    exact h.setDraft hd (Draft.continues_of_builder_eq rfl rfl) ((h.closed _ _ hd).declareGlobal hde)
  | declare hd _ =>
    exact h.setDraft hd (Draft.continues_of_builder_eq rfl rfl) ((h.closed _ _ hd).declare _)
  | openRead hd hi hin hlt hs => exact h.openRead hd hi hin hlt hs

theorem Reads.posted (hr : Reads src (.carrying src.Supplies) s t) (h : s.Posted src) : t.Posted src := by
  induction hr with
  | refl => exact h
  | tail _ hs ih => exact hs.posted ih

theorem Denotes.placed {v r : Value} (h : Denotes src s scope v r)
    (hd : s.drafts[scope.val]? = some d) (hc : d.Closed src) : r.Placed d := by
  cases h with
  | const c => exact Value.placed_const d c
  | global _ _ => exact fun _ hj => by cases hj
  | copy _ hd' hr =>
    obtain rfl := Option.mem_unique hd hd'
    exact hc.copies _ (mem_of_lookup hr)
  | read _ _ hd' hr =>
    obtain rfl := Option.mem_unique hd hd'
    exact hc.reads _ (mem_of_lookup hr)
  | undefined _ _ _ | backward _ _ _ _ => exact Value.placed_const d _

theorem Denotes.global_lt {g copy : GlobalId} (h : Denotes src s scope (.global g) (.global copy))
    (hd : s.drafts[scope.val]? = some d) (hc : d.Closed src) : copy < d.program.numGlobals := by
  cases h with
  | global hd' hg =>
    obtain rfl := Option.mem_unique hd hd'
    exact hc.globals (g, copy) (mem_of_lookup hg)

theorem Renders.global_lt {op op' : Operation} (h : Renders src s scope op op')
    (hd : s.drafts[scope.val]? = some d) (hc : d.Closed src) {addr : Address} {g : GlobalId}
    (had : op'.address? = some addr) (hg : addr.global? = some g) : g < d.program.numGlobals := by
  have hadd : ∀ {a b : Address}, RendersAddress src s scope a b → b.global? = some g →
      g < d.program.numGlobals := by
    intro a b hab hb
    cases hab with
    | member path hco | element hco _ =>
      obtain rfl := Option.some.inj hb
      exact hco.global_lt hd hc
  cases h with
  | @plain _ vs hp _ =>
    rw [Operation.address?_withOperands hp] at had
    cases had
  | load ha | store _ ha =>
    obtain rfl := Option.some.inj had
    exact hadd ha hg
  | phi _ _ | call _ _ => cases had

/-- Copying an instruction leaves each slot with a read that waits for its address. -/
theorem Copied.posted {pred : Option BlockId} {i : InstId} {inst : Inst}
    (hcopi : Copied src (.carrying src.Supplies) scope pred i inst s t)
    (h : s.Posted src) : t.Posted src := by
  have hcop : ∀ {u : Emission} {d : Draft} {v : Value}, u.Posted src →
      u.drafts[scope.val]? = some d → v.Placed d → (u.setDraft scope (d.addCopy i v)).Posted src :=
    fun hu hd hv => hu.setDraft hd (Draft.continues_of_builder_eq rfl rfl)
      ((hu.closed _ _ hd).addCopy hv)
  have hco : ∀ (d : Draft) (block : BlockId) (ty : TypeId) (op : Operation) (v : Value),
      d.Continues ((d.append block ty op).2.addCopy i v) := fun d block ty op v =>
    (Draft.continues_append d block ty op).trans (Draft.continues_of_builder_eq rfl rfl)
  cases hcopi with
  | @emitted u d op hre hd hop _ _ =>
    have hu := hre.posted h
    have hc := hu.closed _ d hd
    exact hu.setDraft hd (hco ..) (hc.appendCopy i _ _ fun _ _ => hop.global_lt hd hc)
  | known _ _ _ hre hv hd =>
    have hu := hre.posted h
    exact hcop hu hd (hv.placed hd (hu.closed _ _ hd))
  | missing _ _ _ hre _ hd | unsupported _ _ hre _ hd =>
    exact hcop (hre.posted h) hd (Value.placed_const _ _)
  | @raised u w d e owner g copy path r _ _ _ hre he hg hr' hd hr =>
    have hu := hre.posted h
    have hc := hu.closed _ e he
    have hl : ∀ addr g', (Operation.load (.member copy path)).address? = some addr →
        addr.global? = some g' → g' < e.program.numGlobals := by
      intro addr g' ha hg'
      obtain rfl := Option.some.inj ha
      obtain rfl := Option.some.inj hg'
      exact hg.global_lt he hc
    have hw := hr'.posted (hu.setDraft he (hco ..) (hc.appendCopy i _ _ hl))
    exact hcop hw hd ((hw.closed _ d hd).reads (i, r) (mem_of_lookup hr))
  | @array u d owner g decl path index r len _ _ ho _ _ _ hre _ hd =>
    have hu := hre.posted h
    have hse := hu.setDraft hd (hco d d.builder.current inst.ty (.load .pending)
      (.inst (d.emit inst.ty (.load .pending)).1))
      ((hu.closed _ d hd).appendCopy i _ _ fun addr g' ha hg' => by
        cases ha
        cases hg')
    refine ⟨hse.closed, hse.asked, hse.slots, hse.apart, fun slot hs => ⟨?_, fun x hx => ?_⟩⟩
    · obtain ⟨y, hy, hsa⟩ := Ledger.mem_mergeArray hs
      rw [hsa]
      rcases List.mem_cons.mp hy with rfl | hy
      · exact ho
      · exact (hse.arrays y hy).1
    · rcases Ledger.mem_reads_mergeArray hs hx with ⟨y, hy, hds, hx⟩ | ⟨hds, hx⟩
      · rw [← hds]
        exact (hse.arrays y hy).2 x hx
      · obtain rfl := List.mem_singleton.mp hx
        rw [← hds]
        refine ⟨⟨_, _, getElem?_setDraft_self hd, Function.append_getElem?_insts_self .., rfl⟩, ?_⟩
        intro slot' hs' hd'
        obtain ⟨-, -, e, inst', he, -, haw⟩ := hu.slots slot' hs'
        rw [hd'] at he
        obtain rfl := Option.mem_unique hd he
        exact Nat.ne_of_lt haw.lt
  | skipped _ hre => exact hre.posted h

theorem CopyStep.posted (hste : CopyStep src s t) (h : s.Posted src) : t.Posted src := by
  cases hste with
  | read hr => exact hr.posted h
  | inst _ _ hd hc =>
    have hs : ∀ (d : Draft) (pred : Option BlockId) (i : InstId), d.SameCode (d.noteVisit pred i) :=
      fun _ _ _ => ⟨rfl, rfl, Nat.le_refl _, fun _ => rfl, rfl, rfl, rfl, rfl⟩
    exact hc.posted (h.setDraft hd (hs ..).continues ((h.closed _ _ hd).of_sameCode (hs ..)))
  | steer hd hst =>
    exact h.setDraft hd hst.sameCode.continues ((h.closed _ _ hd).of_sameCode hst.sameCode)
  | @branch _ d site cond hd _ =>
    have hs := d.sameCode_openFork site cond
    exact h.setDraft hd hs.continues ((h.closed _ _ hd).of_sameCode hs)
  | fanout _ => exact ⟨h.closed, h.asked, h.slots, h.apart, h.arrays⟩

theorem posted_start (src : Source) (types : TypePool) (scopes : List String) :
    (start src types scopes).Posted src := by
  refine ⟨fun k d hd => ?_, fun scope d i v hd hv => ?_, ?_, List.Pairwise.nil, ?_⟩
  · obtain ⟨name, rfl⟩ := getElem?_start hd
    exact Draft.closed_empty ..
  · obtain ⟨name, rfl⟩ := getElem?_start hd
    simp [Draft.empty] at hv
  · simp [start, Ledger.empty]
  · simp [start, Ledger.empty]

theorem Copying.posted (hc : Copying src s t) (h : s.Posted src) : t.Posted src := by
  induction hc with
  | refl => exact h
  | tail _ hs ih => exact hs.posted ih

end Emission

end Stagewise
