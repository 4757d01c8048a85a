import Mathlib.Data.List.Nodup
import Stagewise.Emission.State
import Stagewise.Proofs.Function.Editing

namespace Stagewise

structure Program.Holds (p : Program) (op : Operation) : Prop where
  operand : ∀ g, .global g ∈ op.operands → g < p.numGlobals
  address : ∀ addr g, op.address? = some addr → addr.global? = some g → g < p.numGlobals
  callee : ∀ callee args, op = .call (.direct callee) args → callee < p.decls.length

theorem Program.Holds.mono {p p' : Program} {op : Operation} (h : p.Holds op)
    (hgl : p.globals <+: p'.globals) (hd : p.decls <+: p'.decls) : p'.Holds op :=
  ⟨fun g hg => Nat.lt_of_lt_of_le (h.operand g hg) hgl.length_le,
    fun addr g ha hg => Nat.lt_of_lt_of_le (h.address addr g ha hg) hgl.length_le,
    fun callee args hop => Nat.lt_of_lt_of_le (h.callee callee args hop) hd.length_le⟩

theorem mem_of_pair_sublist {α : Type} {before after : List α} {j e : α}
    (hn : (before ++ e :: after).Nodup) (h : [j, e].Sublist (before ++ e :: after)) :
    j ∈ before := by
  obtain ⟨left, right, heq, hl, hr⟩ := List.sublist_append_iff.mp h
  rw [List.nodup_append] at hn
  obtain ⟨-, ha, hne⟩ := hn
  have he : e ∉ before := fun he => hne e he e List.mem_cons_self rfl
  cases left with
  | nil =>
    obtain rfl : right = [j, e] := heq.symm
    have hm : e ∈ after := by
      cases hr with
      | cons _ ht | cons_cons _ ht => exact ht.subset (by simp)
    exact absurd hm (List.nodup_cons.mp ha).1
  | cons x left =>
    obtain ⟨rfl, -⟩ := List.cons.inj heq
    exact hl.subset List.mem_cons_self

namespace Draft

variable {d d' : Draft}

structure Straight (d : Draft) : Prop where
  single : d.builder.func.numBlocks = 1
  entry : d.entry = 0
  current : d.builder.current = d.entry
  ends : ∀ t, d.builder.func.terminator? d.entry = some t → t = .ret
  homed : ∀ (e : InstId) (inst : Inst), d.builder.func.insts[e]? = some inst → inst.block = d.entry
  listed : ∀ e, e ∈ d.builder.func.instsOf d.entry ↔ e < d.builder.func.numInsts
  nodup : (d.builder.func.instsOf d.entry).Nodup
  ordered : ∀ (e : InstId) (inst : Inst), d.builder.func.insts[e]? = some inst →
    ∀ j, .inst j ∈ inst.op.operands → [j, e].Sublist (d.builder.func.instsOf d.entry)
  holds : ∀ (e : InstId) (inst : Inst), d.builder.func.insts[e]? = some inst →
    d.program.Holds inst.op

theorem Straight.operand_lt (h : d.Straight) {e : InstId} {inst : Inst}
    (he : d.builder.func.insts[e]? = some inst) {j : InstId} (hj : .inst j ∈ inst.op.operands) :
    j < d.builder.func.numInsts :=
  (h.listed j).mp ((h.ordered e inst he j hj).subset List.mem_cons_self)

theorem Straight.entry_lt (h : d.Straight) : d.entry < d.builder.func.numBlocks := by
  rw [h.entry, h.single]
  exact Nat.one_pos

theorem straight_empty (scope : Scope) (program func : String) :
    (Draft.empty scope program func).Straight := by
  refine ⟨rfl, rfl, rfl, fun t ht => ?_, ?_, fun e => ?_, List.nodup_nil, ?_, ?_⟩
  · cases ht
  · simp [empty, Builder.empty, Function.empty]
  · exact ⟨fun he => absurd he List.not_mem_nil, fun he => absurd he (Nat.not_lt_zero e)⟩
  · simp [empty, Builder.empty, Function.empty]
  · simp [empty, Builder.empty, Function.empty]

theorem Straight.of_builder (h : d.Straight) (hb : d'.builder = d.builder)
    (hg : d.program.globals <+: d'.program.globals)
    (hd : d.program.decls <+: d'.program.decls) : d'.Straight := by
  have hen : d'.entry = d.entry := by rw [Draft.entry, hb]; rfl
  refine ⟨hb ▸ h.single, hen ▸ h.entry, ?_, ?_, ?_, ?_, ?_, ?_, fun e inst he => ?_⟩
  · rw [hen, hb]
    exact h.current
  · rw [hen, hb]
    exact h.ends
  · rw [hen, hb]
    exact h.homed
  · rw [hen, hb]
    exact h.listed
  · rw [hen, hb]
    exact h.nodup
  · rw [hen, hb]
    exact h.ordered
  · rw [hb] at he
    exact (h.holds e inst he).mono hg hd

theorem Straight.ret (h : d.Straight) : d.ret.Straight := by
  unfold Draft.ret Builder.terminateIfOpen
  split
  · exact h
  · refine ⟨?_, h.entry, h.current, fun t ht => ?_, h.homed, ?_, ?_, ?_, h.holds⟩
    · show (d.builder.func.setTerminator d.builder.current .ret).numBlocks = 1
      rw [Function.setTerminator_numBlocks, h.single]
    · have ht : (d.builder.func.setTerminator d.builder.current .ret).terminator? d.entry
          = some t := ht
      rw [h.current, Function.setTerminator_terminator? _ h.entry_lt] at ht
      exact (Option.some.inj ht).symm
    · intro e
      show e ∈ (d.builder.func.setTerminator d.builder.current .ret).instsOf d.entry ↔ _
      rw [Function.setTerminator_instsOf]
      exact h.listed e
    · show ((d.builder.func.setTerminator d.builder.current .ret).instsOf d.entry).Nodup
      rw [Function.setTerminator_instsOf]
      exact h.nodup
    · intro e inst he j hj
      show [j, e].Sublist ((d.builder.func.setTerminator d.builder.current .ret).instsOf d.entry)
      rw [Function.setTerminator_instsOf]
      exact h.ordered e inst he j hj

structure Inserts (d : Draft) (pos : Nat) (ty : TypeId) (op : Operation) (d' : Draft) : Prop where
  func : d'.builder.func = (d.builder.func.insertAt d.entry pos ty op).2
  current : d'.builder.current = d.builder.current
  program : d'.program = d.program

section Inserts

variable {pos : Nat} {ty : TypeId} {op : Operation}

section

variable (h : d.Inserts pos ty op d')
include h

theorem Inserts.entry : d'.entry = d.entry := by
  rw [Draft.entry, h.func]
  rfl

theorem Inserts.numInsts : d'.builder.func.numInsts = d.builder.func.numInsts + 1 := by
  rw [h.func, Function.insertAt_numInsts]

theorem Inserts.cases {e : InstId} {inst : Inst} (he : d'.builder.func.insts[e]? = some inst) :
    d.builder.func.insts[e]? = some inst ∨
      e = d.builder.func.numInsts ∧ inst = ⟨op, ty, d.entry⟩ :=
  Function.insertAt_getElem?_cases (h.func ▸ he)

theorem Inserts.instsOf (hs : d.Straight) :
    d'.builder.func.instsOf d'.entry = (d.builder.func.instsOf d.entry).take pos ++
      d.builder.func.numInsts :: (d.builder.func.instsOf d.entry).drop pos := by
  rw [h.entry, h.func]
  exact Function.insertAt_instsOf _ _ _ hs.entry_lt

theorem Inserts.sublist :
    (d.builder.func.instsOf d.entry).Sublist (d'.builder.func.instsOf d'.entry) := by
  rw [h.entry, h.func]
  exact Function.sublist_insertAt ..

end

/-- A part stays straight if a new instruction comes behind its operands. -/
theorem Straight.insertAt (h : d.Straight) (hi : d.Inserts pos ty op d')
    (hops : ∀ j, .inst j ∈ op.operands → j ∈ (d.builder.func.instsOf d.entry).take pos)
    (hop : d.program.Holds op) : d'.Straight := by
  have hl := hi.instsOf h
  have hm : ∀ e, e ∈ d'.builder.func.instsOf d'.entry ↔
      e = d.builder.func.numInsts ∨ e ∈ d.builder.func.instsOf d.entry := by
    intro e
    rw [hl]
    conv_rhs => rw [← List.take_append_drop pos (d.builder.func.instsOf d.entry)]
    simp only [List.mem_append, List.mem_cons]
    tauto
  refine ⟨?_, hi.entry.trans h.entry, by rw [hi.current, hi.entry, h.current], fun t ht => ?_,
    fun e inst he => ?_, fun e => ?_, ?_, fun e inst he j hj => ?_, fun e inst he => ?_⟩
  · rw [hi.func, Function.insertAt_numBlocks, h.single]
  · rw [hi.entry, hi.func, Function.insertAt_terminator?] at ht
    exact h.ends t ht
  · rw [hi.entry]
    rcases hi.cases he with ho | ⟨rfl, rfl⟩
    · exact h.homed e inst ho
    · rfl
  · rw [hm, h.listed, hi.numInsts]
    exact (Nat.lt_succ_iff_lt_or_eq.trans or_comm).symm
  · rw [hl]
    refine (List.perm_middle.nodup_iff).mpr (List.nodup_cons.mpr ⟨?_, ?_⟩)
    · rw [List.take_append_drop, h.listed]
      exact Nat.lt_irrefl _
    · rw [List.take_append_drop]
      exact h.nodup
  · rcases hi.cases he with ho | ⟨rfl, rfl⟩
    · exact (h.ordered e inst ho j hj).trans hi.sublist
    · rw [hl]
      exact (List.singleton_sublist.mpr (hops j hj)).append
        (List.singleton_sublist.mpr List.mem_cons_self)
  · rw [hi.program]
    rcases hi.cases he with ho | ⟨rfl, rfl⟩
    · exact h.holds e inst ho
    · exact hop

end Inserts

theorem Straight.setOp (h : d.Straight) {i : InstId} {op : Operation}
    (hops : ∀ j, .inst j ∈ op.operands → [j, i].Sublist (d.builder.func.instsOf d.entry))
    (hop : d.program.Holds op) : (d.setOp i op).Straight := by
  refine ⟨h.single, h.entry, h.current, h.ends, fun e inst he => ?_, fun e => ?_, h.nodup,
    fun e inst he j hj => ?_, fun e inst he => ?_⟩
  · rcases Function.setOp_getElem?_cases he with ⟨ho, -⟩ | ⟨rfl, inst', ho, rfl⟩
    · exact h.homed e inst ho
    · exact h.homed e inst' ho
  · show _ ↔ e < (d.builder.func.setOp i op).numInsts
    rw [Function.setOp_numInsts]
    exact h.listed e
  · rcases Function.setOp_getElem?_cases he with ⟨ho, -⟩ | ⟨rfl, inst', ho, rfl⟩
    · exact h.ordered e inst ho j hj
    · exact hops j hj
  · rcases Function.setOp_getElem?_cases he with ⟨ho, -⟩ | ⟨rfl, inst', ho, rfl⟩
    · exact h.holds e inst ho
    · exact hop

end Draft

end Stagewise
