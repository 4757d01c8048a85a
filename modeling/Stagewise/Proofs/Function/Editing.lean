import Mathlib.Data.List.Basic
import Stagewise.Function.Builder

namespace Stagewise

namespace Function

variable (f : Function) (b c : BlockId) (pos : Nat) (ty : TypeId) (op : Operation)
  (t : Terminator) (i e : InstId) {inst : Inst}

@[simp] theorem append_fst : (f.append b ty op).1 = f.numInsts := rfl

@[simp] theorem insertAt_numBlocks : (f.insertAt b pos ty op).2.numBlocks = f.numBlocks := by
  simp [insertAt, numBlocks]

@[simp] theorem append_numBlocks : (f.append b ty op).2.numBlocks = f.numBlocks :=
  f.insertAt_numBlocks ..

@[simp] theorem insertAt_numInsts : (f.insertAt b pos ty op).2.numInsts = f.numInsts + 1 := by
  simp [insertAt, numInsts]

@[simp] theorem append_numInsts : (f.append b ty op).2.numInsts = f.numInsts + 1 :=
  f.insertAt_numInsts ..

theorem insertAt_terminator? : (f.insertAt b pos ty op).2.terminator? c = f.terminator? c := by
  simp only [insertAt, terminator?, Array.getElem?_modify]
  split
  · next h =>
    subst h
    cases f.blocks[b]? <;> rfl
  · rfl

theorem append_terminator? : (f.append b ty op).2.terminator? c = f.terminator? c :=
  f.insertAt_terminator? ..

theorem instsOf_eq_nil {f : Function} {b : BlockId} (h : f.numBlocks ≤ b) : f.instsOf b = [] := by
  simp [instsOf, Array.getElem?_eq_none h]

theorem lt_of_mem_instsOf {f : Function} {b : BlockId} {i : InstId}
    (h : i ∈ f.instsOf b) : b < f.numBlocks := by
  by_contra hb
  rw [instsOf_eq_nil (Nat.not_lt.mp hb)] at h
  cases h

theorem terminator?_eq_none {f : Function} {b : BlockId} (h : f.numBlocks ≤ b) :
    f.terminator? b = none := by
  simp [terminator?, Array.getElem?_eq_none h]

theorem insertAt_instsOf_ne {f : Function} {b c : BlockId} (h : c ≠ b) :
    (f.insertAt b pos ty op).2.instsOf c = f.instsOf c := by
  simp [insertAt, instsOf, Array.getElem?_modify, h.symm]

theorem insertAt_instsOf {f : Function} {b : BlockId} (h : b < f.numBlocks) :
    (f.insertAt b pos ty op).2.instsOf b
      = (f.instsOf b).take pos ++ f.numInsts :: (f.instsOf b).drop pos := by
  have hb : f.blocks[b]? = some f.blocks[b] := Array.getElem?_eq_getElem h
  simp [insertAt, instsOf, Array.getElem?_modify, hb]

theorem append_instsOf_ne {f : Function} {b c : BlockId} (h : c ≠ b) :
    (f.append b ty op).2.instsOf c = f.instsOf c := insertAt_instsOf_ne _ _ _ h

theorem append_instsOf {f : Function} {b : BlockId} (h : b < f.numBlocks) :
    (f.append b ty op).2.instsOf b = f.instsOf b ++ [f.numInsts] := by
  rw [append, insertAt_instsOf _ _ _ h, List.take_length, List.drop_length]

theorem insertAt_getElem?_insts_self :
    (f.insertAt b pos ty op).2.insts[f.numInsts]? = some ⟨op, ty, b⟩ := by
  simp [insertAt, numInsts]

theorem insertAt_getElem?_insts {f : Function} {e : InstId} (h : e < f.numInsts) :
    (f.insertAt b pos ty op).2.insts[e]? = f.insts[e]? := by
  simp only [insertAt]
  exact Array.getElem?_push_lt h ▸ (Array.getElem?_eq_getElem h).symm

theorem insertAt_getElem?_cases {f : Function} {b : BlockId} {pos : Nat} {ty : TypeId}
    {op : Operation} {e : InstId} (he : (f.insertAt b pos ty op).2.insts[e]? = some inst) :
    f.insts[e]? = some inst ∨ e = f.numInsts ∧ inst = ⟨op, ty, b⟩ := by
  by_cases hlt : e < f.numInsts
  · exact .inl ((insertAt_getElem?_insts _ _ _ _ hlt).symm.trans he)
  · have hs : e < (f.insertAt b pos ty op).2.numInsts := (Array.getElem?_eq_some_iff.mp he).1
    rw [insertAt_numInsts] at hs
    obtain rfl : e = f.numInsts := Nat.le_antisymm (Nat.lt_succ_iff.mp hs) (Nat.not_lt.mp hlt)
    rw [insertAt_getElem?_insts_self] at he
    exact .inr ⟨rfl, (Option.some.inj he).symm⟩

theorem append_getElem?_insts_self :
    (f.append b ty op).2.insts[f.numInsts]? = some ⟨op, ty, b⟩ :=
  f.insertAt_getElem?_insts_self ..

theorem append_getElem?_insts {f : Function} {e : InstId} (h : e < f.numInsts) :
    (f.append b ty op).2.insts[e]? = f.insts[e]? := insertAt_getElem?_insts _ _ _ _ h

@[simp] theorem addBlock_numBlocks : f.addBlock.2.numBlocks = f.numBlocks + 1 := by
  simp [addBlock, numBlocks]

theorem addBlock_terminator? : f.addBlock.2.terminator? c = f.terminator? c := by
  simp only [addBlock, terminator?, Array.getElem?_push, numBlocks]
  split
  · next h =>
    subst h
    simp
  · rfl

theorem addBlock_instsOf : f.addBlock.2.instsOf c = f.instsOf c := by
  simp only [addBlock, instsOf, Array.getElem?_push, numBlocks]
  split
  · next h =>
    subst h
    simp
  · rfl

@[simp] theorem setTerminator_numBlocks : (f.setTerminator b t).numBlocks = f.numBlocks := by
  simp [setTerminator, numBlocks]

theorem setTerminator_terminator? {f : Function} {b : BlockId} (h : b < f.numBlocks) :
    (f.setTerminator b t).terminator? b = some t := by
  have hb : f.blocks[b]? = some f.blocks[b] := Array.getElem?_eq_getElem h
  simp [setTerminator, terminator?, Array.getElem?_modify, hb]

theorem setTerminator_terminator?_ne {f : Function} {b c : BlockId} (h : c ≠ b) :
    (f.setTerminator b t).terminator? c = f.terminator? c := by
  simp [setTerminator, terminator?, Array.getElem?_modify, h.symm]

theorem setTerminator_instsOf : (f.setTerminator b t).instsOf c = f.instsOf c := by
  simp only [setTerminator, instsOf, Array.getElem?_modify]
  split
  · next h =>
    subst h
    cases f.blocks[b]? <;> rfl
  · rfl

@[simp] theorem setOp_numInsts : (f.setOp i op).numInsts = f.numInsts := by
  simp [setOp, numInsts]

theorem setOp_getElem?_insts :
    (f.setOp i op).insts[e]?
      = if i = e then f.insts[e]?.map fun inst => { inst with op := op } else f.insts[e]? := by
  simp [setOp, Array.getElem?_modify]

theorem setOp_getElem?_cases {f : Function} {i e : InstId} {op : Operation}
    (h : (f.setOp i op).insts[e]? = some inst) :
    f.insts[e]? = some inst ∧ e ≠ i ∨
      e = i ∧ ∃ inst', f.insts[e]? = some inst' ∧ inst = { inst' with op := op } := by
  rw [setOp_getElem?_insts] at h
  split at h
  · next heq =>
    obtain ⟨inst', ho, hn⟩ := Option.map_eq_some_iff.mp h
    exact .inr ⟨heq.symm, inst', ho, hn.symm⟩
  · next hne => exact .inl ⟨h, Ne.symm hne⟩

theorem close_instsOf : f.close.instsOf c = f.instsOf c := by
  simp only [close, instsOf, Array.getElem?_map]
  cases f.blocks[c]? <;> rfl

theorem close_terminator? {f : Function} {b : BlockId} (h : b < f.numBlocks) :
    f.close.terminator? b = some ((f.terminator? b).getD .ret) := by
  have hb : f.blocks[b]? = some f.blocks[b] := Array.getElem?_eq_getElem h
  simp [close, terminator?, hb]

@[simp] theorem close_numBlocks : f.close.numBlocks = f.numBlocks := by
  simp [close, numBlocks]

theorem sublist_insertAt : (f.instsOf c).Sublist ((f.insertAt b pos ty op).2.instsOf c) := by
  by_cases hc : c = b
  · subst hc
    by_cases hlt : c < f.numBlocks
    · rw [insertAt_instsOf _ _ _ hlt]
      nth_rewrite 1 [← List.take_append_drop pos (f.instsOf c)]
      exact (List.Sublist.refl _).append (List.sublist_cons_self ..)
    · rw [instsOf_eq_nil (Nat.not_lt.mp hlt)]
      exact List.nil_sublist _
  · rw [insertAt_instsOf_ne _ _ _ hc]

theorem mem_insertAt {f : Function} {b : BlockId} (h : b < f.numBlocks) :
    f.numInsts ∈ (f.insertAt b pos ty op).2.instsOf b := by
  rw [insertAt_instsOf _ _ _ h]
  exact List.mem_append_right _ List.mem_cons_self

def Homed (f : Function) : Prop :=
  ∀ (e : InstId) (inst : Inst), f.insts[e]? = some inst → e ∈ f.instsOf inst.block

section Homed

variable {f : Function} {b : BlockId}

theorem Homed.insertAt (h : f.Homed) (hb : b < f.numBlocks) : (f.insertAt b pos ty op).2.Homed := by
  intro e inst he
  rcases insertAt_getElem?_cases he with ho | ⟨rfl, rfl⟩
  · exact (sublist_insertAt ..).subset (h e inst ho)
  · exact mem_insertAt _ _ _ hb

theorem Homed.addBlock (h : f.Homed) : f.addBlock.2.Homed := by
  intro e inst he
  rw [addBlock_instsOf]
  exact h e inst he

theorem Homed.setTerminator (h : f.Homed) (b : BlockId) (t : Terminator) :
    (f.setTerminator b t).Homed := by
  intro e inst he
  rw [setTerminator_instsOf]
  exact h e inst he

end Homed

end Function

end Stagewise
