import Mathlib.Data.List.Nodup
import Stagewise.Function.Edit
import Stagewise.Proofs.Function.Insertion

namespace Stagewise

namespace Function

variable {f f' : Function}

structure Consistent (f : Function) : Prop where
  once : (f.blockIds.flatMap f.instsOf).Perm f.instIds
  homed : f.Homed
  layout : f.layout.Perm f.blockIds

theorem listed_empty (name : String) : (empty name).Listed := by
  have hl : ∀ b, (empty name).instsOf b = [] := fun b => by cases b <;> rfl
  refine ⟨fun e inst he => ?_, fun b e he => ?_, fun b => ?_⟩
  · simp [empty] at he
  · simp [hl] at he
  · simp [hl]

theorem Listed.perm (h : f.Listed) : (f.blockIds.flatMap f.instsOf).Perm f.instIds := by
  have hd : (f.blockIds.flatMap f.instsOf).Nodup := by
    refine List.nodup_flatMap.mpr ⟨fun b _ => h.nodup b, List.nodup_range.imp fun hne i hi hj => ?_⟩
    obtain ⟨inst, hin, rfl⟩ := h.named _ i hi
    obtain ⟨inst', hin', rfl⟩ := h.named _ i hj
    exact hne (congrArg Inst.block (Option.some.inj (hin.symm.trans hin')))
  refine (List.perm_ext_iff_of_nodup hd List.nodup_range).mpr fun i => ?_
  simp only [List.mem_flatMap, blockIds, List.mem_range]
  constructor
  · rintro ⟨b, -, hi⟩
    exact h.lt hi
  · intro hi
    have hm := h.homed i _ (Array.getElem?_eq_getElem hi)
    exact ⟨_, lt_of_mem_instsOf hm, hm⟩

/-- What an edit may do to a function. -/
inductive Change (f : Function) : Function → Prop
  | keep : Change f f
  | addBlock : Change f f.addBlock.2
  | insertAt {b : BlockId} (hb : b < f.numBlocks) (pos : Nat) (ty : TypeId) (op : Operation) :
      Change f (f.insertAt b pos ty op).2
  | setOp (i : InstId) (op : Operation) : Change f (f.setOp i op)
  | setTerminator (b : BlockId) (t : Terminator) : Change f (f.setTerminator b t)
  | moveToEnd {b : BlockId} (hb : b < f.numBlocks) : Change f (f.moveToEnd b)
  | close : Change f f.close

/-- Changes that touch neither the instructions nor the lists of the blocks. -/
theorem Listed.of_eq (h : f.Listed) (hi : f'.insts = f.insts) (hl : ∀ b, f'.instsOf b = f.instsOf b) :
    f'.Listed := by
  refine ⟨fun e inst he => ?_, fun b e he => ?_, fun b => ?_⟩
  · rw [hl]
    exact h.homed e inst (hi ▸ he)
  · rw [hi]
    exact h.named b e (hl b ▸ he)
  · rw [hl]
    exact h.nodup b

theorem Change.listed (h : Change f f') (hf : f.Listed) : f'.Listed := by
  cases h with
  | keep => exact hf
  | addBlock => exact hf.of_eq rfl f.addBlock_instsOf
  | insertAt hb pos ty op => exact hf.insertAt hb pos ty op
  | setOp i op => exact hf.setOp i op
  | setTerminator b t => exact hf.of_eq rfl fun c => f.setTerminator_instsOf b c t
  | moveToEnd _ => exact hf.of_eq rfl fun _ => rfl
  | close => exact hf.of_eq rfl f.close_instsOf

theorem Change.sublist (h : Change f f') (b : BlockId) : (f.instsOf b).Sublist (f'.instsOf b) := by
  cases h with
  | keep | setOp i op | moveToEnd hb => exact .refl _
  | addBlock => rw [addBlock_instsOf]
  | insertAt hb pos ty op => exact f.sublist_insertAt ..
  | setTerminator c t => rw [setTerminator_instsOf]
  | close => rw [close_instsOf]

theorem Change.layout (h : Change f f') (hf : f.layout.Perm f.blockIds) :
    f'.layout.Perm f'.blockIds := by
  cases h with
  | keep | setOp i op => exact hf
  | addBlock =>
    rw [blockIds, addBlock_numBlocks, List.range_succ]
    exact hf.append_right _
  | insertAt hb pos ty op => rwa [blockIds, insertAt_numBlocks]
  | setTerminator c t => rwa [blockIds, setTerminator_numBlocks]
  | close => rwa [blockIds, close_numBlocks]
  | moveToEnd hb =>
    -- a block that is laid out once is taken out and put back
    have hn : f.layout.Nodup := hf.nodup_iff.mpr List.nodup_range
    have hm := hf.mem_iff.mpr (List.mem_range.mpr hb)
    refine (List.perm_append_singleton ..).trans (.trans ?_ hf)
    rw [← hn.erase_eq_filter]
    exact (List.perm_cons_erase hm).symm

theorem Listed.insertBefore_places (h : f.Listed) {anchor : InstId} (ha : anchor < f.numInsts)
    (ty : TypeId) (op : Operation) : ∃ inst before after, f.insts[anchor]? = some inst ∧
      f.instsOf inst.block = before ++ anchor :: after ∧
      (f.instsOf inst.block).findIdx? (· == anchor) = some before.length ∧
      (f.insertBefore anchor ty op).2.instsOf inst.block
        = before ++ (f.insertBefore anchor ty op).1 :: anchor :: after := by
  have hin := Array.getElem?_eq_getElem ha
  have hm := h.homed anchor _ hin
  obtain ⟨before, after, hl, hn⟩ := List.eq_append_cons_of_mem hm
  refine ⟨_, before, after, hin, hl, findIdx?_anchor hl hn, ?_⟩
  rw [insertBefore_eq ty op hin hl hn, insertAt_instsOf _ _ _ (lt_of_mem_instsOf hm), hl, List.take_left,
    List.drop_left]
  rfl

end Function

/-- An edit that can be made and names only blocks of the function. -/
def Edit.inRange (b : Builder) (e : Edit) : Bool :=
  e.applies b && match e with
    | .positionAt block => block < b.func.numBlocks
    | .moveToEnd block => block < b.func.numBlocks
    | _ => true

theorem Edit.change_perform {b : Builder} {e : Edit} (h : e.inRange b = true) :
    b.func.Change (e.perform b).2.func := by
  obtain ⟨ha, hb⟩ := Bool.and_eq_true_iff.mp h
  cases e with
  | newBlock => exact .addBlock
  | positionAt block => exact .keep
  | emit ty op => exact .insertAt (of_decide_eq_true ha) ..
  | terminate t | setTerminator block t => exact .setTerminator ..
  | append block ty op | insertAt block pos ty op => exact .insertAt (of_decide_eq_true ha) ..
  | insertBefore anchor ty op =>
    obtain ⟨inst, hin, hlt⟩ := (Option.any_eq_true _ _).mp ha
    obtain ⟨pos, heq⟩ := Function.exists_insertBefore_eq ty op hin
    rw [perform, heq]
    exact .insertAt (of_decide_eq_true hlt) ..
  | setOp inst op => exact .setOp ..
  | moveToEnd block => exact .moveToEnd (of_decide_eq_true hb)

namespace Builder

variable {b c : Builder}

/-- A builder after edits in range. What a function is after it was finished may be edited too. -/
inductive Edited (b : Builder) : Builder → Prop
  | refl : Edited b b
  | edit {c : Builder} {e : Edit} : Edited b c → e.inRange c = true → Edited b (e.perform c).2
  | finish {c : Builder} : Edited b c → Edited b { c with func := c.finish }

theorem Edited.induction {P : Function → Prop} (h : Edited b c) (hb : P b.func)
    (hs : ∀ f f', f.Change f' → P f → P f') : P c.func := by
  induction h with
  | refl => exact hb
  | edit _ he ih => exact hs _ _ (Edit.change_perform he) ih
  | finish _ ih => exact hs _ _ .close ih

/-- After any edits in range, and when the function is finished, it is consistent, what was in a block
is there in the same order, and an insertion before an instruction finds it. All blocks end then. -/
theorem Edited.stays_consistent {name : String} (hb : (empty name).Edited b) (hc : b.Edited c) :
    c.func.Consistent ∧ (∀ k, (b.func.instsOf k).Sublist (c.func.instsOf k)) ∧
      (∀ anchor < c.func.numInsts, ∀ ty op, ∃ inst before after, c.func.insts[anchor]? = some inst ∧
        c.func.instsOf inst.block = before ++ anchor :: after ∧
        (c.func.instsOf inst.block).findIdx? (· == anchor) = some before.length ∧
        (c.func.insertBefore anchor ty op).2.instsOf inst.block
          = before ++ (c.func.insertBefore anchor ty op).1 :: anchor :: after) ∧
      c.finish.Consistent ∧ ∀ k < c.finish.numBlocks, c.finish.isTerminated k = true := by
  have hs : ∀ f f' : Function, f.Change f' → f.Listed ∧ f.layout.Perm f.blockIds →
      f'.Listed ∧ f'.layout.Perm f'.blockIds := fun f f' hc hf => ⟨hc.listed hf.1, hc.layout hf.2⟩
  have hf := hc.induction (hb.induction ⟨Function.listed_empty name, .refl _⟩ hs) hs
  have hcl := hs _ _ .close hf
  refine ⟨⟨hf.1.perm, hf.1.homed, hf.2⟩, fun k => ?_, fun anchor ha => hf.1.insertBefore_places ha,
    ⟨hcl.1.perm, hcl.1.homed, hcl.2⟩, fun k hk => ?_⟩
  · exact hc.induction (P := fun f => (b.func.instsOf k).Sublist (f.instsOf k)) (.refl _)
      fun _ _ hch hl => hl.trans (hch.sublist k)
  · have ht := Function.close_terminator? (c.func.close_numBlocks ▸ hk)
    exact Option.isSome_iff_exists.mpr ⟨_, ht⟩

def twoInsts : Builder :=
  (Edit.perform (Edit.perform (empty "main") (.emit .bool (.phi []))).2
    (.append 0 .int (.unary .neg (.inst 0)))).2

theorem stays_consistent_twoInsts : ∃ c, (empty "main").Edited twoInsts ∧ twoInsts.Edited c ∧
    twoInsts.func.instsOf 0 = [0, 1] ∧ c.func.instsOf 0 = [3, 0, 2, 1] ∧ c.func.layout = [1, 0] ∧
    c.func.Consistent := by
  have hb : (empty "main").Edited twoInsts := (Edited.refl.edit rfl).edit rfl
  have hc : twoInsts.Edited _ := (((Edited.refl.edit (e := .newBlock) rfl).edit
    (e := .insertBefore 1 .int (.phi [])) rfl).edit (e := .insertAt 0 0 .int (.phi [])) rfl).edit
    (e := .moveToEnd 0) rfl
  exact ⟨_, hb, hc, rfl, rfl, rfl, (hb.stays_consistent hc).1⟩

end Builder

end Stagewise
