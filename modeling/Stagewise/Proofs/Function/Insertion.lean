import Stagewise.Proofs.Function.Editing

namespace Stagewise

namespace Function

variable {f f' : Function} {anchor : InstId} {inst : Inst} {before after : List InstId}
  {ops : List (TypeId × Operation)} {b : BlockId}

/-- The lists of the blocks hold the instructions of the function, each once and in the block that it
names. -/
structure Listed (f : Function) : Prop where
  homed : f.Homed
  named : ∀ b, ∀ i ∈ f.instsOf b, ∃ inst, f.insts[i]? = some inst ∧ inst.block = b
  nodup : ∀ b, (f.instsOf b).Nodup

theorem Listed.lt (h : f.Listed) {i : InstId} (hi : i ∈ f.instsOf b) : i < f.numInsts := by
  obtain ⟨inst, hin, -⟩ := h.named b i hi
  exact (Array.getElem?_eq_some_iff.mp hin).1

theorem Listed.insertAt (h : f.Listed) (hb : b < f.numBlocks) (pos : Nat) (ty : TypeId)
    (op : Operation) : (f.insertAt b pos ty op).2.Listed := by
  refine ⟨h.homed.insertAt _ _ _ hb, fun c i hi => ?_, fun c => ?_⟩
  · by_cases hc : c = b ∧ i = f.numInsts
    · obtain ⟨rfl, rfl⟩ := hc
      exact ⟨_, insertAt_getElem?_insts_self .., rfl⟩
    · have ho : i ∈ f.instsOf c := by
        by_cases hcb : c = b
        · subst hcb
          rw [insertAt_instsOf _ _ _ hb, List.mem_append, List.mem_cons] at hi
          rcases hi with hi | rfl | hi
          · exact List.mem_of_mem_take hi
          · exact absurd ⟨rfl, rfl⟩ hc
          · exact List.mem_of_mem_drop hi
        · rwa [insertAt_instsOf_ne _ _ _ hcb] at hi
      rw [insertAt_getElem?_insts _ _ _ _ (h.lt ho)]
      exact h.named c i ho
  · by_cases hc : c = b
    · subst hc
      rw [insertAt_instsOf _ _ _ hb, List.perm_middle.nodup_iff, List.take_append_drop]
      exact List.nodup_cons.mpr ⟨fun hm => Nat.lt_irrefl _ (h.lt hm), h.nodup c⟩
    · rw [insertAt_instsOf_ne _ _ _ hc]
      exact h.nodup c

theorem exists_insertBefore_eq (ty : TypeId) (op : Operation) (hin : f.insts[anchor]? = some inst) :
    ∃ pos, f.insertBefore anchor ty op = f.insertAt inst.block pos ty op :=
  ⟨_, by rw [insertBefore, hin, Option.elim_some]⟩

theorem findIdx?_anchor {l : List InstId} (hl : l = before ++ anchor :: after) (hn : anchor ∉ before) :
    l.findIdx? (· == anchor) = some before.length := by
  rw [hl, List.findIdx?_append, List.findIdx?_eq_none_iff.mpr]
  · simp [List.findIdx?_cons]
  · intro i hi
    exact beq_eq_false_iff_ne.mpr fun heq => hn (heq ▸ hi)

theorem insertBefore_eq (ty : TypeId) (op : Operation) (hin : f.insts[anchor]? = some inst)
    (hl : f.instsOf inst.block = before ++ anchor :: after) (hn : anchor ∉ before) :
    f.insertBefore anchor ty op = f.insertAt inst.block before.length ty op := by
  simp [insertBefore, hin, findIdx?_anchor hl hn]

def insertAllBefore (f : Function) (anchor : InstId) (ops : List (TypeId × Operation)) : Function :=
  ops.foldl (fun f e => (f.insertBefore anchor e.1 e.2).2) f

theorem Listed.insertAllBefore (h : f.Listed) (hin : f.insts[anchor]? = some inst)
    (ops : List (TypeId × Operation)) : (f.insertAllBefore anchor ops).Listed := by
  induction ops generalizing f with
  | nil => exact h
  | cons e ops ih =>
    have ha : anchor < f.numInsts := (Array.getElem?_eq_some_iff.mp hin).1
    have hb : inst.block < f.numBlocks := lt_of_mem_instsOf (h.homed anchor inst hin)
    obtain ⟨pos, hf⟩ := exists_insertBefore_eq e.1 e.2 hin
    refine ih (f := (f.insertBefore anchor e.1 e.2).2) ?_ ?_
    · exact hf ▸ h.insertAt hb _ _ _
    · exact hf ▸ (insertAt_getElem?_insts _ _ _ _ ha).trans hin

/-- Some operations stand directly before an instruction, in order, and all else is as it was. -/
structure PutBefore (f : Function) (inst : Inst) (before : List InstId) (anchor : InstId)
    (after : List InstId) (ops : List (TypeId × Operation)) (f' : Function) : Prop where
  name : f'.name = f.name
  entry : f'.entry = f.entry
  layout : f'.layout = f.layout
  numBlocks : f'.numBlocks = f.numBlocks
  numInsts : f'.numInsts = f.numInsts + ops.length
  terminator? : ∀ b, f'.terminator? b = f.terminator? b
  list : f'.instsOf inst.block
    = before ++ List.range' f.numInsts ops.length ++ anchor :: after
  other : ∀ b, b ≠ inst.block → f'.instsOf b = f.instsOf b
  kept : ∀ e < f.numInsts, f'.insts[e]? = f.insts[e]?
  added : ∀ k ty op, ops[k]? = some (ty, op) →
    f'.insts[f.numInsts + k]? = some ⟨op, ty, inst.block⟩

/-- Each operation is put before the anchor, and so behind those that were put there first. -/
theorem putBefore_insertAllBefore (ops : List (TypeId × Operation))
    (hin : f.insts[anchor]? = some inst)
    (hl : f.instsOf inst.block = before ++ anchor :: after) (hne : anchor ∉ before) :
    PutBefore f inst before anchor after ops (f.insertAllBefore anchor ops) := by
  induction ops generalizing f before with
  | nil =>
    refine ⟨rfl, rfl, rfl, rfl, rfl, fun _ => rfl, ?_, fun _ _ => rfl, fun _ _ => rfl, by simp⟩
    simpa [insertAllBefore] using hl
  | cons e ops ih =>
    have hh : inst.block < f.numBlocks :=
      lt_of_mem_instsOf (i := anchor) (by simp [hl])
    have ha : anchor < f.numInsts := (Array.getElem?_eq_some_iff.mp hin).1
    have hf := insertBefore_eq e.1 e.2 hin hl hne
    -- the first operation is put there, and the others before the same instruction
    have hl' : (f.insertAt inst.block before.length e.1 e.2).2.instsOf inst.block
        = (before ++ [f.numInsts]) ++ anchor :: after := by
      rw [insertAt_instsOf _ _ _ hh, hl, List.take_left, List.drop_left]
      simp
    have hn' : anchor ∉ before ++ [f.numInsts] := by
      rw [List.mem_append, List.mem_singleton, not_or]
      exact ⟨hne, Nat.ne_of_lt ha⟩
    have hi' : (f.insertAt inst.block before.length e.1 e.2).2.insts[anchor]? = some inst := by
      rw [insertAt_getElem?_insts _ _ _ _ ha, hin]
    obtain ⟨hn, he, hla, hbl, hins, hen, hal, ho, hke, had⟩ :=
      ih hi' hl' hn'
    have heq : f.insertAllBefore anchor (e :: ops)
        = (f.insertAt inst.block before.length e.1 e.2).2.insertAllBefore anchor ops := by
      rw [insertAllBefore, List.foldl_cons, hf, insertAllBefore]
    rw [heq]
    rw [insertAt_numInsts] at hins hke had hal
    refine ⟨hn, he, hla, hbl.trans (insertAt_numBlocks ..), ?_, fun b => ?_, ?_,
      fun b hb => ?_, fun i hi => ?_, fun k ty op hk => ?_⟩
    · rw [hins, List.length_cons]
      omega
    · rw [hen, insertAt_terminator?]
    · rw [hal, List.length_cons, List.range'_succ]
      simp
    · rw [ho b hb, insertAt_instsOf_ne _ _ _ hb]
    · rw [hke i (by omega), insertAt_getElem?_insts _ _ _ _ hi]
    · cases k with
      | zero =>
        obtain rfl : e = (ty, op) := by simpa using hk
        rw [Nat.add_zero, hke f.numInsts (by omega)]
        exact insertAt_getElem?_insts_self ..
      | succ k =>
        have hlat := had k ty op (by simpa using hk)
        rwa [Nat.add_assoc, Nat.add_comm 1 k] at hlat

theorem Listed.setOp (h : f.Listed) (i : InstId) (op : Operation) : (f.setOp i op).Listed := by
  refine ⟨fun e inst he => ?_, fun b e he => ?_, h.nodup⟩
  · rcases setOp_getElem?_cases he with ⟨ho, -⟩ | ⟨-, inst', ho, rfl⟩
    · exact h.homed e inst ho
    · exact h.homed e inst' ho
  · obtain ⟨inst, hi, hb⟩ := h.named b e he
    rw [setOp_getElem?_insts, hi]
    split
    · exact ⟨_, rfl, hb⟩
    · exact ⟨_, rfl, hb⟩

end Function

end Stagewise
