import Stagewise.Proofs.Ssa

namespace Stagewise

namespace Function

def spread (f : Function) (d : BlockId) (seen : List BlockId) : List BlockId :=
  seen ++ (seen.flatMap f.successors).filter fun w => w != d && !seen.contains w

def reachedAround (f : Function) (d : BlockId) : List BlockId :=
  f.blockIds.foldl (fun seen _ => f.spread d seen) (if f.entry == d then [] else [f.entry])

def completeAround (f : Function) (d : BlockId) (seen : List BlockId) : Bool :=
  (f.entry == d || seen.contains f.entry) &&
    seen.all fun v => (f.successors v).all fun w => w == d || seen.contains w

def testDominates (f : Function) (d b : BlockId) : Bool :=
  f.completeAround d (f.reachedAround d) && !(f.reachedAround d).contains b

def testDefinedAbove (f : Function) (b : BlockId) (i : InstId) : Bool :=
  f.blockIds.any fun d => d != b && f.testDominates d b && (f.instsOf d).contains i

def testDefinedAtEnd (f : Function) (b : BlockId) (i : InstId) : Bool :=
  f.blockIds.any fun d => f.testDominates d b && (f.instsOf d).contains i

end Function

def Value.testInRange (p : Program) (f : Function) : Value → Bool
  | .inst i => i < f.numInsts
  | .global g => g < p.numGlobals
  | .const _ => true

def Value.testInst (test : InstId → Bool) : Value → Bool
  | .inst i => test i
  | _ => true

namespace Function

def testInst (p : Program) (f : Function) (inst : Inst) : Bool :=
  inst.block < f.numBlocks && inst.op.operands.all (Value.testInRange p f) &&
    (match inst.op.address? with
      | some .pending => false
      | some addr => addr.global?.all (· < p.numGlobals)
      | none => true) &&
    match inst.op with
    | .call (.direct callee) _ => callee < p.decls.length
    | .phi incoming => incoming.all (·.1 < f.numBlocks)
    | _ => true

/-- Whether the operands of the instructions of a block, after some others, are defined. -/
def testOperands (f : Function) (b : BlockId) : List InstId → List InstId → Bool
  | _, [] => true
  | before, i :: after =>
    (match f.insts[i]? with
      | some ⟨.phi incoming, _, _⟩ =>
        incoming.all fun e => e.2.testInst (f.testDefinedAtEnd e.1)
      | some inst =>
        inst.op.operands.all (Value.testInst fun j => before.contains j || f.testDefinedAbove b j)
      | none => true) && testOperands f b (before ++ [i]) after

def testBlock (p : Program) (f : Function) (b : BlockId) : Bool :=
  (f.successors b).all (· < f.numBlocks) &&
    (f.instsOf b).all (fun i => (f.insts[i]?).any (·.block == b)) &&
    decide (f.instsOf b).Nodup &&
    ((f.cond? b).all fun v => v.testInRange p f && v.testInst (f.testDefinedAtEnd b)) &&
    f.testOperands b [] (f.instsOf b)

def testSsa (p : Program) (f : Function) : Bool :=
  f.entry < f.numBlocks && f.insts.toList.all (f.testInst p) && f.blockIds.all (f.testBlock p)

variable {p : Program} {f : Function} {d b : BlockId} {i : InstId} {v : Value} {inst : Inst}

theorem dominates_of_test (h : f.testDominates d b = true) : f.Dominates d b := by
  simp only [testDominates, completeAround, Bool.and_eq_true, Bool.or_eq_true, List.all_eq_true,
    beq_iff_eq, List.contains_iff_mem, Bool.not_eq_true'] at h
  obtain ⟨⟨he, hs⟩, hb⟩ := h
  have ha : ∀ v, f.ReachedAround d v → v ∈ f.reachedAround d := by
    intro v hv
    induction hv with
    | entry hne => exact he.resolve_left hne
    | step _ hne hw ih => exact (hs _ ih _ hw).resolve_left hne
  intro hr
  have := ha b hr
  rw [← List.contains_iff_mem] at this
  rw [hb] at this
  exact absurd this (by simp)

theorem definedAbove_of_test (h : f.testDefinedAbove b i = true) : f.DefinedAbove b i := by
  simp only [testDefinedAbove, List.any_eq_true, Bool.and_eq_true, bne_iff_ne,
    List.contains_iff_mem] at h
  obtain ⟨d, -, ⟨hne, hd⟩, hi⟩ := h
  exact ⟨d, hne, dominates_of_test hd, hi⟩

theorem definedAtEnd_of_test (h : f.testDefinedAtEnd b i = true) : f.DefinedAtEnd b i := by
  simp only [testDefinedAtEnd, List.any_eq_true, Bool.and_eq_true, List.contains_iff_mem] at h
  obtain ⟨d, -, hd, hi⟩ := h
  exact ⟨d, dominates_of_test hd, hi⟩

theorem inRange_of_test (h : v.testInRange p f = true) : v.InRange p f := by
  cases v with
  | inst i | global g => simpa [Value.testInRange, Value.InRange] using h
  | const c => trivial

theorem instInRange_of_test (h : f.testInst p inst = true) : f.InstInRange p inst := by
  simp only [testInst, Bool.and_eq_true, decide_eq_true_eq, List.all_eq_true] at h
  obtain ⟨⟨⟨hh, ho⟩, had⟩, hr⟩ := h
  refine ⟨hh, fun v hv => inRange_of_test (ho v hv), ?_, ?_, ?_, ?_⟩
  · intro addr g ha hg
    rw [ha] at had
    cases addr with
    | pending => simp at had
    | member g' path | element g' path => simpa [hg] using had
  · intro ha
    rw [ha] at had
    simp at had
  · intro callee args hop
    rw [hop] at hr
    simpa using hr
  · intro incoming hop e he
    rw [hop] at hr
    simp only [List.all_eq_true, decide_eq_true_eq] at hr
    exact hr e he

/-- The test of a block comes to each instruction with those before it as the ones defined. -/
theorem testOperands_append {before earlier after : List InstId}
    (h : f.testOperands b before (earlier ++ i :: after) = true) (hi : f.insts[i]? = some inst) :
    (∀ incoming, inst.op = .phi incoming → ∀ e ∈ incoming, ∀ j, e.2 = .inst j →
      f.DefinedAtEnd e.1 j) ∧
    (inst.op.isPhi = false → ∀ j, .inst j ∈ inst.op.operands →
      j ∈ before ++ earlier ∨ f.DefinedAbove b j) := by
  induction earlier generalizing before with
  | nil =>
    simp only [List.nil_append, testOperands, hi, Bool.and_eq_true] at h
    refine ⟨fun incoming hop e he j hj => ?_, fun hp j hj => ?_⟩
    · obtain ⟨op, ty, block⟩ := inst
      obtain rfl : op = .phi incoming := hop
      simp only [List.all_eq_true] at h
      have := h.1 e he
      rw [hj] at this
      exact definedAtEnd_of_test this
    · obtain ⟨op, ty, block⟩ := inst
      have ha : op.operands.all
          (Value.testInst fun j => before.contains j || f.testDefinedAbove b j) = true := by
        cases op with
        | phi incoming => simp [Operation.isPhi] at hp
        | _ => exact h.1
      have := List.all_eq_true.mp ha (.inst j) hj
      simp only [Value.testInst, Bool.or_eq_true, List.contains_iff_mem] at this
      rw [List.append_nil]
      exact this.imp_right definedAbove_of_test
  | cons k earlier ih =>
    simp only [List.cons_append, testOperands, Bool.and_eq_true] at h
    have := ih h.2
    simpa using this

/-- A function that passes the test is in static single assignment form. -/
theorem ssa_of_test (h : f.testSsa p = true) : f.Ssa p := by
  simp only [testSsa, Bool.and_eq_true, decide_eq_true_eq, List.all_eq_true, blockIds,
    List.mem_range] at h
  obtain ⟨⟨hen, hins⟩, hblo⟩ := h
  have hbl : ∀ b, f.testBlock p b = true := by
    intro b
    by_cases hb : b < f.numBlocks
    · exact hblo b hb
    · have hn : f.blocks[b]? = none := Array.getElem?_eq_none_iff.mpr (Nat.not_lt.mp hb)
      simp [testBlock, successors, terminator?, cond?, instsOf, hn, testOperands]
  simp only [testBlock, Bool.and_eq_true, List.all_eq_true, decide_eq_true_eq] at hbl
  have hl : ∀ b, ∀ i ∈ f.instsOf b, ∃ inst, f.insts[i]? = some inst ∧ inst.block = b := by
    intro b i hi
    have ha := (hbl b).1.1.1.2 i hi
    cases hin : f.insts[i]? with
    | none => simp [hin] at ha
    | some inst => exact ⟨inst, rfl, by simpa [hin] using ha⟩
  have hc : ∀ b v, f.cond? b = some v →
      v.testInRange p f = true ∧ v.testInst (f.testDefinedAtEnd b) = true := by
    intro b v hv
    have := (hbl b).1.2
    simpa [hv] using this
  refine ⟨hen, ?_, ?_, hl, fun b => (hbl b).1.1.2, ?_, ?_, ?_, ?_⟩
  · intro b t ht
    exact (hbl b).1.1.1.1 t ht
  · intro i inst hin
    obtain ⟨hlt, rfl⟩ := Array.getElem?_eq_some_iff.mp hin
    exact instInRange_of_test (hins _ (Array.getElem_mem_toList hlt))
  · intro b v hv
    exact inRange_of_test (hc b v hv).1
  · intro b before i after inst hb hin hp j hj
    have := (hbl b).2
    rw [hb] at this
    exact (testOperands_append this hin).2 hp j hj
  · intro b i inst incoming hi hin hop e he j hj
    obtain ⟨before, after, hb⟩ := List.append_of_mem hi
    have := (hbl b).2
    rw [hb] at this
    exact (testOperands_append this hin).1 incoming hop e he j hj
  · intro b j hj
    exact definedAtEnd_of_test (hc b _ hj).2

end Function

end Stagewise
