import Stagewise.Proofs.Classification.Placement

namespace Stagewise

section Gaps

variable {x y : BitVec 32} {n : Nat}

def unset (x : BitVec 32) : Finset Nat := (Finset.range 32).filter fun k => x.getLsbD k = false

theorem mem_unset {k : Nat} : k ∈ unset x ↔ k < 32 ∧ x.getLsbD k = false := by
  simp [unset]

theorem unset_or_subset (x y : BitVec 32) : unset (x ||| y) ⊆ unset x := by
  intro k hk
  rw [mem_unset, BitVec.getLsbD_or, Bool.or_eq_false_iff] at hk
  exact mem_unset.mpr ⟨hk.1, hk.2.1⟩

theorem card_unset_or_lt (h : x ||| y ≠ x) : (unset (x ||| y)).card < (unset x).card := by
  refine Finset.card_lt_card ⟨unset_or_subset x y, fun hs => h ?_⟩
  refine BitVec.eq_of_getLsbD_eq fun k hk => ?_
  cases hx : x.getLsbD k with
  | true => simp [hx]
  | false => exact (mem_unset.mp (hs (mem_unset.mpr ⟨hk, hx⟩))).2

def gaps (n : Nat) (bits : Nat → BitVec 32) : Nat := ∑ k ∈ Finset.range n, (unset (bits k)).card

theorem gaps_le (n : Nat) (bits : Nat → BitVec 32) : gaps n bits ≤ 32 * n := by
  have hc : ∀ k ∈ Finset.range n, (unset (bits k)).card ≤ 32 := by
    intro k _
    refine (Finset.card_filter_le _ _).trans ?_
    simp
  refine (Finset.sum_le_card_nsmul _ _ 32 hc).trans ?_
  simp [Nat.mul_comm]

section Growing

variable {bits bits' : Nat → BitVec 32} (h : ∀ k, ∃ y, bits' k = bits k ||| y)

include h

theorem gaps_le_gaps (n : Nat) : gaps n bits' ≤ gaps n bits := by
  refine Finset.sum_le_sum fun k _ => ?_
  obtain ⟨y, hy⟩ := h k
  rw [hy]
  exact Finset.card_le_card (unset_or_subset _ _)

theorem gaps_lt_gaps {j : Nat} (hlt : j < n) (hne : bits' j ≠ bits j) :
    gaps n bits' < gaps n bits := by
  refine Finset.sum_lt_sum (fun k _ => ?_) ⟨j, Finset.mem_range.mpr hlt, ?_⟩
  · obtain ⟨y, hy⟩ := h k
    rw [hy]
    exact Finset.card_le_card (unset_or_subset _ _)
  · obtain ⟨y, hy⟩ := h j
    rw [hy] at hne ⊢
    exact card_unset_or_lt hne

end Growing

end Gaps

theorem ScopeSet.isEmpty_diff_iff {x y : ScopeSet} :
    (y.diff x).isEmpty = true ↔ x.bits ||| y.bits = x.bits := by
  have hb : ∀ a b : Bool, (b && !a) = false ↔ (a || b) = a := by decide
  have hn : ∀ k < 32, (y.bits &&& ~~~x.bits).getLsbD k
      = (y.bits.getLsbD k && !x.bits.getLsbD k) := by
    intro k hk
    rw [BitVec.getLsbD_and, BitVec.getLsbD_not, decide_eq_true hk, Bool.true_and]
  rw [isEmpty, beq_iff_eq, show (y.diff x).bits = y.bits &&& ~~~x.bits from rfl]
  constructor <;> intro h <;> refine BitVec.eq_of_getLsbD_eq fun k hk => ?_
  · rw [BitVec.getLsbD_or, ← hb, ← hn k hk, h]
    simp
  · rw [hn k hk, (hb _ _).mpr (by rw [← BitVec.getLsbD_or, h])]
    simp

namespace Classification

variable {t : Classification} {f : Function}

def gaps (t : Classification) (f : Function) : Nat :=
  Stagewise.gaps f.numInsts (fun i => (t.inst i).flags.bits)
    + Stagewise.gaps f.numBlocks (fun b => (t.block b).flags.bits)
    + Stagewise.gaps f.numBlocks (fun b => (t.terminator b).flags.bits)
    + Stagewise.gaps f.numBlocks (fun b => (t.forcedAt b).bits)

theorem gaps_le_learnings (c : Classifier) (t : Classification) : t.gaps c.func ≤ c.learnings := by
  have h1 := Stagewise.gaps_le c.func.numInsts fun i => (t.inst i).flags.bits
  have h2 := Stagewise.gaps_le c.func.numBlocks fun b => (t.block b).flags.bits
  have h3 := Stagewise.gaps_le c.func.numBlocks fun b => (t.terminator b).flags.bits
  have h4 := Stagewise.gaps_le c.func.numBlocks fun b => (t.forcedAt b).bits
  unfold gaps Classifier.learnings
  omega

end Classification

namespace Classifier

variable {c : Classifier} {s s' : State} {w : Work} {work stack : List Work} {t t' : Classification}
  {α : Type}

theorem le_foldl {step : Nat → α → Nat} (hs : ∀ n a, n ≤ step n a) (l : List α) (n : Nat) :
    n ≤ l.foldl step n := by
  induction l generalizing n with
  | nil => exact Nat.le_refl n
  | cons a l ih => exact (hs n a).trans (ih (step n a))

theorem le_foldl_add {step : Nat → α → Nat} (size : α → Nat) (hs : ∀ n a, step n a = n + size a)
    {l : List α} {a : α} (ha : a ∈ l) (n : Nat) : n + size a ≤ l.foldl step n := by
  induction l generalizing n with
  | nil => simp at ha
  | cons b l ih =>
    rw [List.foldl_cons]
    rcases List.mem_cons.mp ha with rfl | ha
    · rw [← hs]
      exact le_foldl (fun m b => by rw [hs]; omega) l _
    · have := ih ha (step n b)
      rw [hs] at this ⊢
      omega

theorem length_dependencies_le (op : Operation) :
    op.dependencies.length ≤ 2 * op.operands.length + 1 := by
  have hn : ∀ vs : List Value, (vs.filterMap Value.node?).length ≤ vs.length :=
    fun vs => List.length_filterMap_le _ _
  unfold Operation.dependencies
  split
  · next addr =>
    have := hn addr.indexValues
    cases addr.global? with
    | none => simp
    | some g =>
      simp only [Option.elim_some, List.length_cons, Operation.operands]
      omega
  · next incoming =>
    have hp : (incoming.flatMap fun e => e.2.node?.toList ++ [Node.block e.1]).length
        ≤ 2 * incoming.length := by
      induction incoming with
      | nil => simp
      | cons e rest ih =>
        have hv : e.2.node?.toList.length ≤ 1 := by cases e.2.node? <;> simp
        simp only [List.flatMap_cons, List.length_append, List.length_cons, List.length_nil]
        omega
    simp only [Operation.operands, List.length_map]
    omega
  · simp
  · have := hn op.operands
    omega

theorem length_parents_le (c : Classifier) (b : BlockId) :
    (c.parents b).length + 1 ≤ c.control.foldl (fun n parents => n + parents.length) 1 := by
  rw [← Array.foldl_toList]
  unfold parents
  cases hb : c.control[b]? with
  | none => exact le_foldl (fun _ _ => Nat.le_add_right _ _) _ _
  | some ps =>
    have := le_foldl_add List.length (fun _ _ => rfl)
      (Array.mem_toList_iff.mpr (Array.mem_of_getElem? hb)) 1
    rw [Option.getD_some]
    omega

theorem length_operands_le {i : InstId} {inst : Inst} (h : c.func.insts[i]? = some inst) :
    2 * inst.op.operands.length + 1
      ≤ c.func.insts.foldl (fun n inst => n + 2 * inst.op.operands.length + 1) 1 := by
  have := le_foldl_add (fun inst : Inst => 2 * inst.op.operands.length + 1)
    (fun n inst => Nat.add_assoc n _ _) (Array.mem_toList_iff.mpr (Array.mem_of_getElem? h)) 1
  rw [Array.foldl_toList] at this
  omega

theorem length_leads_le (c : Classifier) (n : Node) : (c.leads n).length ≤ c.fanIn := by
  have hin : 1 ≤ c.func.insts.foldl (fun n inst => n + 2 * inst.op.operands.length + 1) 1 := by
    rw [← Array.foldl_toList]
    exact le_foldl (fun _ _ => by omega) _ _
  have hc : ∀ b, ((c.func.cond? b).bind Value.node?).toList.length ≤ 1 := fun b => by
    cases (c.func.cond? b).bind Value.node? <;> simp
  unfold fanIn
  cases n with
  | global g => exact Nat.zero_le _
  | block b | terminator b =>
    have h1 := hc b
    have h2 := c.length_parents_le b
    simp only [leads, dependencies, List.length_append, List.length_map]
    omega
  | inst i =>
    simp only [leads]
    cases hi : c.func.insts[i]? with
    | none => exact Nat.zero_le _
    | some inst =>
      have h1 := length_dependencies_le inst.op
      have h2 := length_operands_le hi
      have h3 := c.length_parents_le inst.block
      simp only [Option.elim_some, List.length_append, List.length_map]
      omega

/-- Work that leads to more work leaves its node less to learn. -/
theorem Visits.progress (h : c.Visits t w work t') (hfi : t.Fits c.program c.func) :
    work = [] ∧ t'.gaps c.func ≤ t.gaps c.func ∨
      work.length ≤ c.fanIn ∧ t'.gaps c.func < t.gaps c.func := by
  cases h with
  | known _ _ => exact .inl ⟨rfl, le_refl _⟩
  | learn hn hl =>
    have hw : work.length ≤ c.fanIn := by
      rw [← List.length_map Work.node, hl.nodes]
      exact c.length_leads_le _
    have hf : ∀ n, ∃ y, (t'.info n).flags.bits = (t.info n).flags.bits ||| y := by
      intro n
      rw [hl.info]
      split
      · exact ⟨_, rfl⟩
      · exact ⟨0, by simp⟩
    have hfo : ∀ b, ∃ y, (t'.forcedAt b).bits = (t.forcedAt b).bits ||| y := by
      intro b
      rw [hl.forced]
      split
      · exact ⟨_, rfl⟩
      · exact ⟨0, by simp⟩
    have h1 := gaps_le_gaps (fun i => hf (.inst i)) c.func.numInsts
    have h2 := gaps_le_gaps (fun b => hf (.block b)) c.func.numBlocks
    have h3 := gaps_le_gaps (fun b => hf (.terminator b)) c.func.numBlocks
    have h4 := gaps_le_gaps hfo c.func.numBlocks
    -- a node that does not have the uses learns one
    have hs : (t.info w.node).flags.contains w.flags = false →
        (t'.info w.node).flags.bits ≠ (t.info w.node).flags.bits := by
      intro hc
      rw [hl.info, if_pos rfl]
      show (t.info w.node).flags.bits ||| w.flags.bits ≠ _
      rw [Ne, ← UsageFlags.contains_iff, hc]
      simp
    have hla : (∀ g, w.node ≠ .global g) → (∀ b, w.node ≠ .block b) →
        (t.info w.node).flags.contains w.flags = false := by
      intro hgl hbl
      refine Bool.eq_false_iff.mpr fun hc => ?_
      obtain ⟨g, hg⟩ := hn (.inr ⟨hc, fun b hb => absurd hb (hbl b)⟩)
      exact hgl g hg
    have hh := (hfi.has_iff _).mp hl.has
    unfold Classification.gaps
    obtain ⟨node, flags, force⟩ := w
    cases node with
    | global g =>
      refine .inl ⟨List.map_eq_nil_iff.mp hl.nodes, ?_⟩
      exact Nat.add_le_add (Nat.add_le_add (Nat.add_le_add h1 h2) h3) h4
    | inst i =>
      have := gaps_lt_gaps (fun i => hf (.inst i)) hh (hs (hla (by simp) (by simp)))
      exact .inr ⟨hw, by simp only [Classification.info] at *; omega⟩
    | terminator b =>
      have := gaps_lt_gaps (fun b => hf (.terminator b)) hh (hs (hla (by simp) (by simp)))
      exact .inr ⟨hw, by simp only [Classification.info] at *; omega⟩
    | block b =>
      -- the block learns a use, or else a scope
      by_cases hc : (t.block b).flags.contains flags = true
      · have hne : (t'.forcedAt b).bits ≠ (t.forcedAt b).bits := by
          rw [hl.forced, if_pos ⟨rfl, hfi.forced ▸ hh⟩]
          show (t.forcedAt b).bits ||| force.bits ≠ _
          rw [Ne, ← ScopeSet.isEmpty_diff_iff]
          intro he
          obtain ⟨g, hg⟩ := hn (.inr ⟨hc, fun _ hb => Node.block.inj hb ▸ he⟩)
          cases hg
        have := gaps_lt_gaps hfo hh hne
        exact .inr ⟨hw, by simp only [Classification.info] at *; omega⟩
      · have := gaps_lt_gaps (fun b => hf (.block b)) hh (hs (Bool.eq_false_iff.mpr hc))
        exact .inr ⟨hw, by simp only [Classification.info] at *; omega⟩

/-- The last piece of work is taken off the list and looked at; what it leads to is put there. -/
inductive Looks (c : Classifier) : List Work × State → List Work × State → Prop
  | visit {s s' : State} {w : Work} {work stack : List Work} :
      c.visit s w = .ok (work, s') → Looks c (w :: stack, s) (work.reverse ++ stack, s')

inductive Advance (c : Classifier) :
    List Work × Classification → List Work × Classification → Prop
  | visit {t t' : Classification} {w : Work} {work stack : List Work} :
      c.Visits t w work t' → Advance c (w :: stack, t) (work.reverse ++ stack, t')

abbrev Advances (c : Classifier) :
    List Work × Classification → List Work × Classification → Prop :=
  Relation.ReflTransGen c.Advance

variable {rest : List Work} {fuel : Nat}

theorem Advances.invariant {P : List Work → Classification → Prop}
    (step : ∀ t t' w work stack, c.Visits t w work t' → P (w :: stack) t →
      P (work.reverse ++ stack) t')
    (h : c.Advances (stack, t) (rest, t')) (hP : P stack t) : P rest t' := by
  have key : ∀ a, c.Advances (stack, t) a → P a.1 a.2 := by
    intro a ha
    induction ha with
    | refl => exact hP
    | tail _ hs ih =>
      cases hs with
      | visit hv => exact step _ _ _ _ _ hv ih
  exact key _ h

theorem Advances.fits (h : c.Advances (stack, t) (rest, t'))
    (hfi : t.Fits c.program c.func) : t'.Fits c.program c.func :=
  h.invariant (P := fun _ t => t.Fits c.program c.func) (fun _ _ _ _ _ hv hf => hv.fits hf) hfi

theorem looks_of_propagateWithin (h : c.propagateWithin fuel stack s = .ok (rest, s')) :
    Relation.ReflTransGen c.Looks (stack, s) (rest, s') := by
  induction fuel generalizing stack s with
  | zero =>
    cases h
    exact .refl
  | succ fuel ih =>
    cases stack with
    | nil =>
      cases h
      exact .refl
    | cons w stack =>
      obtain ⟨⟨work, s1⟩, hv, h⟩ := bind_eq_ok h
      exact (ih h).head (.visit hv)

theorem advances_of_propagateWithin (h : c.propagateWithin fuel stack s = .ok (rest, s')) :
    c.Advances (stack, s.table) (rest, s'.table) := by
  refine (looks_of_propagateWithin h).lift (fun r => (r.1, r.2.table)) fun _ _ hl => ?_
  cases hl with
  | visit hv => exact .visit (visits_of_visit hv)

section

variable (hf : s.table.Fits c.program c.func)
include hf

theorem propagateWithin_rest_eq_nil (hfu : stack.length + s.table.gaps c.func * c.fanIn ≤ fuel)
    (h : c.propagateWithin fuel stack s = .ok (rest, s')) : rest = [] := by
  induction fuel generalizing stack s with
  | zero =>
    obtain ⟨rfl, rfl⟩ := Prod.mk.inj (Except.ok.inj h)
    exact List.length_eq_zero_iff.mp (by omega)
  | succ fuel ih =>
    cases stack with
    | nil =>
      obtain ⟨rfl, rfl⟩ := Prod.mk.inj (Except.ok.inj h)
      rfl
    | cons w stack =>
      obtain ⟨⟨work, s1⟩, hv, h⟩ := bind_eq_ok h
      have hvi := visits_of_visit hv
      refine ih (hvi.fits hf) ?_ h
      rw [List.length_append, List.length_reverse]
      rw [List.length_cons] at hfu
      rcases hvi.progress hf with ⟨rfl, hg⟩ | ⟨hw, hg⟩
      · have := Nat.mul_le_mul_right c.fanIn hg
        rw [List.length_nil]
        omega
      · have := Nat.mul_le_mul_right c.fanIn hg
        rw [Nat.succ_mul] at this
        omega

theorem exists_propagateWithin (h : c.propagate work s = .ok s') :
    ∃ fuel, c.propagateWithin fuel work.reverse s = .ok ([], s') := by
  unfold propagate at h
  cases hr : c.propagateWithin (work.length + c.learnings * c.fanIn + 1) work.reverse s with
  | error e => simp [hr, Except.map] at h
  | ok r =>
    obtain ⟨rest, s1⟩ := r
    obtain rfl : s1 = s' := by simpa [hr, Except.map] using h
    have hg := Nat.mul_le_mul_right c.fanIn (Classification.gaps_le_learnings c s.table)
    obtain rfl := propagateWithin_rest_eq_nil hf (by simp; omega) hr
    exact ⟨_, hr⟩

theorem advances_of_propagate (h : c.propagate work s = .ok s') :
    c.Advances (work.reverse, s.table) ([], s'.table) := by
  obtain ⟨_, hr⟩ := exists_propagateWithin hf h
  exact advances_of_propagateWithin hr

end

end Classifier

end Stagewise
