import Mathlib.Algebra.BigOperators.Group.Finset.Basic
import Mathlib.Algebra.BigOperators.Ring.Finset
import Mathlib.Algebra.Order.BigOperators.Group.Finset
import Stagewise.Proofs.Flow.Escape

namespace Stagewise

def Visit.node : Visit → Nat
  | .enter v => v
  | .leave v => v

/-- Every pending node but the root was found from a node that is left later. -/
def Supported (next : Nat → List Nat) (root : Nat) : List Visit → Prop
  | [] => True
  | item :: rest =>
    (item.node = root ∨ ∃ w, item.node ∈ next w ∧ .leave w ∈ rest) ∧ Supported next root rest

/-- What a node leads to is seen before the node is left. The nodes in `above` are entered before
the given part of the stack. -/
def Covered (next : Nat → List Nat) (seen : List Nat) : List Nat → List Visit → Prop
  | _, [] => True
  | above, .enter x :: rest => Covered next seen (x :: above) rest
  | above, .leave w :: rest =>
    (∀ x ∈ next w, x ∈ seen ∨ x ∈ above) ∧ Covered next seen above rest

structure SearchInv (next : Nat → List Nat) (root : Nat) (stack : List Visit)
    (seen out : List Nat) : Prop where
  supported : Supported next root stack
  covered : Covered next seen [] stack
  nodup : out.Nodup
  leaves_nodup : (stack.filter fun x => x matches .leave _).Nodup
  leave_notMem : ∀ v, .leave v ∈ stack → v ∉ out
  seen_iff : ∀ v, v ∈ seen ↔ v ∈ out ∨ .leave v ∈ stack
  closed : ∀ w ∈ out, ∀ x ∈ next w, x ∈ seen
  found : ∀ pre v post, out = pre ++ v :: post →
    v = root ∨ ∃ w, v ∈ next w ∧ (w ∈ pre ∨ .leave w ∈ stack)
  reached : ∀ item ∈ stack, Relation.ReflTransGen (fun a b => b ∈ next a) root item.node
  root_seen : root ∈ seen ∨ .enter root ∈ stack
  reached_out : ∀ v ∈ out, Relation.ReflTransGen (fun a b => b ∈ next a) root v

section Search

variable {next : Nat → List Nat} {root : Nat} {stack rest : List Visit} {seen out : List Nat}

theorem Covered.mono {seen' above above' : List Nat} (hs : ∀ x ∈ seen, x ∈ seen')
    (ha : ∀ x ∈ above, x ∈ seen' ∨ x ∈ above') (h : Covered next seen above stack) :
    Covered next seen' above' stack := by
  induction stack generalizing above above' with
  | nil => trivial
  | cons item rest ih =>
    cases item with
    | enter y =>
      have hc : ∀ x ∈ y :: above, x ∈ seen' ∨ x ∈ y :: above' := by
        intro x hx
        rcases List.mem_cons.mp hx with rfl | hx
        · simp
        · exact (ha x hx).imp_right (List.mem_cons_of_mem y)
      exact ih hc h
    | leave w =>
      refine ⟨fun x hx => ?_, ih ha h.2⟩
      rcases h.1 x hx with hx | hx
      · exact .inl (hs x hx)
      · exact ha x hx

theorem covered_enters {above xs : List Nat} (h : Covered next seen (xs.reverse ++ above) rest) :
    Covered next seen above (xs.map .enter ++ rest) := by
  induction xs generalizing above with
  | nil => simpa using h
  | cons x xs ih =>
    have hr : Covered next seen (xs.reverse ++ x :: above) rest := by simpa using h
    exact ih hr

theorem supported_enters {xs : List Nat} {w : Nat} (hxs : ∀ x ∈ xs, x ∈ next w)
    (h : Supported next root rest) (hw : .leave w ∈ rest) :
    Supported next root (xs.map .enter ++ rest) := by
  induction xs with
  | nil => exact h
  | cons x xs ih =>
    refine ⟨.inr ⟨w, hxs x (by simp), by simp [hw]⟩, ih fun y hy => hxs y (by simp [hy])⟩

variable {v : Nat} {nodes : Finset Nat}

/-- A node is left once all nodes next to it have been seen. -/
theorem SearchInv.leave (h : SearchInv next root (.leave v :: rest) seen out) :
    SearchInv next root rest seen (v :: out) := by
  have hv : v ∉ out := h.leave_notMem v (by simp)
  have hr : .leave v ∉ rest := by
    have := h.leaves_nodup
    simp only [List.filter_cons, if_true, List.nodup_cons, List.mem_filter] at this
    simpa using this.1
  refine ⟨h.supported.2, h.covered.2, List.nodup_cons.mpr ⟨hv, h.nodup⟩, ?_, ?_, ?_, ?_, ?_,
    fun item hi => h.reached item (by simp [hi]), by simpa using h.root_seen, ?_⟩
  · have := h.leaves_nodup
    simp only [List.filter_cons, if_true, List.nodup_cons] at this
    exact this.2
  · intro u hu
    simp only [List.mem_cons, not_or]
    exact ⟨fun he => hr (he ▸ hu), h.leave_notMem u (by simp [hu])⟩
  · intro u
    rw [h.seen_iff]
    simp only [List.mem_cons, Visit.leave.injEq]
    tauto
  · intro w hw x hx
    rcases List.mem_cons.mp hw with rfl | hw
    · simpa using h.covered.1 x hx
    · exact h.closed w hw x hx
  · intro pre u post he
    cases pre with
    | nil =>
      obtain ⟨rfl, rfl⟩ : v = u ∧ out = post := by simpa using he
      refine h.supported.1.imp_right fun hs => ?_
      obtain ⟨w, hw, hm⟩ := hs
      exact ⟨w, hw, .inr hm⟩
    | cons y pre =>
      obtain ⟨rfl, rfl⟩ : v = y ∧ out = pre ++ u :: post := by simpa using he
      refine (h.found pre u post rfl).imp_right fun hs => ?_
      obtain ⟨w, hw, hm⟩ := hs
      refine ⟨w, hw, ?_⟩
      simp only [List.mem_cons, Visit.leave.injEq] at hm ⊢
      tauto
  · intro u hu
    rcases List.mem_cons.mp hu with rfl | hu
    · exact h.reached (.leave u) (by simp)
    · exact h.reached_out u hu

theorem SearchInv.skip (h : SearchInv next root (.enter v :: rest) seen out)
    (hv : v ∈ seen) : SearchInv next root rest seen out := by
  refine ⟨h.supported.2, ?_, h.nodup, ?_, fun u hu => h.leave_notMem u (by simp [hu]), ?_,
    h.closed, ?_, fun item hi => h.reached item (by simp [hi]), ?_, h.reached_out⟩
  · exact Covered.mono (fun _ h => h) (by simpa using hv) h.covered
  · simpa [List.filter_cons] using h.leaves_nodup
  · intro u
    rw [h.seen_iff]
    simp
  · intro pre u post he
    refine (h.found pre u post he).imp_right fun hs => ?_
    obtain ⟨w, hw, hm⟩ := hs
    exact ⟨w, hw, by simpa using hm⟩
  · rcases h.root_seen with hr | hr
    · exact .inl hr
    · rcases List.mem_cons.mp hr with hr | hr
      · exact .inl (by simpa [Visit.enter.inj hr] using hv)
      · exact .inr hr

/-- Entering a node puts the unseen nodes next to it on the stack, above its own leaving. -/
theorem SearchInv.enter (h : SearchInv next root (.enter v :: rest) seen out)
    (hv : v ∉ seen) :
    SearchInv next root
      ((((next v).filter fun w => !(v :: seen).contains w).reverse.map .enter) ++ .leave v :: rest)
      (v :: seen) out := by
  set fresh := ((next v).filter fun w => !(v :: seen).contains w).reverse with hf
  have hl : ∀ u, .leave u ∈ fresh.map Visit.enter ++ .leave v :: rest ↔
      u = v ∨ .leave u ∈ rest := by
    intro u
    simp
  have hme : ∀ x ∈ fresh, x ∈ next v := by
    intro x hx
    exact (List.mem_filter.mp (List.mem_reverse.mp hx)).1
  have hn := fun hm => hv ((h.seen_iff v).mpr hm)
  refine ⟨?_, ?_, h.nodup, ?_, ?_, ?_, ?_, ?_, ?_, ?_, h.reached_out⟩
  · exact supported_enters hme ⟨h.supported.1, h.supported.2⟩ (by simp)
  · refine covered_enters ⟨fun x hx => ?_, ?_⟩
    · by_cases hs : x ∈ v :: seen
      · exact .inl hs
      · refine .inr ?_
        simp only [List.append_nil, List.mem_reverse, hf, List.mem_filter]
        simpa [hx] using hs
    · refine Covered.mono (fun x hx => by simp [hx]) ?_ h.covered
      intro x hx
      have : x = v := by simpa using hx
      simp [this]
  · rw [List.filter_append, List.filter_eq_nil_iff.mpr (by simp), List.nil_append,
      List.filter_cons_of_pos (by rfl), List.nodup_cons]
    refine ⟨fun hm => hn (.inr ?_), ?_⟩
    · simpa using (List.mem_filter.mp hm).1
    · simpa [List.filter_cons] using h.leaves_nodup
  · intro u hu
    rcases (hl u).mp hu with rfl | hu
    · exact fun hm => hn (.inl hm)
    · exact h.leave_notMem u (by simp [hu])
  · intro u
    rw [List.mem_cons, h.seen_iff, hl]
    simp only [List.mem_cons, reduceCtorEq, false_or]
    tauto
  · intro w hw x hx
    exact List.mem_cons_of_mem v (h.closed w hw x hx)
  · intro pre u post he
    refine (h.found pre u post he).imp_right fun hsu => ?_
    obtain ⟨w, hw, hm⟩ := hsu
    refine ⟨w, hw, ?_⟩
    refine hm.imp_right fun hm => (hl w).mpr (.inr ?_)
    simpa using hm
  · intro item hi
    have hre : Relation.ReflTransGen (fun a b => b ∈ next a) root v :=
      h.reached (.enter v) (by simp)
    rcases List.mem_append.mp hi with hi | hi
    · obtain ⟨x, hx, rfl⟩ := List.mem_map.mp hi
      exact hre.tail (hme x hx)
    · rcases List.mem_cons.mp hi with rfl | hi
      · exact hre
      · exact h.reached item (by simp [hi])
  · rcases h.root_seen with hr | hr
    · exact .inl (by simp [hr])
    · rcases List.mem_cons.mp hr with hr | hr
      · exact .inl (by simp [Visit.enter.inj hr])
      · exact .inr (by simp [hr])

def searchBudget (next : Nat → List Nat) (nodes : Finset Nat) (stack : List Visit)
    (seen : List Nat) : Nat :=
  stack.length + ∑ v ∈ nodes with v ∉ seen, ((next v).length + 1)

theorem searchBudget_enter (next : Nat → List Nat) (rest : List Visit) (hv : v ∈ nodes)
    (hs : v ∉ seen) :
    searchBudget next nodes
      ((((next v).filter fun w => !(v :: seen).contains w).reverse.map .enter) ++ .leave v :: rest)
      (v :: seen) < searchBudget next nodes (.enter v :: rest) seen := by
  have hsu : ∑ u ∈ nodes with u ∉ seen, ((next u).length + 1)
      = ((next v).length + 1) + ∑ u ∈ nodes with u ∉ v :: seen, ((next u).length + 1) := by
    have : (nodes.filter fun u => u ∉ seen)
        = insert v (nodes.filter fun u => u ∉ v :: seen) := by
      ext u
      simp only [Finset.mem_filter, Finset.mem_insert, List.mem_cons, not_or]
      constructor
      · intro h
        by_cases hu : u = v
        · exact .inl hu
        · exact .inr ⟨h.1, hu, h.2⟩
      · rintro (rfl | h)
        · exact ⟨hv, hs⟩
        · exact ⟨h.1, h.2.2⟩
    rw [this, Finset.sum_insert (by simp)]
  have hl := List.length_filter_le (fun w => !(v :: seen).contains w) (next v)
  unfold searchBudget
  rw [hsu]
  simp only [List.length_append, List.length_map, List.length_reverse, List.length_cons]
  omega

theorem mem_nodes_enter {v : Nat} {rest : List Visit} {seen : List Nat}
    (hne : ∀ v, ∀ w ∈ next v, w ∈ nodes) (hs : ∀ item ∈ .enter v :: rest, item.node ∈ nodes) :
    ∀ item ∈ (((next v).filter fun w => !(v :: seen).contains w).reverse.map .enter) ++
      .leave v :: rest, item.node ∈ nodes := by
  intro item hi
  rcases List.mem_append.mp hi with hi | hi
  · obtain ⟨x, hx, rfl⟩ := List.mem_map.mp hi
    exact hne v x (List.mem_filter.mp (List.mem_reverse.mp hx)).1
  · rcases List.mem_cons.mp hi with rfl | hi
    · exact hs (.enter v) List.mem_cons_self
    · exact hs item (List.mem_cons_of_mem _ hi)

theorem searchFrom_inv (nodes : Finset Nat) (hne : ∀ v, ∀ w ∈ next v, w ∈ nodes) {fuel : Nat}
    (hs : ∀ item ∈ stack, item.node ∈ nodes) (h : SearchInv next root stack seen out)
    (hf : searchBudget next nodes stack seen < fuel) :
    ∃ seen', SearchInv next root [] seen' (searchFrom next fuel stack seen out) := by
  induction fuel generalizing stack seen out with
  | zero => omega
  | succ fuel ih =>
    match stack, h, hf, hs with
    | [], h, _, _ => exact ⟨seen, by simpa [searchFrom] using h⟩
    | .leave v :: rest, h, hf, hs =>
      simp only [searchFrom]
      refine ih (fun item hi => hs item (by simp [hi])) h.leave ?_
      simp only [searchBudget, List.length_cons] at hf ⊢
      omega
    | .enter v :: rest, h, hf, hs =>
      simp only [searchFrom]
      split
      · next hv =>
        refine ih (fun item hi => hs item (by simp [hi])) (h.skip hv) ?_
        simp only [searchBudget, List.length_cons] at hf ⊢
        omega
      · next hv =>
        have hn : v ∈ nodes := hs (.enter v) (by simp)
        refine ih (mem_nodes_enter hne hs) (h.enter hv) ?_
        have := searchBudget_enter next rest hn hv
        omega

end Search

namespace Function

variable {f : Function} {v w : Nat}

theorem mem_exitPredecessors (hr : f.TargetsInRange) :
    v ∈ f.exitPredecessors w ↔ w ∈ f.exitSuccessors v := by
  unfold exitPredecessors
  split
  · next hw =>
    subst hw
    rw [List.mem_filter]
    constructor
    · rintro ⟨-, hre⟩
      simp [exitSuccessors, hre]
    · intro h
      refine ⟨List.mem_range.mpr (mem_exitSuccessors_lt h), ?_⟩
      unfold exitSuccessors at h
      split at h
      · assumption
      · exact absurd (hr v _ h) (lt_irrefl _)
  · next hw =>
    simp only [predecessors, List.mem_filter, List.contains_iff_mem]
    constructor
    · rintro ⟨-, h⟩
      exact mem_exitSuccessors_of_mem_successors h
    · intro h
      exact ⟨List.mem_range.mpr (mem_exitSuccessors_lt h),
        mem_successors_of_mem_exitSuccessors hw h⟩

theorem length_exitSuccessors_le : (f.exitSuccessors v).length ≤ 2 := by
  unfold exitSuccessors successors
  split
  · simp
  · rcases f.terminator? v with _ | t
    · simp
    · cases t <;> simp [Terminator.successors]

theorem nodup_exitPredecessors : (f.exitPredecessors v).Nodup := by
  unfold exitPredecessors predecessors
  split <;> exact List.nodup_range.filter _

variable (hr : f.TargetsInRange)
include hr

theorem sum_length_exitPredecessors_le :
    ∑ w ∈ Finset.range (f.numBlocks + 1), (f.exitPredecessors w).length ≤ 2 * f.numBlocks := by
  have hc : ∀ w, (f.exitPredecessors w).length
      = ∑ v ∈ Finset.range f.numBlocks, if w ∈ f.exitSuccessors v then 1 else 0 := by
    intro w
    rw [← Finset.card_filter, ← List.toFinset_card_of_nodup f.nodup_exitPredecessors]
    congr 1
    ext v
    simp only [List.mem_toFinset, mem_exitPredecessors hr, Finset.mem_filter, Finset.mem_range]
    exact ⟨fun h => ⟨mem_exitSuccessors_lt h, h⟩, fun h => h.2⟩
  calc ∑ w ∈ Finset.range (f.numBlocks + 1), (f.exitPredecessors w).length
      = ∑ v ∈ Finset.range f.numBlocks, ∑ w ∈ Finset.range (f.numBlocks + 1),
          if w ∈ f.exitSuccessors v then 1 else 0 := by
        rw [Finset.sum_comm]
        exact Finset.sum_congr rfl fun w _ => hc w
    _ ≤ ∑ v ∈ Finset.range f.numBlocks, 2 := by
        refine Finset.sum_le_sum fun v _ => ?_
        rw [← Finset.card_filter]
        calc _ ≤ (f.exitSuccessors v).toFinset.card :=
              Finset.card_le_card fun w hw => by simpa using (Finset.mem_filter.mp hw).2
          _ ≤ (f.exitSuccessors v).length := List.toFinset_card_le _
          _ ≤ 2 := length_exitSuccessors_le
    _ = 2 * f.numBlocks := by simp [mul_comm]

theorem mem_range_of_mem_exitPredecessors (h : w ∈ f.exitPredecessors v) :
    w ∈ Finset.range (f.numBlocks + 1) := by
  have := mem_exitSuccessors_lt ((mem_exitPredecessors hr).mp h)
  simp
  omega

theorem searchBudget_exitNode_lt :
    searchBudget f.exitPredecessors (Finset.range (f.numBlocks + 1)) [.enter f.exitNode] []
      < 4 * f.numBlocks + 4 := by
  have := sum_length_exitPredecessors_le hr
  simp only [searchBudget, List.not_mem_nil, not_false_eq_true, Finset.filter_true,
    Finset.sum_add_distrib, Finset.sum_const, Finset.card_range, List.length_singleton]
  simp only [nsmul_eq_mul, Nat.cast_id, mul_one]
  omega

theorem returnOrder_inv :
    ∃ seen, SearchInv f.exitPredecessors f.exitNode [] seen f.returnOrder := by
  refine searchFrom_inv (Finset.range (f.numBlocks + 1))
    (fun _ _ => mem_range_of_mem_exitPredecessors hr) ?_ ?_ (searchBudget_exitNode_lt hr)
  · simp [Visit.node, exitNode]
  · refine ⟨?_, ?_, ?_, ?_, ?_, ?_, ?_, ?_, ?_, ?_, ?_⟩ <;>
      simp [Supported, Covered, Visit.node, Relation.ReflTransGen.refl]

theorem exitNode_mem_returnOrder : f.exitNode ∈ f.returnOrder := by
  obtain ⟨_, h⟩ := returnOrder_inv hr
  simpa [h.seen_iff] using h.root_seen

theorem nodup_returnOrder : f.returnOrder.Nodup := by
  obtain ⟨_, h⟩ := returnOrder_inv hr
  exact h.nodup

theorem mem_returnOrder : v ∈ f.returnOrder ↔ f.CanReturn v := by
  obtain ⟨seen, h⟩ := returnOrder_inv hr
  constructor
  · intro hv
    have hre := h.reached_out v hv
    clear hv
    induction hre with
    | refl => exact .exit (by simp)
    | tail _ hw ih => exact .step (by simp) ((mem_exitPredecessors hr).mp hw) ih
  · intro hv
    induction hv with
    | exit _ => exact exitNode_mem_returnOrder hr
    | step _ hw _ ih =>
      have := h.closed _ ih _ ((mem_exitPredecessors hr).mpr hw)
      simpa [h.seen_iff] using this

theorem returnOrder_eq_cons : f.returnOrder = f.exitNode :: f.returnOrder.tail := by
  obtain ⟨_, h⟩ := returnOrder_inv hr
  have hm := exitNode_mem_returnOrder hr
  cases ho : f.returnOrder with
  | nil => simp [ho] at hm
  | cons v rest =>
    have := h.found [] v rest ho
    simp only [List.not_mem_nil, or_self, and_false, exists_false, or_false] at this
    simp [this]

theorem mem_tail_returnOrder :
    v ∈ f.returnOrder.tail ↔ v < f.numBlocks ∧ f.CanReturn v := by
  have hnd := nodup_returnOrder hr
  have hm := mem_returnOrder (v := v) hr
  rw [returnOrder_eq_cons hr] at hnd hm
  rw [List.nodup_cons] at hnd
  rw [List.mem_cons] at hm
  constructor
  · intro hv
    have hc := hm.mp (.inr hv)
    refine ⟨?_, hc⟩
    have hle := hc.le_exitNode
    have hne : v ≠ f.exitNode := fun he => hnd.1 (he ▸ hv)
    simp only [exitNode] at *
    omega
  · rintro ⟨hlt, hc⟩
    refine (hm.mpr hc).resolve_left ?_
    simp only [exitNode]
    omega

theorem exists_earlier_successor (hv : v < f.numBlocks) (hc : f.CanReturn v) :
    ∃ w ∈ f.exitSuccessors v, f.returnOrder.idxOf w < f.returnOrder.idxOf v := by
  obtain ⟨_, h⟩ := returnOrder_inv hr
  obtain ⟨pre, post, ho⟩ := List.append_of_mem ((mem_returnOrder hr).mpr hc)
  have hnd := nodup_returnOrder hr
  rcases h.found pre v post ho with rfl | ⟨w, hw, hm⟩
  · exact absurd hv (lt_irrefl _)
  · have hm : w ∈ pre := by simpa using hm
    refine ⟨w, (mem_exitPredecessors hr).mp hw, ?_⟩
    rw [ho] at hnd ⊢
    have hp : v ∉ pre := by
      intro hvp
      exact (List.nodup_append.mp hnd).2.2 v hvp v (by simp) rfl
    rw [List.idxOf_append_of_mem hm, List.idxOf_append_of_notMem hp]
    have := List.idxOf_lt_length_of_mem hm
    simp
    omega

end Function

end Stagewise
