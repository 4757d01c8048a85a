import Stagewise.Proofs.Flow.Ancestry

namespace Stagewise

namespace PostDominators

variable {f : Function} {t : PostDominators} {a b u v w x m k : Nat}

structure MidRound (f : Function) (k : Nat) (done : List Nat) (t : PostDominators) : Prop where
  spans : t.Spans f
  complete : t.Complete f
  full : k = 0 ∨ ∀ x, f.CanReturn x → (t.parent? x).isSome
  sharp : ∀ x, (t.parent? x).isSome → t.Sharp f k x
  placed : ∀ x ∈ done, (t.parent? x).isSome
  sharper : ∀ x ∈ done, t.Sharp f (k + 1) x

variable {done : List Nat}

theorem MidRound.reaches (h : MidRound f k done t) (he : f.EscapesIn {a} k w) :
    (t.parent? w).isSome := by
  rcases h.full with rfl | hf
  · cases he with
    | exit _ => simp [h.spans.root]
  · exact hf w he.escapes.canReturn

theorem MidRound.step (hr : f.TargetsInRange) (h : MidRound f k done t)
    (hv : v < f.numBlocks) (hc : f.CanReturn v)
    (hw : ∃ w ∈ f.exitSuccessors v, (t.parent? w).isSome ∧ f.place w < f.place v) :
    MidRound f k (done ++ [v]) (refine f t v) := by
  obtain ⟨m, hm⟩ := refine_raised h.spans hv hc hw
  have hs := hm.sharp_self hr h.spans h.sharp fun _ _ he => h.reaches he
  refine ⟨hm.spans hr h.spans, hm.complete hr h.spans h.complete, ?_, ?_, ?_, ?_⟩
  · exact h.full.imp_right fun hf x hx => hm.placed_iff.mpr (.inr (hf x hx))
  · intro x hx
    rcases hm.placed_iff.mp hx with rfl | hx
    · exact fun a ha he => hs a ha he.succ
    · exact hm.sharp_other (Nat.le_succ k) hs (h.sharp x hx)
  · intro x hx
    rw [hm.placed_iff]
    rcases List.mem_append.mp hx with hx | hx
    · exact .inr (h.placed x hx)
    · exact .inl (by simpa using hx)
  · intro x hx
    rcases List.mem_append.mp hx with hx | hx
    · exact hm.sharp_other le_rfl hs (h.sharper x hx)
    · have : x = v := by simpa using hx
      exact this ▸ hs

theorem MidRound.foldl (hr : f.TargetsInRange) {rest later : List Nat}
    (ho : f.returnOrder.tail = done ++ (rest ++ later)) (h : MidRound f k done t) :
    MidRound f k (done ++ rest) (rest.foldl (refine f) t) := by
  induction rest generalizing done t with
  | nil => simpa using h
  | cons v rest ih =>
    have hm : v ∈ f.returnOrder.tail := by simp [ho]
    obtain ⟨hv, hc⟩ := (f.mem_tail_returnOrder hr).mp hm
    have hs := h.step hr hv hc ?_
    · simpa using ih (by simpa using ho) hs
    · obtain ⟨w, hw, hlt⟩ := f.exists_earlier_successor hr hv hc
      refine ⟨w, hw, ?_, hlt⟩
      have hor : f.returnOrder = (f.exitNode :: done) ++ v :: (rest ++ later) := by
        rw [f.returnOrder_eq_cons hr, ho]
        rfl
      have hnd := f.nodup_returnOrder hr
      rw [hor] at hnd hlt
      have hv' : v ∉ f.exitNode :: done := fun hvd =>
        (List.nodup_append.mp hnd).2.2 v hvd v (by simp) rfl
      have hw' : w ∈ f.exitNode :: done := by
        by_contra hwd
        rw [List.idxOf_append_of_notMem hwd, List.idxOf_append_of_notMem hv',
          List.idxOf_cons_self] at hlt
        omega
      rcases List.mem_cons.mp hw' with rfl | hw'
      · simp [h.spans.root]
      · exact h.placed w hw'

structure AfterRounds (f : Function) (k : Nat) (t : PostDominators) : Prop where
  spans : t.Spans f
  complete : t.Complete f
  full : k = 0 ∨ ∀ x, f.CanReturn x → (t.parent? x).isSome
  sharp : ∀ x, (t.parent? x).isSome → t.Sharp f k x

theorem AfterRounds.round (hr : f.TargetsInRange) (h : AfterRounds f k t) :
    AfterRounds f (k + 1) (round f f.returnOrder t) := by
  have hm : MidRound f k ([] ++ f.returnOrder.tail) (PostDominators.round f f.returnOrder t) :=
    MidRound.foldl hr (List.append_nil _).symm
      ⟨h.spans, h.complete, h.full, h.sharp, by simp, by simp⟩
  have hp : ∀ x, f.CanReturn x → x = f.exitNode ∨ x ∈ f.returnOrder.tail := by
    intro x hx
    have := (f.mem_returnOrder hr).mpr hx
    rw [f.returnOrder_eq_cons hr] at this
    exact List.mem_cons.mp this
  refine ⟨hm.spans, hm.complete, .inr fun x hx => ?_, fun x hx => ?_⟩
  · rcases hp x hx with rfl | hx
    · simp [hm.spans.root]
    · exact hm.placed x (by simpa using hx)
  · rcases hp x (hm.spans.canReturn_of_isSome hx) with rfl | hx
    · intro a ha he
      obtain rfl := hm.spans.above_exitNode ha
      exact he.escapes.notMem (by simp)
    · exact hm.sharper x (by simpa using hx)

theorem parent?_initial (order : List Nat) :
    (initial f order).parent? x = if x = f.exitNode then some f.exitNode else none := by
  simp only [initial, parent?, Array.getElem?_setIfInBounds, Array.getElem?_replicate,
    Function.exitNode]
  by_cases hx : x = f.numBlocks
  · simp [hx]
  · have : ¬f.numBlocks = x := fun h => hx h.symm
    simp only [hx, this, if_false]
    split <;> rfl

/-- Before the first round only the exit has a parent, which is right for paths of no step. -/
theorem afterRounds_initial : AfterRounds f 0 (initial f f.returnOrder) := by
  have hs : (initial f f.returnOrder).Spans f := by
    refine ⟨by simp [initial], ?_, by simp [parent?_initial], ?_, ?_, ?_, ?_⟩
    · intro v hv
      simp only [Function.exitNode] at hv
      have hlt : v < f.numBlocks + 1 := by omega
      simp [positionOf, initial, Function.place, hlt]
    · intro v u hu
      rw [parent?_initial] at hu
      split at hu
      · next hv => exact hv ▸ .exit (by simp)
      · exact absurd hu (by simp)
    · intro v u hu
      rw [parent?_initial] at hu ⊢
      split at hu
      · simp [← Option.some.inj hu]
      · exact absurd hu (by simp)
    · intro v u hu hv
      rw [parent?_initial, if_neg hv] at hu
      exact absurd hu (by simp)
    · intro v u hu hv
      rw [parent?_initial, if_neg hv] at hu
      exact absurd hu (by simp)
  have hex : ∀ x, ((initial f f.returnOrder).parent? x).isSome → x = f.exitNode := by
    intro x hx
    by_contra hne
    simp [parent?_initial, hne] at hx
  refine ⟨hs, ?_, .inl rfl, ?_⟩
  · intro a v hv ha
    obtain rfl := hex v hv
    by_contra hne
    refine ha.2 (.exit ?_)
    rw [Finset.mem_singleton]
    rintro rfl
    exact hne .here
  · intro v hv a ha he
    obtain rfl := hex v hv
    obtain rfl := hs.above_exitNode ha
    exact he.escapes.notMem (by simp)

theorem position_round (order : List Nat) : (round f order t).position = t.position := by
  unfold round
  generalize order.tail = rest
  induction rest generalizing t with
  | nil => rfl
  | cons v rest ih =>
    rw [List.foldl_cons, ih, refine]
    split <;> rfl

theorem eq_of_sameParents {s : PostDominators} (hs : s.parent.size = t.parent.size)
    (hpo : s.position = t.position) (h : s.sameParents t = true) : s = t := by
  cases s with
  | mk parent position =>
    cases t with
    | mk parent' position' =>
      simp only [sameParents, List.all_eq_true, List.mem_range, beq_iff_eq] at h
      simp only at hs hpo
      subst hpo
      congr 1
      refine Array.ext hs fun i hi hi' => ?_
      have := h i hi'
      simp only [parentCode, parent?, hi, hi', getElem?_pos, Option.join_some] at this
      cases hp : parent[i] <;> cases hq : parent'[i] <;> simp_all

structure Exact (t : PostDominators) (f : Function) : Prop where
  spans : t.Spans f
  placed_iff : ∀ v, (t.parent? v).isSome ↔ f.CanReturn v
  above_iff : ∀ a v, f.CanReturn v → (t.Above a v ↔ f.PostDominates a v)

theorem AfterRounds.exact (h : AfterRounds f k t) (hk : f.numBlocks ≤ k) (hpo : 0 < k) :
    t.Exact f := by
  have hp : ∀ v, (t.parent? v).isSome ↔ f.CanReturn v := fun v =>
    ⟨h.spans.canReturn_of_isSome, h.full.resolve_left (by omega) v⟩
  refine ⟨h.spans, hp, fun a v hv => ⟨fun ha => ⟨hv, fun he => ?_⟩, ?_⟩⟩
  · have hs := (hp v).mpr hv
    have hle := (h.spans.canReturn_of_isSome (h.spans.placed_of_above ha hs)).le_exitNode
    exact h.sharp v hs a ha ((he.inAll hle).le hk)
  · exact h.complete a v ((hp v).mpr hv)

theorem AfterRounds.of_round_eq (hr : f.TargetsInRange) (h : AfterRounds f k t)
    (hro : PostDominators.round f f.returnOrder t = t) (j : Nat) : AfterRounds f (k + j) t := by
  induction j with
  | zero => exact h
  | succ j ih =>
    have := ih.round hr
    rwa [hro] at this

theorem settle_exact (hr : f.TargetsInRange) {fuel : Nat} (h : AfterRounds f k t)
    (hf : f.numBlocks < k + fuel) : (settle f f.returnOrder fuel t).Exact f := by
  induction fuel generalizing k t with
  | zero => exact h.exact (by omega) (by omega)
  | succ fuel ih =>
    simp only [settle]
    split
    · next hs =>
      have hn := h.round hr
      have heq := eq_of_sameParents (hn.spans.size.trans h.spans.size.symm)
        (position_round f.returnOrder) hs
      exact (h.of_round_eq hr heq (f.numBlocks + 1)).exact (by omega) (by omega)
    · exact ih (h.round hr) (by omega)

theorem numBlocks_lt_rounds (f : Function) :
    f.numBlocks < 0 + (f.numBlocks + 2) * (f.numBlocks + 2) := by
  have : f.numBlocks + 2 ≤ (f.numBlocks + 2) * (f.numBlocks + 2) :=
    Nat.le_mul_of_pos_left (f.numBlocks + 2) (by omega)
  omega

theorem ofFunction_eq_settle (hr : f.TargetsInRange) :
    ofFunction f = .ok (settle f f.returnOrder ((f.numBlocks + 2) * (f.numBlocks + 2))
      (initial f f.returnOrder)) := by
  unfold ofFunction
  rw [if_pos]
  simp only [List.all_eq_true, decide_eq_true_eq]
  intro v _ w hw
  exact f.mem_exitSuccessors_le hr hw

theorem ofFunction_exact (hr : f.TargetsInRange) : ∃ t, ofFunction f = .ok t ∧ t.Exact f :=
  ⟨_, ofFunction_eq_settle hr, settle_exact hr afterRounds_initial (numBlocks_lt_rounds f)⟩

namespace Exact

theorem exitNode_eq (h : t.Exact f) : t.exitNode = f.exitNode := by
  simp [exitNode, h.spans.size, Function.exitNode]

theorem block?_eq_some_iff (h : t.Exact f) : t.block? v = some b ↔ v = b ∧ v ≠ f.exitNode := by
  simp only [block?, h.exitNode_eq]
  split <;> simp_all

theorem block?_eq_none_iff (h : t.Exact f) : t.block? v = none ↔ v = f.exitNode := by
  simp [block?, h.exitNode_eq]

theorem reachesWithin_iff (h : t.Exact f) {fuel : Nat}
    (hv : f.CanReturn v) (hf : f.place v < fuel) :
    t.reachesWithin a fuel v = true ↔ t.Above a v := by
  induction fuel generalizing v with
  | zero => omega
  | succ fuel ih =>
    obtain ⟨u, hu⟩ := Option.isSome_iff_exists.mp ((h.placed_iff v).mpr hv)
    simp only [reachesWithin, hu]
    by_cases hva : v = a
    · simp only [hva, if_true, true_iff]
      exact .here
    · rw [if_neg hva]
      have hc : t.Above a v ↔ t.Above a u := by
        refine ⟨fun ha => ?_, .up hu⟩
        cases ha with
        | here => exact absurd rfl hva
        | up hu' ha => exact Option.mem_unique hu hu' ▸ ha
      by_cases he : v = f.exitNode
      · obtain rfl := Option.mem_unique h.spans.root (he ▸ hu)
        simp only [he, if_true, Bool.false_eq_true, false_iff]
        intro ha
        exact hva (he.trans (h.spans.above_exitNode ha).symm)
      · have hlt := h.spans.earlier hu he
        have hne : u ≠ v := by rintro rfl; omega
        rw [if_neg hne, hc]
        exact ih (h.spans.canReturn_of_isSome (h.spans.parent_placed hu)) (by omega)

theorem postDominates_iff (hr : f.TargetsInRange) (h : t.Exact f) (hv : f.CanReturn v) :
    t.postDominates a v = true ↔ f.PostDominates a v := by
  rw [← h.above_iff a v hv]
  refine h.reachesWithin_iff hv ?_
  have := f.place_le hr hv
  rw [h.spans.size]
  omega

theorem parent?_of_immediate? (h : t.Exact f) (hb : t.immediate? v = some b) :
    t.parent? v = some b ∧ b < f.numBlocks := by
  obtain ⟨u, hu, hub⟩ := Option.bind_eq_some_iff.mp hb
  obtain ⟨rfl, hne⟩ := h.block?_eq_some_iff.mp hub
  refine ⟨hu, ?_⟩
  have := (h.spans.canReturn_of_isSome (h.spans.parent_placed hu)).le_exitNode
  simp only [Function.exitNode] at *
  omega

theorem nearestCommon?_eq_some (hr : f.TargetsInRange) (h : t.Exact f)
    (hj : t.nearestCommon? a b = some x) :
    f.CanReturn a ∧ f.CanReturn b ∧ x < f.numBlocks ∧ f.CanReturn x ∧
      ∀ v, f.PostDominates v x ↔ f.PostDominates v a ∧ f.PostDominates v b := by
  unfold nearestCommon? at hj
  split at hj
  · next hs =>
    rw [Bool.and_eq_true] at hs
    obtain ⟨hms, hi⟩ := h.spans.meet_above hr hs.1 hs.2
    obtain ⟨rfl, hne⟩ := h.block?_eq_some_iff.mp hj
    have ha := h.spans.canReturn_of_isSome hs.1
    have hb := h.spans.canReturn_of_isSome hs.2
    have hx := h.spans.canReturn_of_isSome hms
    refine ⟨ha, hb, ?_, hx, fun v => ?_⟩
    · have := hx.le_exitNode
      simp only [Function.exitNode] at *
      omega
    · rw [← h.above_iff v _ hx, ← h.above_iff v a ha, ← h.above_iff v b hb, hi]
  · exact absurd hj (by simp)

theorem nearestCommon?_eq_none (hr : f.TargetsInRange) (h : t.Exact f)
    (hj : t.nearestCommon? a b = none) (ha : f.CanReturn a) (hb : f.CanReturn b)
    (hva : f.PostDominates v a) (hvb : f.PostDominates v b) : v = f.exitNode := by
  have hs := (h.placed_iff a).mpr ha
  have hse := (h.placed_iff b).mpr hb
  obtain ⟨hms, hi⟩ := h.spans.meet_above hr hs hse
  simp only [nearestCommon?, hs, hse, Bool.and_self, if_true] at hj
  have he := h.block?_eq_none_iff.mp hj
  rw [← h.above_iff v a ha] at hva
  rw [← h.above_iff v b hb] at hvb
  exact h.spans.above_exitNode (he ▸ (hi v).mpr ⟨hva, hvb⟩)

end Exact

end PostDominators

end Stagewise
