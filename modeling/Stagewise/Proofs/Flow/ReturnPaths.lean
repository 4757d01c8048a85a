import Stagewise.Proofs.Flow.PostDominance

namespace Stagewise

namespace Function

/-- A path along the edges of a function to a block that returns, as the list of its blocks. -/
inductive ReturnPath (f : Function) : BlockId → List BlockId → Prop
  | here {b : BlockId} : f.returns b = true → ReturnPath f b [b]
  | step {b c : BlockId} {path : List BlockId} : c ∈ f.successors b → ReturnPath f c path →
      ReturnPath f b (b :: path)

variable {f : Function} {A : Finset Nat} {a b v : BlockId} {path : List BlockId}

theorem ReturnPath.escapes (h : f.ReturnPath b path) (hp : ∀ x ∈ path, x ∉ A)
    (he : f.exitNode ∉ A) : f.Escapes A b := by
  induction h with
  | @here b hre =>
    have hed : f.exitNode ∈ f.exitSuccessors b := by simp [exitSuccessors, hre]
    exact .step (hp _ (by simp)) hed (.exit he)
  | step hc _ ih =>
    have hr := ih fun x hx => hp x (List.mem_cons_of_mem _ hx)
    exact .step (hp _ (by simp)) (mem_exitSuccessors_of_mem_successors hc) hr

theorem Escapes.exists_returnPath (hr : f.TargetsInRange) (h : f.Escapes A v)
    (hv : v < f.numBlocks) : ∃ path, f.ReturnPath v path ∧ ∀ x ∈ path, x ∉ A := by
  induction h with
  | exit => exact absurd hv (lt_irrefl _)
  | @step v w hn hw _ ih =>
    unfold exitSuccessors at hw
    split at hw
    · next hre =>
      exact ⟨[v], .here hre, fun x hx => by rwa [List.mem_singleton.mp hx]⟩
    · obtain ⟨path, hp, ha⟩ := ih (hr v w hw)
      refine ⟨v :: path, .step hw hp, fun x hx => ?_⟩
      rcases List.mem_cons.mp hx with rfl | hx
      · exact hn
      · exact ha x hx

theorem canReturn_iff_returnPath (hr : f.TargetsInRange) (hb : b < f.numBlocks) :
    f.CanReturn b ↔ ∃ path, f.ReturnPath b path := by
  constructor
  · intro h
    obtain ⟨path, hp, -⟩ := Escapes.exists_returnPath hr h hb
    exact ⟨path, hp⟩
  · rintro ⟨path, hp⟩
    exact hp.escapes (by simp) (by simp)

/-- Some path from a block returns, and each that does goes through another block. -/
def AllReturnsPass (f : Function) (b a : BlockId) : Prop :=
  (∃ path, f.ReturnPath b path) ∧ ∀ path, f.ReturnPath b path → a ∈ path

theorem postDominates_iff_returnPath (hr : f.TargetsInRange) (ha : a < f.numBlocks)
    (hb : b < f.numBlocks) :
    f.PostDominates a b ↔
      (∃ path, f.ReturnPath b path) ∧ ∀ path, f.ReturnPath b path → a ∈ path := by
  rw [PostDominates, canReturn_iff_returnPath hr hb]
  refine and_congr_right fun _ => ⟨fun hno path hp => ?_, fun hal he => ?_⟩
  · by_contra hn
    refine hno (hp.escapes (fun x hx => ?_) ?_)
    · rw [Finset.mem_singleton]
      rintro rfl
      exact hn hx
    · rw [Finset.mem_singleton]
      exact Ne.symm (Nat.ne_of_lt ha)
  · obtain ⟨path, hp, hav⟩ := Escapes.exists_returnPath hr he hb
    exact hav a (hal path hp) (Finset.mem_singleton_self a)

end Function

theorem searchFrom_add {next : Nat → List Nat} {nodes : Finset Nat}
    (hne : ∀ v, ∀ w ∈ next v, w ∈ nodes) {fuel : Nat} {stack : List Visit} {seen out : List Nat}
    (hs : ∀ item ∈ stack, item.node ∈ nodes)
    (hf : searchBudget next nodes stack seen < fuel) (extra : Nat) :
    searchFrom next (fuel + extra) stack seen out = searchFrom next fuel stack seen out := by
  induction fuel generalizing stack seen out with
  | zero => omega
  | succ fuel ih =>
    rw [Nat.add_right_comm]
    match stack, hs, hf with
    | [], _, _ => rfl
    | .leave v :: rest, hs, hf =>
      refine ih (fun item hi => hs item (List.mem_cons_of_mem _ hi)) ?_
      simp only [searchBudget, List.length_cons] at hf ⊢
      omega
    | .enter v :: rest, hs, hf =>
      simp only [searchFrom]
      split
      · refine ih (fun item hi => hs item (List.mem_cons_of_mem _ hi)) ?_
        simp only [searchBudget, List.length_cons] at hf ⊢
        omega
      · next hv =>
        have hn : v ∈ nodes := hs (.enter v) List.mem_cons_self
        have hl := searchBudget_enter next rest hn hv
        exact ih (mem_nodes_enter hne hs) (by omega)

namespace PostDominators

variable {f : Function} {s t : PostDominators} {a b u v : Nat}

theorem Above.parent (ha : t.Above a v) (hv : t.parent? v = some u) (hne : a ≠ v) :
    t.Above a u := by
  cases ha with
  | here => exact absurd rfl hne
  | up hu ha => exact Option.mem_unique hv hu ▸ ha

/-- A tree that the rounds go through: some rounds are done, and a part of the next one. -/
def Passes (f : Function) (s : PostDominators) : Prop :=
  ∃ (k : Nat) (done rest : List Nat), f.returnOrder.tail = done ++ rest ∧
    s = done.foldl (refine f) ((round f f.returnOrder)^[k] (initial f f.returnOrder))

theorem afterRounds_iterate (hr : f.TargetsInRange) (k : Nat) :
    AfterRounds f k ((round f f.returnOrder)^[k] (initial f f.returnOrder)) := by
  induction k with
  | zero => exact afterRounds_initial
  | succ k ih =>
    rw [Function.iterate_succ_apply']
    exact ih.round hr

theorem Passes.spans (hr : f.TargetsInRange) (h : Passes f s) : s.Spans f := by
  obtain ⟨k, done, rest, ho, rfl⟩ := h
  obtain ⟨hs, hc, hf, hsh⟩ := afterRounds_iterate hr k
  have hm : MidRound f k [] ((round f f.returnOrder)^[k] (initial f f.returnOrder)) :=
    ⟨hs, hc, hf, hsh, by simp, by simp⟩
  exact (hm.foldl hr ho).spans

/-- Where two nodes meet is the only node with their common ancestors above it, so it does not
depend on the length of the climb. -/
theorem Spans.meetWithin_eq_meet (hr : f.TargetsInRange) (hs : s.Spans f)
    (ha : (s.parent? a).isSome) (hb : (s.parent? b).isSome) {budget : Nat}
    (hbu : 2 * s.parent.size ≤ budget) : s.meetWithin budget a b = s.meet a b := by
  have hp := f.place_le hr (hs.canReturn_of_isSome ha)
  have hp' := f.place_le hr (hs.canReturn_of_isSome hb)
  have hsi := hs.size
  have hf : f.place a + f.place b < budget := by omega
  obtain ⟨-, hab⟩ := hs.meetWithin_above hr ha hb hf
  obtain ⟨hse, ha'⟩ := hs.meet_above hr ha hb
  have hsa : ∀ x, s.Above x (s.meetWithin budget a b) ↔ s.Above x (s.meet a b) := fun x =>
    (hab x).trans (ha' x).symm
  exact hs.above_antisymm hr hse ((hsa _).mp .here) ((hsa _).mpr .here)

namespace Exact

theorem afterRounds (h : t.Exact f) (k : Nat) : AfterRounds f k t := by
  refine ⟨h.spans, fun a v hv hp => ?_, .inr fun x => (h.placed_iff x).mpr, ?_⟩
  · exact (h.above_iff a v ((h.placed_iff v).mp hv)).mpr hp
  · intro v hv a ha he
    exact ((h.above_iff a v ((h.placed_iff v).mp hv)).mp ha).2 he.escapes

theorem parent_unique (hr : f.TargetsInRange) (h : s.Exact f) (h' : t.Exact f) (v : Nat) :
    s.parent? v = t.parent? v := by
  by_cases hv : f.CanReturn v
  · obtain ⟨u, hu⟩ := Option.isSome_iff_exists.mp ((h.placed_iff v).mpr hv)
    obtain ⟨w, hw⟩ := Option.isSome_iff_exists.mp ((h'.placed_iff v).mpr hv)
    by_cases he : v = f.exitNode
    · rw [he, h.spans.root, h'.spans.root]
    have hsa : ∀ x, s.Above x v ↔ t.Above x v := fun x =>
      (h.above_iff x v hv).trans (h'.above_iff x v hv).symm
    have hlt := h.spans.earlier hu he
    have hlt' := h'.spans.earlier hw he
    have hne : w ≠ v := by
      rintro rfl
      omega
    have hne' : u ≠ v := by
      rintro rfl
      omega
    have hwu : s.Above w u := ((hsa w).mpr (.up hw .here)).parent hu hne
    have huw : t.Above u w := ((hsa u).mp (.up hu .here)).parent hw hne'
    have hp := le_antisymm (h.spans.place_le_of_above hwu) (h'.spans.place_le_of_above huw)
    have hc : f.CanReturn w := h'.spans.canReturn_of_isSome (h'.spans.parent_placed hw)
    rw [hu, hw, f.place_inj hr hc hp]
  · have hs : ¬(s.parent? v).isSome := fun hse => hv ((h.placed_iff v).mp hse)
    have ht : ¬(t.parent? v).isSome := fun hse => hv ((h'.placed_iff v).mp hse)
    rw [Option.not_isSome_iff_eq_none.mp hs, Option.not_isSome_iff_eq_none.mp ht]

theorem round_eq (hr : f.TargetsInRange) (h : t.Exact f) : round f f.returnOrder t = t := by
  have hro := (h.afterRounds (f.numBlocks + 1)).round hr
  have he := hro.exact (by omega) (by omega)
  refine eq_of_sameParents (hro.spans.size.trans h.spans.size.symm)
    (position_round f.returnOrder) ?_
  simp [sameParents, parentCode, he.parent_unique hr h]

theorem settle_eq (hr : f.TargetsInRange) (h : t.Exact f) (budget : Nat) :
    settle f f.returnOrder budget t = t := by
  cases budget with
  | zero => rfl
  | succ budget => simp [settle, h.round_eq hr, sameParents]

end Exact

theorem settle_add (hr : f.TargetsInRange) {k fuel : Nat} (h : AfterRounds f k t)
    (hf : f.numBlocks < k + fuel) (extra : Nat) :
    settle f f.returnOrder (fuel + extra) t = settle f f.returnOrder fuel t := by
  induction fuel generalizing k t with
  | zero => exact (h.exact (by omega) (by omega)).settle_eq hr _
  | succ fuel ih =>
    rw [Nat.add_right_comm]
    simp only [settle]
    split
    · rfl
    · exact ih (h.round hr) (by omega)

theorem Exact.postDominates_of_stuck (h : t.Exact f) (hb : ¬f.CanReturn b) :
    t.postDominates a b = true ↔ a = b := by
  have hn : t.parent? b = none :=
    Option.not_isSome_iff_eq_none.mp fun hs => hb ((h.placed_iff b).mp hs)
  simp only [postDominates, reachesWithin, hn]
  split
  · next heq => simp [heq]
  · next hne => simpa using fun heq => hne heq.symm

/-- The tree of post-dominators is found, by loops that come to their ends: the search and every
climb give the same with a larger budget, and so do the rounds, of which a further one changes
nothing. A block post-dominates another one just if they are the same, or some path from the other
one returns and each that does goes through it. -/
theorem ofFunction_iff_forall_returnPath (hr : f.TargetsInRange) :
    ∃ t, ofFunction f = .ok t ∧
      (∀ budget, 4 * f.numBlocks + 4 ≤ budget →
        searchFrom f.exitPredecessors budget [.enter f.exitNode] [] [] = f.returnOrder) ∧
      (∀ s, Passes f s → ∀ a b, (s.parent? a).isSome → (s.parent? b).isSome →
        ∀ budget, 2 * s.parent.size ≤ budget → s.meetWithin budget a b = s.meet a b) ∧
      (∀ budget, (f.numBlocks + 2) * (f.numBlocks + 2) ≤ budget →
        settle f f.returnOrder budget (initial f f.returnOrder) = t) ∧
      round f f.returnOrder t = t ∧
      ∀ a < f.numBlocks, ∀ b < f.numBlocks, (t.postDominates a b = true ↔
        a = b ∨ (∃ path, f.ReturnPath b path) ∧ ∀ path, f.ReturnPath b path → a ∈ path) := by
  have hexact := settle_exact hr afterRounds_initial (numBlocks_lt_rounds f)
  refine ⟨_, ofFunction_eq_settle hr, fun budget hbudget => ?_, fun s hs a b ha hb budget hbudget => ?_,
    fun budget hbudget => ?_, hexact.round_eq hr, fun a ha b hb => ?_⟩
  · obtain ⟨extra, rfl⟩ := Nat.exists_eq_add_of_le hbudget
    have hroot : ∀ item ∈ [Visit.enter f.exitNode], item.node ∈ Finset.range (f.numBlocks + 1) := by
      simp [Visit.node, Function.exitNode]
    exact searchFrom_add (fun _ _ => f.mem_range_of_mem_exitPredecessors hr) hroot
      (f.searchBudget_exitNode_lt hr) extra
  · exact (hs.spans hr).meetWithin_eq_meet hr ha hb hbudget
  · obtain ⟨extra, rfl⟩ := Nat.exists_eq_add_of_le hbudget
    exact settle_add hr afterRounds_initial (numBlocks_lt_rounds f) extra
  · by_cases hcan : f.CanReturn b
    · rw [hexact.postDominates_iff hr hcan, f.postDominates_iff_returnPath hr ha hb]
      refine ⟨.inr, ?_⟩
      rintro (rfl | h)
      · rw [← f.postDominates_iff_returnPath hr ha ha]
        exact .refl hcan
      · exact h
    · rw [hexact.postDominates_of_stuck hcan]
      refine ⟨.inl, ?_⟩
      rintro (h | h)
      · exact h
      · exact absurd ((f.canReturn_iff_returnPath hr hb).mpr h.1) hcan

theorem Exact.postDominates_antisymm (hr : f.TargetsInRange) (h : t.Exact f)
    (hab : f.PostDominates a b) (hba : f.PostDominates b a) : a = b := by
  have hb := (h.placed_iff b).mpr hab.1
  exact h.spans.above_antisymm hr hb ((h.above_iff a b hab.1).mpr hab)
    ((h.above_iff b a hba.1).mpr hba)

/-- The nearest common block of two blocks post-dominates both, and whatever post-dominates both
post-dominates it; there is none if nothing post-dominates both. A block from which no path returns
has none in common with any other. -/
theorem nearestCommon_iff_forall_returnPath (hr : f.TargetsInRange) :
    ∃ t, ofFunction f = .ok t ∧ ∀ a < f.numBlocks, ∀ b < f.numBlocks,
      ((∃ path, f.ReturnPath a path) → (∃ path, f.ReturnPath b path) →
        (∀ c, t.nearestCommon? a b = some c ↔ c < f.numBlocks ∧ f.AllReturnsPass a c ∧
          f.AllReturnsPass b c ∧ ∀ d < f.numBlocks, f.AllReturnsPass a d → f.AllReturnsPass b d →
            f.AllReturnsPass c d) ∧
        (t.nearestCommon? a b = none ↔
          ∀ d < f.numBlocks, ¬(f.AllReturnsPass a d ∧ f.AllReturnsPass b d))) ∧
      ((¬∃ path, f.ReturnPath a path) ∨ (¬∃ path, f.ReturnPath b path) →
        t.nearestCommon? a b = none) := by
  have hexact := settle_exact hr afterRounds_initial (numBlocks_lt_rounds f)
  refine ⟨_, ofFunction_eq_settle hr, fun a ha b hb => ?_⟩
  generalize settle f f.returnOrder _ _ = t at hexact
  have hpass : ∀ {x y : BlockId}, x < f.numBlocks → y < f.numBlocks →
      (f.AllReturnsPass y x ↔ f.PostDominates x y) :=
    fun hx hy => (f.postDominates_iff_returnPath hr hx hy).symm
  rw [← f.canReturn_iff_returnPath hr ha, ← f.canReturn_iff_returnPath hr hb]
  -- what a common block that is found has to do with any other one
  have hfound : ∀ {c}, t.nearestCommon? a b = some c → c < f.numBlocks ∧ f.AllReturnsPass a c ∧
      f.AllReturnsPass b c ∧ ∀ d < f.numBlocks, f.AllReturnsPass a d → f.AllReturnsPass b d →
        f.AllReturnsPass c d := by
    intro c hc
    obtain ⟨-, -, hlt, hcan, hiff⟩ := hexact.nearestCommon?_eq_some hr hc
    obtain ⟨hca, hcb⟩ := (hiff c).mp (.refl hcan)
    refine ⟨hlt, (hpass hlt ha).mpr hca, (hpass hlt hb).mpr hcb, fun d hd hda hdb => ?_⟩
    exact (hpass hd hlt).mpr ((hiff d).mpr ⟨(hpass hd ha).mp hda, (hpass hd hb).mp hdb⟩)
  refine ⟨fun hcana hcanb => ?_, fun hstuck => ?_⟩
  · have hnone : t.nearestCommon? a b = none →
        ∀ d < f.numBlocks, ¬(f.AllReturnsPass a d ∧ f.AllReturnsPass b d) := by
      intro hno d hd hboth
      have hexit := hexact.nearestCommon?_eq_none hr hno hcana hcanb ((hpass hd ha).mp hboth.1)
        ((hpass hd hb).mp hboth.2)
      exact absurd hd (hexit ▸ lt_irrefl _)
    refine ⟨fun c => ⟨hfound, fun hc => ?_⟩, hnone, fun hno => ?_⟩
    · obtain ⟨hlt, hca, hcb, hleast⟩ := hc
      cases hx : t.nearestCommon? a b with
      | none => exact absurd ⟨hca, hcb⟩ (hnone hx c hlt)
      | some x =>
        obtain ⟨hxlt, hxa, hxb, hxleast⟩ := hfound hx
        have hxc := (hpass hxlt hlt).mp (hleast x hxlt hxa hxb)
        have hcx := (hpass hlt hxlt).mp (hxleast c hlt hca hcb)
        rw [hexact.postDominates_antisymm hr hxc hcx]
    · cases hx : t.nearestCommon? a b with
      | none => rfl
      | some x =>
        obtain ⟨hxlt, hxa, hxb, -⟩ := hfound hx
        exact absurd ⟨hxa, hxb⟩ (hno x hxlt)
  · cases hx : t.nearestCommon? a b with
    | none => rfl
    | some x =>
      obtain ⟨hcana, hcanb, -⟩ := hexact.nearestCommon?_eq_some hr hx
      exact absurd hstuck (not_or.mpr ⟨not_not.mpr hcana, not_not.mpr hcanb⟩)

end PostDominators

/-- A loop with two entries, two returns, a block that never returns and one that is never
reached. -/
def tangled : Function where
  name := "main"
  entry := 0
  blocks := #[⟨[], some (.branch (.const ⟨.bool, .undef⟩) 1 2)⟩,
    ⟨[], some (.branch (.const ⟨.bool, .undef⟩) 2 3)⟩,
    ⟨[], some (.branch (.const ⟨.bool, .undef⟩) 1 4)⟩, ⟨[], some .ret⟩,
    ⟨[], some (.branch (.const ⟨.bool, .undef⟩) 5 6)⟩, ⟨[], some (.jump 5)⟩, ⟨[], some .ret⟩,
    ⟨[], some (.jump 6)⟩]
  insts := #[]
  layout := [0, 1, 2, 3, 4, 5, 6, 7]

theorem tangled_targetsInRange : tangled.TargetsInRange := by
  have ha : ∀ b < 8, ∀ c ∈ tangled.successors b, c < 8 := by decide
  exact fun b c hc => ha b
    (Function.mem_exitSuccessors_lt (Function.mem_exitSuccessors_of_mem_successors hc)) c hc

theorem returnPath_tangled : tangled.TargetsInRange ∧
    ∃ t, PostDominators.ofFunction tangled = .ok t ∧
      PostDominators.round tangled tangled.returnOrder t = t ∧
      ∀ a < 8, ∀ b < 8, (t.postDominates a b = true ↔ a = b ∨
        (∃ path, tangled.ReturnPath b path) ∧ ∀ path, tangled.ReturnPath b path → a ∈ path) := by
  have hr := tangled_targetsInRange
  obtain ⟨t, hok, -, -, -, hround, hiff⟩ := PostDominators.ofFunction_iff_forall_returnPath hr
  exact ⟨hr, t, hok, hround, hiff⟩

theorem nearestCommon_tangled : tangled.TargetsInRange ∧
    ∃ t, PostDominators.ofFunction tangled = .ok t ∧
      (t.nearestCommon? 4 7 = some 6 ∧ tangled.AllReturnsPass 4 6 ∧ tangled.AllReturnsPass 7 6 ∧
        ∀ d < 8, tangled.AllReturnsPass 4 d → tangled.AllReturnsPass 7 d →
          tangled.AllReturnsPass 6 d) ∧
      (t.nearestCommon? 1 2 = none ∧
        ∀ d < 8, ¬(tangled.AllReturnsPass 1 d ∧ tangled.AllReturnsPass 2 d)) := by
  have hr := tangled_targetsInRange
  obtain ⟨t, hok, hall⟩ := PostDominators.nearestCommon_iff_forall_returnPath hr
  have hfound : (PostDominators.ofFunction tangled).toOption.any (fun t =>
      t.nearestCommon? 4 7 == some 6 && t.nearestCommon? 1 2 == none) = true := by decide +kernel
  rw [hok] at hfound
  obtain ⟨hsix, hnone⟩ : t.nearestCommon? 4 7 = some 6 ∧ t.nearestCommon? 1 2 = none := by
    simpa [Except.toOption] using hfound
  have hlast : tangled.ReturnPath 6 [6] := .here (by decide)
  have h1 : tangled.ReturnPath 1 [1, 3] := .step (by decide) (.here (by decide))
  have h2 : tangled.ReturnPath 2 [2, 4, 6] := .step (by decide) (.step (by decide) hlast)
  have h4 : tangled.ReturnPath 4 [4, 6] := .step (by decide) hlast
  have h7 : tangled.ReturnPath 7 [7, 6] := .step (by decide) hlast
  refine ⟨hr, t, hok, ⟨hsix, ?_⟩, hnone, ?_⟩
  · exact ((((hall 4 (by decide) 7 (by decide)).1 ⟨_, h4⟩ ⟨_, h7⟩).1 6).mp hsix).2
  · exact ((hall 1 (by decide) 2 (by decide)).1 ⟨_, h1⟩ ⟨_, h2⟩).2.mp hnone

end Stagewise
