import Stagewise.Proofs.Replay.Unfolding
import Stagewise.Proofs.Sketch.Basic

namespace Stagewise

namespace Sketch

variable {k k' : Sketch} {site : BranchSite} {fork : Fork} {k'' : Sketch}

/-- The cursor is at a block, and there is nothing past the last block. -/
structure Wf (k : Sketch) : Prop where
  current_lt : k.current < k.size
  marks_nil : ∀ b, k.size ≤ b → k.marks b = []
  ends_none : ∀ b, k.size ≤ b → k.ends b = none
  joins_lt : ∀ j b, k.joins j = some b → b < k.size

theorem wf_empty : Sketch.empty.Wf := ⟨Nat.zero_lt_one, fun _ _ => rfl, fun _ _ => rfl, by simp [empty]⟩

section Append

variable (k) (ms : List Mark)

@[simp] theorem append_current : (k.append ms).current = k.current := rfl
@[simp] theorem append_exits : (k.append ms).exits = k.exits := rfl
@[simp] theorem append_joins : (k.append ms).joins = k.joins := rfl
@[simp] theorem append_marks_current :
    (k.append ms).marks k.current = k.marks k.current ++ ms := Function.update_self ..
theorem append_marks_ne {b : BlockId} (h : b ≠ k.current) : (k.append ms).marks b = k.marks b :=
  Function.update_of_ne h _ _

end Append

theorem Wf.append (h : k.Wf) (ms : List Mark) : (k.append ms).Wf := by
  refine ⟨h.current_lt, fun b hb => ?_, h.ends_none, h.joins_lt⟩
  rw [append_marks_ne k ms (Nat.ne_of_gt (Nat.lt_of_lt_of_le h.current_lt hb)), h.marks_nil b hb]

section Leave

variable (k) (fork) {join : BlockId} {b : BlockId}

@[simp] theorem leaveArm_size : (k.leaveArm fork).size = k.size := by
  unfold leaveArm finishIfOpen finish
  split <;> [split <;> [rfl; split <;> rfl]; rfl]

@[simp] theorem leaveArm_marks : (k.leaveArm fork).marks = k.marks := by
  unfold leaveArm finishIfOpen finish
  split <;> [split <;> [rfl; split <;> rfl]; rfl]

@[simp] theorem leaveArm_current : (k.leaveArm fork).current = k.current := by
  unfold leaveArm finishIfOpen finish
  split <;> [split <;> [rfl; split <;> rfl]; rfl]

@[simp] theorem leaveArm_exits : (k.leaveArm fork).exits = k.exits := by
  unfold leaveArm finishIfOpen finish
  split <;> [split <;> [rfl; split <;> rfl]; rfl]

@[simp] theorem leaveArm_joins : (k.leaveArm fork).joins = k.joins := by
  unfold leaveArm finishIfOpen finish
  split <;> [split <;> [rfl; split <;> rfl]; rfl]

@[simp] theorem leaveArm_clashes : (k.leaveArm fork).clashes = k.clashes := by
  unfold leaveArm finishIfOpen finish
  split <;> [split <;> [rfl; split <;> rfl]; rfl]

theorem leaveArm_ends_ne (h : b ≠ k.current) : (k.leaveArm fork).ends b = k.ends b := by
  unfold leaveArm finishIfOpen finish
  split
  · split
    · rfl
    · split
      · rfl
      · exact Function.update_of_ne h _ _
  · rfl

theorem leaveArm_ends_of_some {e : Exit} (h : k.ends b = some e) :
    (k.leaveArm fork).ends b = some e := by
  by_cases hb : b = k.current
  · subst hb
    unfold leaveArm finishIfOpen
    split
    · split
      · exact h
      · simp [h]
    · exact h
  · rw [leaveArm_ends_ne k fork hb, h]

theorem leaveArm_ends_join (h : fork.join = some join) (hne : k.current ≠ join)
    (ho : k.ends k.current = none) : (k.leaveArm fork).ends k.current = some (.jump join) := by
  simp [leaveArm, h, hne, finishIfOpen, finish, ho]

theorem leaveArm_of_current_eq (h : fork.join = some join) (he : k.current = join) :
    k.leaveArm fork = k := by
  simp [leaveArm, h, he]

theorem leaveArm_of_join_eq_none (h : fork.join = none) : k.leaveArm fork = k := by
  simp [leaveArm, h]

end Leave

/-- An arm of an opened fork: it starts with a new block, or at once where the arms come together. -/
inductive ArmOpens (k k' : Sketch) (site : BranchSite) (fork : Fork) (start : BlockId) :
    Arm → Prop
  | fresh {target : BlockId} : some start ≠ site.join → k.size ≤ target → target < k'.size →
      fork.join ≠ some target → ArmOpens k k' site fork start ⟨target, true⟩
  | atJoin {target : BlockId} : some start = site.join → fork.join = some target →
      ArmOpens k k' site fork start ⟨target, false⟩

structure Opened (k : Sketch) (site : BranchSite) (fork : Fork) (k' : Sketch) : Prop where
  branch : fork.branch = k.current
  current : k'.current = k.current
  size_le : k.size ≤ k'.size
  marks : k'.marks = k.marks
  ends : k'.ends = Function.update k.ends k.current
    (some (.branch site.block fork.ifTrue.target fork.ifFalse.target))
  exits : k'.exits = k.exits
  join_none : site.join = none → fork.join = none
  join_some : ∀ j, site.join = some j → ∃ b, fork.join = some b ∧ k'.joins j = some b ∧
    b < k'.size ∧ (k.joins j = some b ∨ k.joins j = none ∧ k.size ≤ b)
  joins : ∀ j, some j ≠ site.join → k'.joins j = k.joins j
  ifTrue : ArmOpens k k' site fork site.ifTrue fork.ifTrue
  ifFalse : ArmOpens k k' site fork site.ifFalse fork.ifFalse
  arms_ne : fork.ifTrue.fresh = true → fork.ifFalse.fresh = true →
    fork.ifTrue.target ≠ fork.ifFalse.target
  clashes : k.ends k.current = none → k'.clashes = k.clashes

theorem armBlock_cases (k : Sketch) (site : BranchSite) (join : Option BlockId) (arm : BlockId) :
    (∃ b, join = some b ∧ some arm = site.join ∧ k.armBlock site join arm = (⟨b, false⟩, k)) ∨
      (join = none ∨ some arm ≠ site.join) ∧
        k.armBlock site join arm = (⟨k.size, true⟩, { k with size := k.size + 1 }) := by
  cases join with
  | none => exact .inr ⟨.inl rfl, rfl⟩
  | some b =>
    by_cases h : some arm = site.join
    · exact .inl ⟨b, rfl, h, by simp [armBlock, h]⟩
    · exact .inr ⟨.inr h, by simp [armBlock, h]⟩

/-- A fork whose arms get their blocks after its join is opened, and all else is as it was. -/
theorem opened_arms {k₁ : Sketch} {join : Option BlockId} (hs : k.size ≤ k₁.size)
    (hc : k₁.current = k.current) (hm : k₁.marks = k.marks) (hen : k₁.ends = k.ends)
    (hex : k₁.exits = k.exits) (hcla : k₁.clashes = k.clashes) (hlt : ∀ b, join = some b → b < k₁.size)
    (hno : site.join = none → join = none)
    (hso : ∀ j, site.join = some j → ∃ b, join = some b ∧ k₁.joins j = some b ∧
      (k.joins j = some b ∨ k.joins j = none ∧ k.size ≤ b))
    (hjo : ∀ j, some j ≠ site.join → k₁.joins j = k.joins j) :
    Opened k site (k₁.openArms site join).1 (k₁.openArms site join).2 := by
  have hne : ∀ start, join = none ∨ some start ≠ site.join → some start ≠ site.join := by
    rintro start (h | h)
    · intro he
      obtain ⟨b, hb, -⟩ := hso start he.symm
      rw [h] at hb
      exact absurd hb (by simp)
    · exact h
  have hp : ∀ n, k₁.size ≤ n → join ≠ some n := by
    intro n hn he
    exact absurd (hlt n he) (Nat.not_lt.mpr hn)
  have hk : ∀ n, k₁.size ≤ n → ∀ j, site.join = some j → ∃ b, join = some b ∧
      k₁.joins j = some b ∧ b < n ∧ (k.joins j = some b ∨ k.joins j = none ∧ k.size ≤ b) := by
    intro n hn j hj
    obtain ⟨b, hb, hjoi, hca⟩ := hso j hj
    exact ⟨b, hb, hjoi, Nat.lt_of_lt_of_le (hlt b hb) hn, hca⟩
  have hcl : k.ends k.current = none →
      (if (k₁.ends k₁.current).isSome then k₁.clashes + 1 else k₁.clashes) = k.clashes := by
    intro ho
    simp [hc, hen, ho, hcla]
  unfold openArms
  rcases k₁.armBlock_cases site join site.ifTrue with ⟨b, hb, hst, he⟩ | ⟨hst, he⟩ <;>
    simp only [he]
  · rcases k₁.armBlock_cases site join site.ifFalse with ⟨b', hb', hs', he'⟩ | ⟨hs', he'⟩ <;>
      simp only [he']
    · refine ⟨hc, hc, hs, hm, ?_, hex, hno, hk _ (Nat.le_refl _), hjo,
        .atJoin hst hb, .atJoin hs' hb', by simp, hcl⟩
      rw [finish, hc, hen]
    · refine ⟨hc, hc, Nat.le_succ_of_le hs, hm, ?_, hex, hno,
        hk _ (Nat.le_succ _), hjo, .atJoin hst hb,
        .fresh (hne _ hs') hs (Nat.lt_succ_self _) (hp _ (Nat.le_refl _)), by simp, hcl⟩
      rw [finish, hc, hen]
  · rcases Sketch.armBlock_cases { k₁ with size := k₁.size + 1 } site join site.ifFalse with
      ⟨b', hb', hs', he'⟩ | ⟨hs', he'⟩ <;> simp only [he']
    · refine ⟨hc, hc, Nat.le_succ_of_le hs, hm, ?_, hex, hno,
        hk _ (Nat.le_succ _), hjo, .fresh (hne _ hst) hs (Nat.lt_succ_self _) (hp _ (Nat.le_refl _)),
        .atJoin hs' hb', by simp, hcl⟩
      rw [finish, hc, hen]
    · refine ⟨hc, hc, Nat.le_succ_of_le (Nat.le_succ_of_le hs), hm, ?_, hex, hno,
        hk _ (Nat.le_succ_of_le (Nat.le_succ _)), hjo,
        .fresh (hne _ hst) hs (Nat.lt_succ_of_lt (Nat.lt_succ_self _))
          (hp _ (Nat.le_refl _)),
        .fresh (hne _ hs') (Nat.le_succ_of_le hs) (Nat.lt_succ_self _)
          (hp _ (Nat.le_succ _)),
        fun _ _ => Nat.ne_of_lt (Nat.lt_succ_self _), hcl⟩
      rw [finish, hc, hen]

/-- Opening a fork ends the current block, and leaves all other blocks as they are. -/
theorem opened_openFork (hwf : k.Wf) (site : BranchSite) :
    Opened k site (k.openFork site).1 (k.openFork site).2 := by
  cases hjo : site.join with
  | none =>
    simp only [openFork, hjo]
    refine opened_arms (Nat.le_refl _) rfl rfl rfl rfl rfl (by simp) (fun _ => rfl) ?_ fun _ _ => rfl
    intro j hj
    rw [hjo] at hj
    exact absurd hj (by simp)
  | some j =>
    cases hb : k.joins j with
    | some b =>
      simp only [openFork, hjo, joinBlock, hb]
      refine opened_arms (Nat.le_refl _) rfl rfl rfl rfl rfl ?_ ?_ ?_ fun _ _ => rfl
      · intro b' hb'
        obtain rfl := Option.some.inj hb'
        exact hwf.joins_lt j b hb
      · rw [hjo]
        simp
      · intro j' hj'
        obtain rfl := Option.mem_unique hjo hj'
        exact ⟨b, rfl, hb, .inl hb⟩
    | none =>
      simp only [openFork, hjo, joinBlock, hb]
      refine opened_arms (Nat.le_succ _) rfl rfl rfl rfl rfl ?_ ?_ ?_ ?_
      · intro b' hb'
        obtain rfl := Option.some.inj hb'
        exact Nat.lt_succ_self _
      · rw [hjo]
        simp
      · intro j' hj'
        obtain rfl := Option.mem_unique hjo hj'
        exact ⟨k.size, rfl, Function.update_self .., .inr ⟨hb, Nat.le_refl _⟩⟩
      · intro j' hj'
        rw [hjo] at hj'
        exact Function.update_of_ne (fun h => hj' (congrArg some h)) _ _

/-- Marks are only added, and a block that has ended stays as it is. -/
structure Later (k k' : Sketch) : Prop where
  marks : ∀ b, k.marks b <+: k'.marks b
  ended : ∀ b e, k.ends b = some e → k'.ends b = some e ∧ k'.marks b = k.marks b

theorem Later.refl (k : Sketch) : k.Later k :=
  ⟨fun _ => List.prefix_rfl, fun _ _ h => ⟨h, rfl⟩⟩

theorem Later.trans (h : k.Later k') (h' : k'.Later k'') : k.Later k'' := by
  refine ⟨fun b => (h.marks b).trans (h'.marks b), fun b e he => ?_⟩
  obtain ⟨he', hm⟩ := h.ended b e he
  obtain ⟨he'', hm'⟩ := h'.ended b e he'
  exact ⟨he'', hm'.trans hm⟩

/-- Between two sketches only the block at the first cursor and new blocks have changed, and no block
was ended twice. -/
structure Frame (k k' : Sketch) : Prop where
  size_le : k.size ≤ k'.size
  marks : ∀ b < k.size, b ≠ k.current → k'.marks b = k.marks b
  ends : ∀ b < k.size, b ≠ k.current → k'.ends b = k.ends b
  current_marks : k.marks k.current <+: k'.marks k.current
  ended : ∀ e, k.ends k.current = some e →
    k'.ends k.current = some e ∧ k'.marks k.current = k.marks k.current
  clashes : k'.clashes = k.clashes

theorem Frame.later (h : k.Frame k') (hwf : k.Wf) : k.Later k' := by
  refine ⟨fun b => ?_, fun b e he => ?_⟩
  · by_cases hb : b = k.current
    · exact hb ▸ h.current_marks
    · by_cases hlt : b < k.size
      · rw [h.marks b hlt hb]
      · rw [hwf.marks_nil b (Nat.not_lt.mp hlt)]
        exact List.nil_prefix
  · by_cases hb : b = k.current
    · subst hb
      exact h.ended e he
    · by_cases hlt : b < k.size
      · exact ⟨(h.ends b hlt hb).trans he, h.marks b hlt hb⟩
      · rw [hwf.ends_none b (Nat.not_lt.mp hlt)] at he
        exact absurd he (by simp)

theorem Frame.of_append (ho : k.ends k.current = none) (ms : List Mark)
    (h : (k.append ms).Frame k') : k.Frame k' := by
  refine ⟨h.size_le, fun b hb hne => ?_, h.ends, ?_, fun e he => ?_, h.clashes⟩
  · rw [h.marks b hb hne, append_marks_ne k ms hne]
  · have := h.current_marks
    rw [append_current, append_marks_current] at this
    exact (List.prefix_append _ _).trans this
  · rw [ho] at he
    exact absurd he (by simp)

theorem Frame.trans (h : k.Frame k') (h' : k'.Frame k'') (hwf : k.Wf)
    (hpl : k'.current = k.current ∨ k.size ≤ k'.current) : k.Frame k'' := by
  have hlt : ∀ b < k.size, b < k'.size := fun b hb => Nat.lt_of_lt_of_le hb h.size_le
  have hne : ∀ b < k.size, b ≠ k.current → b ≠ k'.current := by
    intro b hb hbc
    rcases hpl with hp | hp
    · exact hp ▸ hbc
    · exact Nat.ne_of_lt (Nat.lt_of_lt_of_le hb hp)
  refine ⟨h.size_le.trans h'.size_le, fun b hb hbc => ?_, fun b hb hbc => ?_, ?_, fun e he => ?_,
    h'.clashes.trans h.clashes⟩
  · rw [h'.marks b (hlt b hb) (hne b hb hbc), h.marks b hb hbc]
  · rw [h'.ends b (hlt b hb) (hne b hb hbc), h.ends b hb hbc]
  · rcases hpl with hp | hp
    · exact h.current_marks.trans (hp ▸ h'.current_marks)
    · rw [h'.marks k.current (hlt _ hwf.current_lt)
        (Nat.ne_of_lt (Nat.lt_of_lt_of_le hwf.current_lt hp))]
      exact h.current_marks
  · obtain ⟨hen, hm⟩ := h.ended e he
    rcases hpl with hp | hp
    · obtain ⟨he', hm'⟩ := h'.ended e (hp ▸ hen)
      rw [hp] at he' hm'
      exact ⟨he', hm'.trans hm⟩
    · have hne := Nat.ne_of_lt (Nat.lt_of_lt_of_le hwf.current_lt hp)
      rw [h'.ends _ (hlt _ hwf.current_lt) hne, h'.marks _ (hlt _ hwf.current_lt) hne]
      exact ⟨hen, hm⟩

end Sketch

namespace Itinerary

/-- A scope goes along an itinerary in order. In the arms of a branch that it does not want no block is
of concern to it, and no other branch that it wants ends where the arms do. `enclosed` says that the
itinerary is such an arm. -/
def Orderly (plan : Plan) (quiet : BlockId → Prop) : Itinerary → Bool → Prop
  | .jump _ next, enclosed => next.Orderly plan quiet enclosed
  | .fork site arm rest, enclosed =>
    (plan.wants site = true → (rest = .done → enclosed = false) ∧
      (arm site.ifTrue).Orderly plan quiet false ∧ (arm site.ifFalse).Orderly plan quiet false) ∧
    (plan.wants site = false →
      (∀ b ∈ (arm site.ifTrue).entered ++ (arm site.ifFalse).entered, quiet b) ∧
      (arm site.ifTrue).Orderly plan quiet true ∧ (arm site.ifFalse).Orderly plan quiet true) ∧
    rest.Orderly plan quiet enclosed
  | _, _ => True

end Itinerary

namespace Sketch

variable {plan : Plan} {k k' : Sketch} {block : BlockId} {stop : Option BlockId} {enclosed : Bool}
  {it : Itinerary}

/-- A sketch from which an itinerary can be drawn: the cursor is at an open block, no block that the
scope will go on from has a join yet, and the join of the last block waits. -/
structure Apt (plan : Plan) (k : Sketch) (block : BlockId) (stop : Option BlockId) (enclosed : Bool)
    (it : Itinerary) : Prop where
  wf : k.Wf
  opened : some block ≠ stop → k.ends k.current = none
  fresh : ∀ b ∈ it.rejoined plan.wants, k.joins b = none
  pending : enclosed = false → ∀ j, stop = some j →
    ∃ b, k.joins j = some b ∧ b ≠ k.current ∧ k.ends b = none ∧ k.marks b = []

structure Outcome (plan : Plan) (k k' : Sketch) (stop : Option BlockId) (enclosed : Bool)
    (it : Itinerary) : Prop where
  wf : k'.Wf
  frame : k.Frame k'
  joins : ∀ j, j ∉ it.rejoined plan.wants → k'.joins j = k.joins j
  place : k'.current = k.current ∨ k.size ≤ k'.current ∨
    enclosed = false ∧ ∃ j, stop = some j ∧ k.joins j = some k'.current
  opened : k.ends k.current = none → stop ≠ none ∨ enclosed = true →
    k'.ends k'.current = none

theorem apt_empty : Sketch.empty.Apt plan block none enclosed it :=
  ⟨wf_empty, fun _ => rfl, fun _ _ => rfl, by simp⟩

theorem Apt.append (h : k.Apt plan block stop enclosed it) (ms : List Mark) :
    (k.append ms).Apt plan block stop enclosed it := by
  refine ⟨h.wf.append ms, h.opened, h.fresh, fun he j hj => ?_⟩
  obtain ⟨b, hb, hne, hen, hm⟩ := h.pending he j hj
  exact ⟨b, hb, hne, hen, by rw [append_marks_ne k ms hne, hm]⟩

theorem Apt.next {target : BlockId} {next : Itinerary}
    (h : k.Apt plan block stop enclosed (.jump block next))
    (hne : some block ≠ stop) : k.Apt plan target stop enclosed next :=
  ⟨h.wf, fun _ => h.opened hne, h.fresh, h.pending⟩

theorem Apt.stop_not_mem (h : k.Apt plan block stop enclosed it) (he : enclosed = false)
    {s : BlockId} (hs : stop = some s) : s ∉ it.rejoined plan.wants := by
  intro hm
  obtain ⟨b, hb, -⟩ := h.pending he s hs
  rw [h.fresh s hm] at hb
  exact absurd hb (by simp)

section Fork

variable {k₁ : Sketch} {site : BranchSite} {fork : Fork} {arm other : Arm} {start start' : BlockId}
  {T F : Itinerary}

structure ForkPlace (plan : Plan) (k : Sketch) (site : BranchSite) (T F : Itinerary) : Prop where
  wf : k.Wf
  opened : k.ends k.current = none
  fresh : ∀ b, b ∈ T.rejoined plan.wants ∨ b ∈ F.rejoined plan.wants → k.joins b = none
  apart : ∀ j, site.join = some j → j ∉ T.rejoined plan.wants ∧ j ∉ F.rejoined plan.wants
  disjoint : ∀ b ∈ T.rejoined plan.wants, b ∉ F.rejoined plan.wants
  pending : ∀ j b, site.join = some j → k.joins j = some b →
    b ≠ k.current ∧ k.ends b = none ∧ k.marks b = []

/-- What holds of an opened fork while its arms are drawn: the branch has ended its block, and the
block where the arms come together waits. -/
structure Standing (k : Sketch) (site : BranchSite) (fork : Fork) : Prop where
  wf : k.Wf
  branch_lt : fork.branch < k.size
  branch_ended : ∃ e, k.ends fork.branch = some e
  join_none : site.join = none → fork.join = none
  join_some : ∀ j, site.join = some j → ∃ b, fork.join = some b ∧ k.joins j = some b ∧
    b < k.size ∧ b ≠ fork.branch ∧ k.ends b = none ∧ k.marks b = []

inductive ArmStanding (k : Sketch) (site : BranchSite) (fork : Fork) (start : BlockId) : Arm → Prop
  | fresh {target : BlockId} : some start ≠ site.join → target < k.size → target ≠ fork.branch →
      k.ends target = none → k.marks target = [] → fork.join ≠ some target →
      ArmStanding k site fork start ⟨target, true⟩
  | atJoin {target : BlockId} : some start = site.join → fork.join = some target →
      ArmStanding k site fork start ⟨target, false⟩

/-- An opened fork stands, if the block where its arms come together was still waiting. -/
theorem Opened.standing (ho : k.Opened site fork k₁) (hwf : k.Wf)
    (hp : ∀ j b, site.join = some j → k.joins j = some b →
      b ≠ k.current ∧ k.ends b = none ∧ k.marks b = []) : k₁.Standing site fork := by
  have hn : ∀ b, k.size ≤ b → k₁.ends b = none ∧ k₁.marks b = [] := by
    intro b hb
    have hne : b ≠ k.current := Nat.ne_of_gt (Nat.lt_of_lt_of_le hwf.current_lt hb)
    rw [ho.ends, ho.marks, Function.update_of_ne hne]
    exact ⟨hwf.ends_none b hb, hwf.marks_nil b hb⟩
  have hjoi : ∀ j, site.join = some j → ∃ b, fork.join = some b ∧ k₁.joins j = some b ∧
      b < k₁.size ∧ b ≠ fork.branch ∧ k₁.ends b = none ∧ k₁.marks b = [] := by
    intro j hj
    obtain ⟨b, hf, hjo, hlt, hc⟩ := ho.join_some j hj
    rw [ho.branch]
    rcases hc with hol | ⟨-, hge⟩
    · obtain ⟨hne, he, hm⟩ := hp j b hj hol
      refine ⟨b, hf, hjo, hlt, hne, ?_, ?_⟩
      · rw [ho.ends, Function.update_of_ne hne, he]
      · rw [ho.marks, hm]
    · exact ⟨b, hf, hjo, hlt, Nat.ne_of_gt (Nat.lt_of_lt_of_le hwf.current_lt hge), hn b hge⟩
  have hcu : k.current < k₁.size := Nat.lt_of_lt_of_le hwf.current_lt ho.size_le
  refine ⟨⟨ho.current ▸ hcu, fun b hb => (hn b (ho.size_le.trans hb)).2,
    fun b hb => (hn b (ho.size_le.trans hb)).1, fun j b hj => ?_⟩, ?_, ?_, ho.join_none, hjoi⟩
  · by_cases hs : some j = site.join
    · obtain ⟨b', -, hjo, hlt, -⟩ := hjoi j hs.symm
      obtain rfl := Option.mem_unique hjo hj
      exact hlt
    · have hol : k.joins j = some b := (ho.joins j hs).symm.trans hj
      exact Nat.lt_of_lt_of_le (hwf.joins_lt j b hol) ho.size_le
  · rw [ho.branch]
    exact hcu
  · refine ⟨.branch site.block fork.ifTrue.target fork.ifFalse.target, ?_⟩
    rw [ho.ends, ho.branch]
    exact Function.update_self ..

theorem Opened.armStanding (ho : k.Opened site fork k₁) (hwf : k.Wf)
    (h : ArmOpens k k₁ site fork start arm) : ArmStanding k₁ site fork start arm := by
  cases h with
  | @fresh target hne hge hlt hj =>
    have hc : target ≠ k.current := Nat.ne_of_gt (Nat.lt_of_lt_of_le hwf.current_lt hge)
    refine .fresh hne hlt (ho.branch ▸ hc) ?_ ?_ hj
    · rw [ho.ends, Function.update_of_ne hc, hwf.ends_none target hge]
    · rw [ho.marks, hwf.marks_nil target hge]
  | atJoin he hj => exact .atJoin he hj

theorem Standing.apt (hs : k.Standing site fork) (ha : ArmStanding k site fork start arm)
    (hf : ∀ b ∈ it.rejoined plan.wants, k.joins b = none) :
    (k.enterArm fork arm).Apt plan start site.join false it := by
  cases ha with
  | @fresh target hne hlt _ hen _ hjoi =>
    refine ⟨⟨hlt, hs.wf.marks_nil, hs.wf.ends_none, hs.wf.joins_lt⟩, fun _ => hen,
      hf, fun _ j hj => ?_⟩
    obtain ⟨b, hfo, hjo, -, -, he', hm'⟩ := hs.join_some j hj
    refine ⟨b, hjo, ?_, he', hm'⟩
    intro (h : b = target)
    exact hjoi (h ▸ hfo)
  | @atJoin target he hjoi =>
    refine ⟨⟨hs.branch_lt, hs.wf.marks_nil, hs.wf.ends_none, hs.wf.joins_lt⟩,
      fun h => absurd he h, hf, fun _ j hj => ?_⟩
    obtain ⟨b, -, hjo, -, hne, he', hm'⟩ := hs.join_some j hj
    exact ⟨b, hjo, hne, he', hm'⟩

theorem Standing.left (hs : k.Standing site fork) (ha : ArmStanding k site fork start arm)
    (hou : (k.enterArm fork arm).Outcome plan k' site.join false it) {b : BlockId} (hb : b < k.size)
    (hne : arm.fresh = true → b ≠ arm.target) :
    (k'.leaveArm fork).marks b = k.marks b ∧ (k'.leaveArm fork).ends b = k.ends b := by
  rw [leaveArm_marks]
  have ho : b ≠ (k.enterArm fork arm).current →
      k'.marks b = k.marks b ∧ (k'.leaveArm fork).ends b = k.ends b := by
    intro hbc
    have hen : k'.ends b = k.ends b := hou.frame.ends b hb hbc
    refine ⟨hou.frame.marks b hb hbc, ?_⟩
    by_cases hc : b = k'.current
    · -- an old block at the cursor is where the arms come together
      rcases hou.place with h | h | ⟨-, j, hj, hjb⟩
      · exact absurd (hc.trans h) hbc
      · exact absurd hb (Nat.not_lt.mpr (hc ▸ h))
      · obtain ⟨b', hf, hjo, -⟩ := hs.join_some j hj
        have hbb : b' = k'.current := Option.mem_unique hjo hjb
        rw [leaveArm_of_current_eq k' fork hf hbb.symm]
        exact hen
    · rw [leaveArm_ends_ne k' fork hc, hen]
  cases ha with
  | fresh _ _ _ _ _ _ => exact ho (hne rfl)
  | atJoin _ _ =>
    by_cases hbr : b = fork.branch
    · subst hbr
      obtain ⟨e, he⟩ := hs.branch_ended
      obtain ⟨hend, hm⟩ := hou.frame.ended e he
      exact ⟨hm, (leaveArm_ends_of_some k' fork hend).trans he.symm⟩
    · exact ho hbr

/-- A fork stands while its arms are drawn: leaving an arm puts nothing into the waiting join. -/
theorem Standing.next (hs : k.Standing site fork) (ha : ArmStanding k site fork start arm)
    (ho : (k.enterArm fork arm).Outcome plan k' site.join false it)
    (hap : ∀ j, site.join = some j → j ∉ it.rejoined plan.wants) :
    (k'.leaveArm fork).Standing site fork := by
  have hsi : k.size ≤ k'.size := ho.frame.size_le
  have hbr : arm.fresh = true → fork.branch ≠ arm.target := by
    intro hf
    cases ha with
    | fresh _ _ hne _ _ _ => exact hne.symm
    | atJoin _ _ => exact absurd hf (by simp)
  refine ⟨⟨?_, ?_, fun b hb => ?_, ?_⟩, ?_, ?_, hs.join_none, fun j hj => ?_⟩
  · rw [leaveArm_current, leaveArm_size]
    exact ho.wf.current_lt
  · rw [leaveArm_marks, leaveArm_size]
    exact ho.wf.marks_nil
  · rw [leaveArm_size] at hb
    rw [leaveArm_ends_ne k' fork (Nat.ne_of_gt (Nat.lt_of_lt_of_le ho.wf.current_lt hb))]
    exact ho.wf.ends_none b hb
  · rw [leaveArm_joins, leaveArm_size]
    exact ho.wf.joins_lt
  · rw [leaveArm_size]
    exact Nat.lt_of_lt_of_le hs.branch_lt hsi
  · obtain ⟨e, he⟩ := hs.branch_ended
    exact ⟨e, (hs.left ha ho hs.branch_lt hbr).2.trans he⟩
  · obtain ⟨b, hfo, hjo, hlt, hne, hen, hm⟩ := hs.join_some j hj
    have hk := hs.left ha ho hlt fun hf => by
      cases ha with
      | @fresh target _ _ _ _ _ hj' => exact fun (h : b = target) => hj' (h ▸ hfo)
      | atJoin _ _ => exact absurd hf (by simp)
    refine ⟨b, hfo, ?_, ?_, hne, hk.2.trans hen, hk.1.trans hm⟩
    · rw [leaveArm_joins, ho.joins j (hap j hj)]
      exact hjo
    · rw [leaveArm_size]
      exact Nat.lt_of_lt_of_le hlt hsi

theorem ArmStanding.next (ha' : ArmStanding k site fork start' other) (hs : k.Standing site fork)
    (ha : ArmStanding k site fork start arm)
    (ho : (k.enterArm fork arm).Outcome plan k' site.join false it)
    (hne : arm.fresh = true → other.fresh = true → arm.target ≠ other.target) :
    ArmStanding (k'.leaveArm fork) site fork start' other := by
  cases ha' with
  | @fresh target hst hlt hb hen hm hj =>
    have hk := hs.left ha ho hlt fun hf => (hne hf rfl).symm
    refine .fresh hst ?_ hb (hk.2.trans hen) (hk.1.trans hm) hj
    rw [leaveArm_size]
    exact Nat.lt_of_lt_of_le hlt ho.frame.size_le
  | atJoin he hj => exact .atJoin he hj

structure Closed (plan : Plan) (k k' : Sketch) (site : BranchSite) (T F : Itinerary) : Prop where
  wf : k'.Wf
  frame : k.Frame k'
  joins : ∀ j, some j ≠ site.join → j ∉ T.rejoined plan.wants → j ∉ F.rejoined plan.wants →
    k'.joins j = k.joins j
  join_some : ∀ j, site.join = some j → k'.joins j = some k'.current ∧
    k'.ends k'.current = none ∧ k'.marks k'.current = [] ∧
    (k.joins j = some k'.current ∨ k.joins j = none ∧ k.size ≤ k'.current)
  join_none : site.join = none → k.size ≤ k'.current

theorem ForkPlace.standing (hp : k.ForkPlace plan site T F) (ho : k.Opened site fork k₁) :
    k₁.Standing site fork := ho.standing hp.wf hp.pending

theorem ForkPlace.joins (hp : k.ForkPlace plan site T F) (ho : k.Opened site fork k₁) {b : BlockId}
    (hb : b ∈ T.rejoined plan.wants ∨ b ∈ F.rejoined plan.wants) : k₁.joins b = none := by
  have hne : some b ≠ site.join := by
    intro h
    rcases hb with hb | hb
    · exact (hp.apart b h.symm).1 hb
    · exact (hp.apart b h.symm).2 hb
  rw [ho.joins b hne, hp.fresh b hb]

theorem ForkPlace.armTrue (hp : k.ForkPlace plan site T F) (ho : k.Opened site fork k₁) :
    (k₁.enterArm fork fork.ifTrue).Apt plan site.ifTrue site.join false T :=
  (hp.standing ho).apt (ho.armStanding hp.wf ho.ifTrue) fun _ hb => hp.joins ho (.inl hb)

section Arms

variable {kT kF : Sketch}

structure FirstArm (plan : Plan) (k₁ kT : Sketch) (site : BranchSite) (fork : Fork) (T : Itinerary) :
    Prop where
  standing : kT.Standing site fork
  other : ArmStanding kT site fork site.ifFalse fork.ifFalse
  size_le : k₁.size ≤ kT.size
  marks : ∀ b < k₁.size, (fork.ifTrue.fresh = true → b ≠ fork.ifTrue.target) →
    kT.marks b = k₁.marks b
  ends : ∀ b < k₁.size, (fork.ifTrue.fresh = true → b ≠ fork.ifTrue.target) →
    kT.ends b = k₁.ends b
  joins : ∀ j, j ∉ T.rejoined plan.wants → kT.joins j = k₁.joins j
  clashes : kT.clashes = k₁.clashes

theorem ForkPlace.firstArm (hp : k.ForkPlace plan site T F) (ho : k.Opened site fork k₁)
    (hT : (k₁.enterArm fork fork.ifTrue).Outcome plan kT site.join false T) :
    FirstArm plan k₁ (kT.leaveArm fork) site fork T := by
  have hs := hp.standing ho
  have ha := ho.armStanding hp.wf ho.ifTrue
  refine ⟨hs.next ha hT fun j hj => (hp.apart j hj).1,
    (ho.armStanding hp.wf ho.ifFalse).next hs ha hT ho.arms_ne, ?_,
    fun b hb hne => (hs.left ha hT hb hne).1, fun b hb hne => (hs.left ha hT hb hne).2,
    fun j hj => ?_, ?_⟩
  · rw [leaveArm_size]
    exact hT.frame.size_le
  · rw [leaveArm_joins]
    exact hT.joins j hj
  · rw [leaveArm_clashes]
    exact hT.frame.clashes

theorem ForkPlace.armFalse (hp : k.ForkPlace plan site T F) (ho : k.Opened site fork k₁)
    (hT : (k₁.enterArm fork fork.ifTrue).Outcome plan kT site.join false T) :
    ((kT.leaveArm fork).enterArm fork fork.ifFalse).Apt plan site.ifFalse site.join false F := by
  have hf := hp.firstArm ho hT
  refine hf.standing.apt hf.other fun b hb => ?_
  rw [hf.joins b fun hbT => hp.disjoint b hbT hb, hp.joins ho (.inr hb)]

/-- When both arms are drawn and the fork is closed, drawing goes on at the join. -/
theorem ForkPlace.closed (hp : k.ForkPlace plan site T F) (ho : k.Opened site fork k₁)
    (hT : (k₁.enterArm fork fork.ifTrue).Outcome plan kT site.join false T)
    (hF : ((kT.leaveArm fork).enterArm fork fork.ifFalse).Outcome plan kF site.join false F) :
    k.Closed plan ((kF.leaveArm fork).closeFork fork) site T F := by
  have hfi := hp.firstArm ho hT
  have hs := hfi.standing.next hfi.other hF fun j hj => (hp.apart j hj).2
  have hfa : ∀ b < (kT.leaveArm fork).size,
      (fork.ifFalse.fresh = true → b ≠ fork.ifFalse.target) →
      (kF.leaveArm fork).marks b = (kT.leaveArm fork).marks b ∧
        (kF.leaveArm fork).ends b = (kT.leaveArm fork).ends b :=
    fun b hb hne => hfi.standing.left hfi.other hF hb hne
  -- an old block is the first block of neither arm
  have hol : ∀ b < k.size, (kF.leaveArm fork).marks b = k₁.marks b ∧
      (kF.leaveArm fork).ends b = k₁.ends b := by
    intro b hb
    have hne : ∀ {start : BlockId} {arm : Arm}, ArmOpens k k₁ site fork start arm →
        arm.fresh = true → b ≠ arm.target := by
      intro start arm ha hf
      cases ha with
      | fresh _ hge _ _ => exact Nat.ne_of_lt (Nat.lt_of_lt_of_le hb hge)
      | atJoin _ _ => exact absurd hf (by simp)
    have hlt := Nat.lt_of_lt_of_le hb ho.size_le
    obtain ⟨hm, hen⟩ := hfa b (Nat.lt_of_lt_of_le hlt hfi.size_le) (hne ho.ifFalse)
    exact ⟨hm.trans (hfi.marks b hlt (hne ho.ifTrue)),
      hen.trans (hfi.ends b hlt (hne ho.ifTrue))⟩
  have hsi : k.size ≤ (kF.leaveArm fork).size := by
    rw [leaveArm_size]
    exact ho.size_le.trans (hfi.size_le.trans hF.frame.size_le)
  have hc := hol k.current hp.wf.current_lt
  generalize hC : (kF.leaveArm fork).closeFork fork = kC
  have hfie : kC.size = (kF.leaveArm fork).size ∧ kC.marks = (kF.leaveArm fork).marks ∧
      kC.ends = (kF.leaveArm fork).ends ∧ kC.joins = (kF.leaveArm fork).joins ∧
      kC.clashes = (kF.leaveArm fork).clashes := by
    rw [← hC]
    unfold closeFork
    split <;> exact ⟨rfl, rfl, rfl, rfl, rfl⟩
  obtain ⟨hCs, hCm, hCe, hCj, hCcl⟩ := hfie
  have hCc : ∀ j, site.join = some j → fork.join = some kC.current := by
    intro j hj
    obtain ⟨b, hfo, -⟩ := hs.join_some j hj
    rw [← hC, closeFork, hfo]
  have hCn : site.join = none → kC.current = kF.current := by
    intro hj
    rw [← hC, closeFork, hs.join_none hj]
    simp
  refine ⟨⟨?_, ?_, ?_, ?_⟩, ⟨hCs ▸ hsi, fun b hb hne => ?_, fun b hb hne => ?_, ?_, ?_, ?_⟩,
    fun j hj hT' hF' => ?_, fun j hj => ?_, fun hj => ?_⟩
  · rw [hCs]
    cases hj : site.join with
    | none =>
      rw [hCn hj, leaveArm_size]
      exact hF.wf.current_lt
    | some j =>
      obtain ⟨b, hfo, -, hlt, -⟩ := hs.join_some j hj
      obtain rfl := Option.mem_unique hfo (hCc j hj)
      exact hlt
  · rw [hCs, hCm]
    exact hs.wf.marks_nil
  · rw [hCs, hCe]
    exact hs.wf.ends_none
  · rw [hCs, hCj]
    exact hs.wf.joins_lt
  · rw [hCm, (hol b hb).1, ho.marks]
  · rw [hCe, (hol b hb).2, ho.ends, Function.update_of_ne hne]
  · rw [hCm, hc.1, ho.marks]
  · intro e he
    rw [hp.opened] at he
    exact absurd he (by simp)
  · have hkF : kF.clashes = (kT.leaveArm fork).clashes := hF.frame.clashes
    rw [hCcl, leaveArm_clashes, hkF, hfi.clashes, ho.clashes hp.opened]
  · have hkF : kF.joins j = (kT.leaveArm fork).joins j := hF.joins j hF'
    rw [hCj, leaveArm_joins, hkF, hfi.joins j hT', ho.joins j hj]
  · obtain ⟨b, hfo, hjo, -, -, hen, hm⟩ := hs.join_some j hj
    obtain ⟨b', hf', -, -, hca⟩ := ho.join_some j hj
    obtain rfl := Option.mem_unique hfo (hCc j hj)
    obtain rfl := Option.mem_unique hfo hf'
    exact ⟨by rw [hCj, hjo], by rw [hCe, hen], by rw [hCm, hm], hca⟩
  · rw [hCn hj]
    rcases hF.place with h | h | ⟨-, j, hj', -⟩
    · have ha := ho.ifFalse
      rw [h]
      generalize fork.ifFalse = arm at ha
      cases ha with
      | fresh _ hge _ _ => exact hge
      | atJoin he _ => exact absurd (he.trans hj) (by simp)
    · exact ho.size_le.trans (hfi.size_le.trans h)
    · rw [hj] at hj'
      exact absurd hj' (by simp)

end Arms

section Parts

variable {armOf : BlockId → Itinerary} {rest : Itinerary}

theorem nodup_fork (h : (Itinerary.fork site armOf rest).entered.Nodup) :
    (∀ b, b ∈ (armOf site.ifTrue).entered ∨ b ∈ (armOf site.ifFalse).entered ∨ b ∈ rest.entered →
      b ≠ site.block) ∧
    (armOf site.ifTrue).entered.Nodup ∧ (armOf site.ifFalse).entered.Nodup ∧ rest.entered.Nodup ∧
    (∀ b ∈ (armOf site.ifTrue).entered, b ∉ (armOf site.ifFalse).entered) ∧
    ∀ b ∈ rest.entered, b ∉ (armOf site.ifTrue).entered ∧ b ∉ (armOf site.ifFalse).entered := by
  obtain ⟨hbl, h⟩ := List.nodup_cons.mp h
  obtain ⟨ha, hr, hd⟩ := List.nodup_append.mp h
  obtain ⟨ht, hf, ha⟩ := List.nodup_append.mp ha
  refine ⟨fun b hb he => hbl ?_, ht, hf, hr, fun b hb hb' => ha b hb b hb' rfl,
    fun b hb => ⟨fun hb' => ?_, fun hb' => ?_⟩⟩
  · rw [← he]
    simp only [List.mem_append]
    tauto
  · exact hd b (List.mem_append_left _ hb') b hb rfl
  · exact hd b (List.mem_append_right _ hb') b hb rfl

theorem Apt.forkPlace (h : k.Apt plan block stop enclosed (.fork site armOf rest))
    (hw : plan.wants site = true) (hne : some block ≠ stop)
    (hn : ((Itinerary.fork site armOf rest).rejoined plan.wants).Nodup)
    (hjo : site.join = stop ∧ enclosed = false ∨ ∃ j, rest.start = some j ∧ site.join = some j) :
    k.ForkPlace plan site (armOf site.ifTrue) (armOf site.ifFalse) := by
  obtain ⟨-, -, -, hd, -, hst⟩ := Itinerary.nodup_rejoined_fork hn
  have hf : ∀ b, b ∈ (armOf site.ifTrue).rejoined plan.wants ∨
      b ∈ (armOf site.ifFalse).rejoined plan.wants ∨ rest.start = some b → k.joins b = none := by
    intro b hb
    refine h.fresh b ?_
    simp only [Itinerary.rejoined, hw, if_true, List.mem_append, Option.mem_toList]
    tauto
  refine ⟨h.wf, h.opened hne, fun b hb => hf b (by tauto), fun j hj => ?_, hd,
    fun j b hj hb => ?_⟩
  · rcases hjo with ⟨hs, he⟩ | ⟨j', hj', hso⟩
    · have hm := h.stop_not_mem he (hs ▸ hj)
      simp only [Itinerary.rejoined, List.mem_append, not_or] at hm
      exact hm.1
    · obtain rfl := Option.mem_unique hj hso
      obtain ⟨hT, hF, -⟩ := hst j hw hj'
      exact ⟨hT, hF⟩
  · rcases hjo with ⟨hs, he⟩ | ⟨j', hj', hso⟩
    · obtain ⟨b', hb', hwa⟩ := h.pending he j (hs ▸ hj)
      obtain rfl := Option.mem_unique hb hb'
      exact hwa
    · obtain rfl := Option.mem_unique hj hso
      rw [hf j (.inr (.inr hj'))] at hb
      exact absurd hb (by simp)

variable {j : BlockId}

theorem Closed.current_new
    (hc : k.Closed plan k' site (armOf site.ifTrue) (armOf site.ifFalse))
    (h : k.Apt plan block stop enclosed (.fork site armOf rest)) (hw : plan.wants site = true)
    (hj : site.join = some j) (hs : rest.start = some j) : k.size ≤ k'.current := by
  rcases (hc.join_some j hj).2.2.2 with ho | hn
  · rw [h.fresh j (by simp [Itinerary.rejoined, hw, hs])] at ho
    exact absurd ho (by simp)
  · exact hn.2

theorem Closed.apt (hc : k.Closed plan k' site (armOf site.ifTrue) (armOf site.ifFalse))
    (h : k.Apt plan block stop enclosed (.fork site armOf rest)) (hw : plan.wants site = true)
    (hn : ((Itinerary.fork site armOf rest).rejoined plan.wants).Nodup)
    (hj : site.join = some j) (hst : rest.start = some j) (hjs : some j ≠ stop) :
    k'.Apt plan j stop enclosed rest := by
  obtain ⟨-, -, -, -, hr, hjo⟩ := Itinerary.nodup_rejoined_fork hn
  have hnew := hc.current_new h hw hj hst
  refine ⟨hc.wf, fun _ => (hc.join_some j hj).2.1, fun b hb => ?_, fun hen s hs => ?_⟩
  · have hne : some b ≠ site.join := by
      intro he
      obtain rfl := Option.some.inj (he.trans hj)
      exact (hjo b hw hst).2.2 hb
    rw [hc.joins b hne (hr b hb).1 (hr b hb).2]
    exact h.fresh b (by simp [Itinerary.rejoined, hb])
  · obtain ⟨b, hb, hbc, hbe, hbm⟩ := h.pending hen s hs
    have hlt := h.wf.joins_lt s b hb
    have hsj : some s ≠ site.join := fun he => hjs (hj.symm.trans (he.symm.trans hs.symm))
    have ho := h.stop_not_mem hen hs
    simp only [Itinerary.rejoined, List.mem_append, not_or] at ho
    refine ⟨b, ?_, Nat.ne_of_lt (Nat.lt_of_lt_of_le hlt hnew), ?_, ?_⟩
    · rw [hc.joins s hsj ho.1.1 ho.1.2, hb]
    · rw [hc.frame.ends b hlt hbc, hbe]
    · rw [hc.frame.marks b hlt hbc, hbm]

theorem Apt.flatTrue (h : k.Apt plan block stop enclosed (.fork site armOf rest))
    (hne : some block ≠ stop) : k.Apt plan site.ifTrue site.join true (armOf site.ifTrue) :=
  ⟨h.wf, fun _ => h.opened hne, fun b hb => h.fresh b (by simp [Itinerary.rejoined, hb]), by simp⟩

theorem Apt.flatFalse {kT : Sketch} (h : k.Apt plan block stop enclosed (.fork site armOf rest))
    (hne : some block ≠ stop)
    (hn : ((Itinerary.fork site armOf rest).rejoined plan.wants).Nodup)
    (hT : k.Outcome plan kT site.join true (armOf site.ifTrue)) :
    kT.Apt plan site.ifFalse site.join true (armOf site.ifFalse) := by
  obtain ⟨-, -, -, hd, -⟩ := Itinerary.nodup_rejoined_fork hn
  refine ⟨hT.wf, fun _ => hT.opened (h.opened hne) (.inr rfl), fun b hb => ?_, by simp⟩
  rw [hT.joins b fun hb' => hd b hb' hb]
  exact h.fresh b (by simp [Itinerary.rejoined, hb])

structure Passed (plan : Plan) (k k' : Sketch) (T F : Itinerary) : Prop where
  wf : k'.Wf
  frame : k.Frame k'
  joins : ∀ j, j ∉ T.rejoined plan.wants → j ∉ F.rejoined plan.wants → k'.joins j = k.joins j
  place : k'.current = k.current ∨ k.size ≤ k'.current
  opened : k'.ends k'.current = none

theorem Outcome.passed {kT kF : Sketch} (hwf : k.Wf)
    (ho : k.ends k.current = none) (hT : k.Outcome plan kT stop true T)
    (hF : kT.Outcome plan kF stop true F) : k.Passed plan kF T F := by
  have hp : kT.current = k.current ∨ k.size ≤ kT.current := by
    rcases hT.place with h | h | ⟨h, -⟩
    · exact .inl h
    · exact .inr h
    · exact absurd h (by simp)
  refine ⟨hF.wf, hT.frame.trans hF.frame hwf hp, fun j hjT hjF => ?_, ?_,
    hF.opened (hT.opened ho (.inr rfl)) (.inr rfl)⟩
  · rw [hF.joins j hjF, hT.joins j hjT]
  · rcases hF.place with h | h | ⟨h, -⟩
    · rw [h]
      exact hp
    · exact .inr (hT.frame.size_le.trans h)
    · exact absurd h (by simp)

theorem Passed.apt (hp : k.Passed plan k' (armOf site.ifTrue) (armOf site.ifFalse))
    (h : k.Apt plan block stop enclosed (.fork site armOf rest))
    (hn : ((Itinerary.fork site armOf rest).rejoined plan.wants).Nodup) :
    k'.Apt plan j stop enclosed rest := by
  obtain ⟨-, -, -, -, hr, -⟩ := Itinerary.nodup_rejoined_fork hn
  refine ⟨hp.wf, fun _ => hp.opened, fun b hb => ?_, fun he s hs => ?_⟩
  · rw [hp.joins b (hr b hb).1 (hr b hb).2]
    exact h.fresh b (by simp [Itinerary.rejoined, hb])
  · obtain ⟨b, hb, hbc, hbe, hbm⟩ := h.pending he s hs
    have hlt := h.wf.joins_lt s b hb
    have hm := h.stop_not_mem he hs
    simp only [Itinerary.rejoined, List.mem_append, not_or] at hm
    refine ⟨b, by rw [hp.joins s hm.1.1 hm.1.2, hb], ?_, ?_, ?_⟩
    · rcases hp.place with h' | h'
      · exact h' ▸ hbc
      · exact Nat.ne_of_lt (Nat.lt_of_lt_of_le hlt h')
    · rw [hp.frame.ends b hlt hbc, hbe]
    · rw [hp.frame.marks b hlt hbc, hbm]

end Parts

end Fork

section Outcomes

variable {faithful : Bool}

theorem Outcome.of_append (ms : List Mark) (ho : k.ends k.current = none)
    (h : (k.append ms).Outcome plan k' stop enclosed it) : k.Outcome plan k' stop enclosed it :=
  ⟨h.wf, h.frame.of_append ho ms, h.joins, h.place, h.opened⟩

theorem Outcome.mono {it' : Itinerary} (h : k.Outcome plan k' stop enclosed it)
    (hs : ∀ b ∈ it.rejoined plan.wants, b ∈ it'.rejoined plan.wants) :
    k.Outcome plan k' stop enclosed it' :=
  ⟨h.wf, h.frame, fun j hj => h.joins j fun hm => hj (hs j hm), h.place, h.opened⟩

theorem Frame.refl (k : Sketch) : k.Frame k :=
  ⟨Nat.le_refl _, fun _ _ _ => rfl, fun _ _ _ => rfl, List.prefix_rfl, fun _ he => ⟨he, rfl⟩, rfl⟩

theorem Outcome.refl (hwf : k.Wf) (stop : Option BlockId) (enclosed : Bool) (it : Itinerary) :
    k.Outcome plan k stop enclosed it :=
  ⟨hwf, .refl k, fun _ _ => rfl, .inl rfl, fun h _ => h⟩

theorem finishIfOpen_eq {e : Exit} (h : k.ends k.current = none) :
    k.finishIfOpen e = k.finish e := by
  simp [finishIfOpen, h]

variable {site : BranchSite} {armOf : BlockId → Itinerary}

theorem Closed.outcome {k'' : Sketch}
    {rest : Itinerary} {j : BlockId}
    (hc : k.Closed plan k' site (armOf site.ifTrue) (armOf site.ifFalse))
    (h : k.Apt plan block stop enclosed (.fork site armOf rest)) (hw : plan.wants site = true)
    (hj : site.join = some j) (hst : rest.start = some j) (hjs : some j ≠ stop)
    (ho : k'.Outcome plan k'' stop enclosed rest) :
    k.Outcome plan k'' stop enclosed (.fork site armOf rest) := by
  have hn := hc.current_new h hw hj hst
  have hjo : ∀ i, i ∉ (Itinerary.fork site armOf rest).rejoined plan.wants →
      some i ≠ site.join → k''.joins i = k.joins i := by
    intro i hi hij
    simp only [Itinerary.rejoined, List.mem_append, not_or] at hi
    rw [ho.joins i hi.2.2, hc.joins i hij hi.1.1 hi.1.2]
  refine ⟨ho.wf, hc.frame.trans ho.frame h.wf (.inr hn), fun i hi => hjo i hi ?_, ?_, ?_⟩
  · intro he
    obtain rfl := Option.some.inj (he.trans hj)
    exact hi (by simp [Itinerary.rejoined, hw, hst])
  · rcases ho.place with hp | hp | ⟨hen, s, hs, hb⟩
    · exact .inr (.inl (hp ▸ hn))
    · exact .inr (.inl (hc.frame.size_le.trans hp))
    · refine .inr (.inr ⟨hen, s, hs, ?_⟩)
      have hsm := h.stop_not_mem hen hs
      have hsj : some s ≠ site.join := fun he => hjs (hj.symm.trans (he.symm.trans hs.symm))
      simp only [Itinerary.rejoined, List.mem_append, not_or] at hsm
      rwa [hc.joins s hsj hsm.1.1 hsm.1.2] at hb
  · exact fun _ hca => ho.opened (hc.join_some j hj).2.1 hca

theorem Passed.outcome {k'' : Sketch}
    {rest : Itinerary} (hp : k.Passed plan k' (armOf site.ifTrue) (armOf site.ifFalse))
    (h : k.Apt plan block stop enclosed (.fork site armOf rest))
    (ho : k'.Outcome plan k'' stop enclosed rest) :
    k.Outcome plan k'' stop enclosed (.fork site armOf rest) := by
  refine ⟨ho.wf, hp.frame.trans ho.frame h.wf hp.place, fun i hi => ?_, ?_,
    fun _ hca => ho.opened hp.opened hca⟩
  · simp only [Itinerary.rejoined, List.mem_append, not_or] at hi
    rw [ho.joins i hi.2.2, hp.joins i hi.1.1 hi.1.2]
  · rcases ho.place with hc | hc | ⟨he, s, hs, hb⟩
    · rw [hc]
      exact hp.place.imp_right .inl
    · exact .inr (.inl (hp.frame.size_le.trans hc))
    · have hsm := h.stop_not_mem he hs
      simp only [Itinerary.rejoined, List.mem_append, not_or] at hsm
      rw [hp.joins s hsm.1.1 hsm.1.2] at hb
      exact .inr (.inr ⟨he, s, hs, hb⟩)

theorem Closed.outcome_shared
    (hc : k.Closed plan k' site (armOf site.ifTrue) (armOf site.ifFalse)) (he : enclosed = false)
    (hs : site.join = stop) (h : k.Apt plan block stop enclosed (.fork site armOf .done)) :
    k.Outcome plan k' stop enclosed (.fork site armOf .done) := by
  subst hs
  refine ⟨hc.wf, hc.frame, fun i hi => ?_, ?_, fun _ hca => ?_⟩
  · simp only [Itinerary.rejoined, List.mem_append, not_or] at hi
    by_cases hij : some i = site.join
    · obtain ⟨hjo, -, -, hca⟩ := hc.join_some i hij.symm
      obtain ⟨b, hb, -⟩ := h.pending he i hij.symm
      rcases hca with ho | ⟨hn, -⟩
      · rw [hjo, ho]
      · rw [hb] at hn
        exact absurd hn (by simp)
    · exact hc.joins i hij hi.1.1 hi.1.2
  · cases hj : site.join with
    | none => exact .inr (.inl (hc.join_none hj))
    | some j =>
      rcases (hc.join_some j hj).2.2.2 with ho | ⟨-, hne⟩
      · exact .inr (.inr ⟨he, j, rfl, ho⟩)
      · exact .inr (.inl hne)
  · rcases hca with hso | ht
    · obtain ⟨j, hj⟩ := Option.ne_none_iff_exists'.mp hso
      exact (hc.join_some j hj).2.1
    · rw [he] at ht
      exact absurd ht (by simp)

theorem Outcome.ret (hwf : k.Wf) (ho : k.ends k.current = none)
    (hf : enclosed = true → faithful = false) (b : BlockId) :
    k.Outcome plan (if faithful then k.finishIfOpen .ret else k) none enclosed (.ret b) := by
  cases faithful with
  | false => exact .refl hwf _ _ _
  | true =>
    rw [if_pos rfl, finishIfOpen_eq ho]
    have hk : ∀ b, b ≠ k.current → (k.finish .ret).ends b = k.ends b :=
      fun b hb => Function.update_of_ne hb _ _
    refine ⟨⟨hwf.current_lt, hwf.marks_nil, fun b hb => ?_, hwf.joins_lt⟩,
      ⟨Nat.le_refl _, fun _ _ _ => rfl, fun b _ hb => hk b hb, List.prefix_rfl, fun e he => ?_,
        by simp [finish, ho]⟩, fun _ _ => rfl, .inl rfl, fun _ hc => ?_⟩
    · rw [hk b (Nat.ne_of_gt (Nat.lt_of_lt_of_le hwf.current_lt hb))]
      exact hwf.ends_none b hb
    · rw [ho] at he
      exact absurd he (by simp)
    · rcases hc with h | h
      · exact absurd rfl h
      · exact absurd (hf h) (by simp)

end Outcomes

end Sketch

end Stagewise
