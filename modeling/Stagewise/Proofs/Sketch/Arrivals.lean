import Stagewise.Proofs.Sketch.Edges

namespace Stagewise

/-- Control comes from a block `q` to the block `j` at which an itinerary ends. -/
def Route.Comes (r : Route) (block : BlockId) (it : Itinerary) (pred : Option BlockId)
    (j q : BlockId) : Prop :=
  q ∈ it.entered ∧ j ∈ r.func.successors q ∨ block = j ∧ pred = some q

namespace Route

variable {r : Route} {block j q : BlockId} {stop pred : Option BlockId} {site : BranchSite}
  {arm : BlockId → Itinerary} {rest : Itinerary}

theorem comes_jump {target : BlockId} {next : Itinerary}
    (ht : r.func.terminator? block = some (.jump target)) (hne : block ≠ j) :
    r.Comes target next (some block) j q ↔ r.Comes block (.jump block next) pred j q := by
  have hsu := successors_jump ht
  simp only [Comes, Itinerary.entered, List.mem_cons, Option.some.injEq]
  constructor
  · rintro (⟨hq, hs⟩ | ⟨rfl, rfl⟩)
    · exact .inl ⟨.inr hq, hs⟩
    · exact .inl ⟨.inl rfl, by simp [hsu]⟩
  · rintro (⟨rfl | hq, hs⟩ | ⟨he, -⟩)
    · rw [hsu, List.mem_singleton] at hs
      exact .inr ⟨hs.symm, rfl⟩
    · exact .inl ⟨hq, hs⟩
    · exact absurd he hne

section Branch

variable (hbr : r.Branches stop site)
include hbr

theorem comes_shared (hne : site.block ≠ j) :
    (r.Comes site.ifTrue (arm site.ifTrue) (some site.block) j q ∨
      r.Comes site.ifFalse (arm site.ifFalse) (some site.block) j q) ↔
        r.Comes site.block (.fork site arm .done) pred j q := by
  simp only [Comes, Itinerary.entered, List.mem_cons, List.mem_append, List.not_mem_nil, or_false,
    Option.some.injEq]
  constructor
  · rintro ((⟨hq, hs⟩ | ⟨rfl, rfl⟩) | ⟨hq, hs⟩ | ⟨rfl, rfl⟩)
    · exact .inl ⟨.inr (.inl hq), hs⟩
    · exact .inl ⟨.inl rfl, hbr.mem_successors.mpr (.inl rfl)⟩
    · exact .inl ⟨.inr (.inr hq), hs⟩
    · exact .inl ⟨.inl rfl, hbr.mem_successors.mpr (.inr rfl)⟩
  · rintro (⟨rfl | hq | hq, hs⟩ | ⟨he, -⟩)
    · rcases hbr.mem_successors.mp hs with rfl | rfl
      · exact .inl (.inr ⟨rfl, rfl⟩)
      · exact .inr (.inr ⟨rfl, rfl⟩)
    · exact .inl (.inl ⟨hq, hs⟩)
    · exact .inr (.inl ⟨hq, hs⟩)
    · exact absurd he hne

/-- Control comes to the end of an itinerary from what follows its first branch, if the arms of the
branch come together before. -/
theorem comes_joined {i : BlockId} (hi : i ≠ j)
    (hT : r.Unfolds site.ifTrue (some i) (arm site.ifTrue))
    (hF : r.Unfolds site.ifFalse (some i) (arm site.ifFalse))
    (ho : j ∉ (Itinerary.fork site arm rest).entered) :
    r.Comes i rest none j q ↔ r.Comes site.block (.fork site arm rest) pred j q := by
  simp only [Itinerary.mem_entered_fork, not_or] at ho
  obtain ⟨hse, ⟨hjT, hjF⟩, -⟩ := ho
  -- a block of an arm has its successors in the arm, and the arm starts in itself
  have ha : ∀ {start : BlockId} {it : Itinerary}, r.Unfolds start (some i) it → j ∉ it.entered →
      start ≠ j ∧ ∀ q ∈ it.entered, j ∉ r.func.successors q := by
    intro start it hu hn
    refine ⟨?_, fun q hq hs => ?_⟩
    · rintro rfl
      exact hn (hu.head_mem fun he => hi (Option.some.inj he).symm)
    · rcases hu.successors_mem hq hs with hm | he
      · exact hn hm
      · exact hi (Option.some.inj he).symm
  simp only [Comes, Itinerary.entered, List.mem_cons, List.mem_append]
  constructor
  · rintro (⟨hq, hs⟩ | ⟨he, -⟩)
    · exact .inl ⟨.inr (.inr hq), hs⟩
    · exact absurd he hi
  · rintro (⟨rfl | (hq | hq) | hq, hs⟩ | ⟨he, -⟩)
    · rcases hbr.mem_successors.mp hs with he | he
      · exact absurd he.symm (ha hT hjT).1
      · exact absurd he.symm (ha hF hjF).1
    · exact absurd hs ((ha hT hjT).2 q hq)
    · exact absurd hs ((ha hF hjF).2 q hq)
    · exact .inl ⟨hq, hs⟩
    · exact absurd he.symm hse

end Branch

end Route

namespace Sketch

variable {r : Route} {plan : Plan} {quiet : BlockId → Prop} {block : BlockId}
  {stop : Option BlockId} {enclosed faithful : Bool} {it T F : Itinerary} {pred : Option BlockId}
  {k k' k₁ kT kF : Sketch} {site : BranchSite} {fork : Fork} {j : BlockId}

@[simp] theorem closeFork_exits (k : Sketch) (fork : Fork) :
    (k.closeFork fork).exits = k.exits := by
  unfold closeFork
  split <;> rfl

@[simp] theorem closeFork_ends (k : Sketch) (fork : Fork) : (k.closeFork fork).ends = k.ends := by
  unfold closeFork
  split <;> rfl

@[simp] theorem enterArm_exits (k : Sketch) (fork : Fork) (arm : Arm) :
    (k.enterArm fork arm).exits = k.exits := rfl

/-- Drawing notes no exit of a block that it does not enter. -/
theorem Drawn.exits_eq (h : Drawn r plan quiet block stop enclosed faithful it pred k k')
    {q : BlockId} (hq : q ∉ it.entered) (hp : some block = stop → pred ≠ some q) :
    k'.exits q = k.exits q := by
  induction h with
  | @join block enclosed faithful pred k _ =>
    cases pred with
    | none => rfl
    | some p =>
      have hne : q ≠ p := fun he => hp rfl (he ▸ rfl)
      exact Function.update_of_ne hne _ _
  | @ret block enclosed faithful pred k _ _ _ _ =>
    unfold finishIfOpen
    split <;> [split; skip] <;> rfl
  | @jump block stop enclosed faithful target next pred k k' hne _ _ _ ih =>
    simp only [Itinerary.entered, List.mem_cons, not_or] at hq
    exact ih hq.2 fun _ he => hq.1 (Option.some.inj he).symm
  | @fork stop enclosed faithful site arm rest pred k fork k₁ kT kF k' _ _ _ hf _ _ haf _ ihT ihF
      ihR =>
    simp only [Itinerary.mem_entered_fork, not_or] at hq
    have hne := fun he => hq.1 (Option.some.inj he).symm
    have ha : ((kF.leaveArm fork).closeFork fork).exits q = k.exits q := by
      rw [closeFork_exits, leaveArm_exits, ihF hq.2.1.2 fun _ => hne, enterArm_exits, leaveArm_exits,
        ihT hq.2.1.1 fun _ => hne, enterArm_exits, hf.opened.exits, append_exits]
    rcases haf with ⟨-, rfl, rfl⟩ | ⟨j, hj, hjs, -, -⟩
    · exact ha
    · exact (ihR j hj hjs hq.2.2 fun he => absurd he hjs).trans ha
  | flat _ _ _ _ _ haf _ ihT ihF ihR =>
    simp only [Itinerary.mem_entered_fork, not_or] at hq
    have hne := fun he => hq.1 (Option.some.inj he).symm
    have ha := (ihF hq.2.1.2 fun _ => hne).trans (ihT hq.2.1.1 fun _ => hne)
    rcases haf with ⟨-, rfl, rfl⟩ | ⟨j, hj, hjs, -, -⟩
    · exact ha
    · exact (ihR j hj hjs hq.2.2 fun he => absurd he hjs).trans ha

theorem Drawn.exits_of_stop {q : BlockId}
    (h : Drawn r plan quiet block stop enclosed faithful it (some q) k k')
    (hs : some block = stop) : k'.exits q = some k.current := by
  obtain rfl := h.eq_join hs
  cases h with
  | join _ => exact Function.update_self ..

/-- Control arrives at a block from the noted exits of the blocks it comes from, by new edges. -/
structure Arrives (k k' : Sketch) (b : Nat) (sources : BlockId → Prop) : Prop where
  exits : ∀ q, sources q → ∃ c : Nat, k'.exits q = some c ∧ k'.Edge c b ∧
    (c = k.current ∨ k.size ≤ c)
  edges : ∀ c, k'.Edge c b → k.Edge c b ∨ ∃ q, sources q ∧ k'.exits q = some c
  inj : ∀ q q', sources q → sources q' → k'.exits q = k'.exits q' → q = q'

variable {b : Nat} {sources : BlockId → Prop}

theorem Arrives.congr {sources' : BlockId → Prop}
    (h : k.Arrives k' b sources) (hs : ∀ q, sources q ↔ sources' q) : k.Arrives k' b sources' := by
  obtain rfl : sources = sources' := funext fun q => propext (hs q)
  exact h

theorem Arrives.of_append {ms : List Mark}
    (h : (k.append ms).Arrives k' b sources) : k.Arrives k' b sources :=
  ⟨h.exits, h.edges, h.inj⟩

theorem Arrives.after {k0 : Sketch}
    (h : k.Arrives k' b sources) (ha : k0.Adds k fun _ => False) (hb : b < k0.size)
    (hp : k.current = k0.current ∨ k0.size ≤ k.current) : k0.Arrives k' b sources := by
  have hs := ha.size_le
  refine ⟨fun q hq => ?_, fun c hc => ?_, h.inj⟩
  · obtain ⟨c, hc, he, hcu | hle⟩ := h.exits q hq
    · exact ⟨c, hc, he, hcu ▸ hp⟩
    · exact ⟨c, hc, he, .inr (by omega)⟩
  · refine (h.edges c hc).imp_left fun hc => ?_
    rcases ha.edges c b hc with hc | ⟨-, ⟨hle, -⟩ | hc⟩
    · exact hc
    · omega
    · exact hc.elim

section Fork

theorem Opened.enterArm_current (h : k.Opened site fork k₁) {start : BlockId} {arm : Arm}
    (ha : ArmOpens k k₁ site fork start arm) (k' : Sketch) :
    (arm.fresh = true ∧ some start ≠ site.join ∧ ∃ t : Nat, arm.target = t ∧
        (k'.enterArm fork arm).current = t ∧ k.size ≤ t ∧ t < k₁.size) ∨
      (k'.enterArm fork arm).current = k.current ∧ some start = site.join := by
  cases ha with
  | fresh hne hle hlt _ => exact .inl ⟨rfl, hne, _, rfl, rfl, hle, hlt⟩
  | atJoin he _ => exact .inr ⟨h.branch, he⟩

variable {c : Nat}

section

variable (h : k.Opened site fork k₁)
include h

theorem Opened.arms_apart (hwf : k.Wf)
    (hT : c = (k₁.enterArm fork fork.ifTrue).current ∨ k₁.size ≤ c)
    (hF : c = (k'.enterArm fork fork.ifFalse).current) :
    some site.ifTrue = site.join ∧ some site.ifFalse = site.join := by
  have hle := h.size_le
  have hk : ¬k.size ≤ k.current := Nat.not_le_of_lt hwf.current_lt
  rcases h.enterArm_current h.ifTrue k₁ with ⟨hfT, -, t, htT, hc, hg, hl⟩ | ⟨hc, hsT⟩ <;>
  rcases h.enterArm_current h.ifFalse k' with ⟨hfF, -, t', htF, hcu, hge, hlt⟩ | ⟨hcu, hsF⟩ <;>
  rw [hc] at hT <;> rw [hcu] at hF
  · rcases hT with hT | hT
    · exact absurd (htT.trans (hT.symm.trans (hF.trans htF.symm))) (h.arms_ne hfT hfF)
    · omega
  · omega
  · omega
  · exact ⟨hsT, hsF⟩

theorem Opened.place_of_arm {start : BlockId} {arm : Arm} (ha : ArmOpens k k₁ site fork start arm)
    (hle : k.size ≤ k'.size)
    (hc : c = (k'.enterArm fork arm).current ∨ (k'.enterArm fork arm).size ≤ c) :
    c = k.current ∨ k.size ≤ c := by
  rcases hc with rfl | hc
  · exact h.enterArm_place ha k'
  · exact .inr (hle.trans hc)

theorem Opened.edge_join {b : Nat} (hb : fork.join = some b) (hc : k₁.Edge c b) :
    k.Edge c b ∨
      c = k.current ∧ (some site.ifTrue = site.join ∨ some site.ifFalse = site.join) := by
  obtain ⟨e, he, ht⟩ := hc
  rw [h.ends] at he
  by_cases hcu : c = k.current
  · rw [hcu, Function.update_self] at he
    obtain rfl := Option.some.inj he
    have hat : ∀ {start : BlockId} {arm : Arm}, ArmOpens k k₁ site fork start arm →
        b = arm.target → some start = site.join := by
      intro start arm ha hbt
      cases ha with
      | fresh _ _ _ hne => exact absurd (hb.trans (congrArg some hbt)) hne
      | atJoin he _ => exact he
    simp only [Exit.targets, List.mem_cons, List.not_mem_nil, or_false] at ht
    exact .inr ⟨hcu, ht.imp (hat h.ifTrue) (hat h.ifFalse)⟩
  · rw [Function.update_of_ne hcu] at he
    exact .inl ⟨e, he, ht⟩

theorem Opened.edge_branch {b : Nat} (hb : fork.join = some b)
    (he : some site.ifTrue = site.join ∨ some site.ifFalse = site.join) : k₁.Edge k.current b := by
  refine ⟨_, by rw [h.ends, Function.update_self], ?_⟩
  have hat : ∀ {start : BlockId} {arm : Arm}, ArmOpens k k₁ site fork start arm →
      some start = site.join → b = arm.target := by
    intro start arm ha hs
    cases ha with
    | fresh hne _ _ _ => exact absurd hs hne
    | atJoin _ hj => exact Option.mem_unique hb hj
  simp only [Exit.targets, List.mem_cons, List.not_mem_nil, or_false]
  exact he.imp (hat h.ifTrue) (hat h.ifFalse)

end

variable {b : Nat}

theorem Drawn.comes_cases {p q : BlockId} (hj : stop = some j)
    (h : Drawn r plan quiet block stop enclosed faithful it (some p) k k')
    (hq : r.Comes block it (some p) j q) :
    q ∈ it.entered ∧ some block ≠ stop ∨ q = p ∧ some block = stop := by
  by_cases hs : some block = stop
  · obtain rfl := h.eq_join hs
    rcases hq with ⟨hq, -⟩ | ⟨-, hq⟩
    · simp [Itinerary.entered] at hq
    · exact .inr ⟨(Option.some.inj hq).symm, hs⟩
  · rcases hq with ⟨hq, -⟩ | ⟨hq, -⟩
    · exact .inl ⟨hq, hs⟩
    · exact absurd (hq ▸ hj.symm) hs

section

variable (h : Forked plan k site T F fork k₁ kT kF)
include h

/-- Control arrives at the join of a fork from both of its arms. -/
theorem Forked.arrives {faithful' : Bool}
    (hT : Drawn r plan quiet site.ifTrue site.join false faithful T (some site.block)
      (k₁.enterArm fork fork.ifTrue) kT)
    (hF : Drawn r plan quiet site.ifFalse site.join false faithful' F (some site.block)
      ((kT.leaveArm fork).enterArm fork fork.ifFalse) kF)
    (hse : site.block ∉ T.entered ∧ site.block ∉ F.entered)
    (hd : ∀ q ∈ T.entered, q ∉ F.entered) (hj : site.join = some j)
    (hb : fork.join = some b)
    (haT : (k₁.enterArm fork fork.ifTrue).Arrives (kT.leaveArm fork) b
      (r.Comes site.ifTrue T (some site.block) j))
    (haF : ((kT.leaveArm fork).enterArm fork fork.ifFalse).Arrives (kF.leaveArm fork) b
      (r.Comes site.ifFalse F (some site.block) j)) :
    k.Arrives ((kF.leaveArm fork).closeFork fork) b fun q =>
      r.Comes site.ifTrue T (some site.block) j q ∨ r.Comes site.ifFalse F (some site.block) j q := by
  have ho := h.opened
  have hle := ho.size_le
  have hf := h.place.firstArm ho h.first
  have hex : some site.ifTrue = site.join → (kT.leaveArm fork).exits site.block
      = some k.current := by
    intro hs
    rcases ho.enterArm_current ho.ifTrue k₁ with hcu | hcu
    · exact absurd hs hcu.2.1
    · rw [leaveArm_exits, hT.exits_of_stop hs, hcu.1]
  have hexi : some site.ifFalse = site.join → (kF.leaveArm fork).exits site.block
      = some k.current := by
    intro hs
    rcases ho.enterArm_current ho.ifFalse (kT.leaveArm fork) with hcur | hcur
    · exact absurd hs hcur.2.1
    · rw [leaveArm_exits, hF.exits_of_stop hs, hcur.1]
  -- the second arm leaves the exits and edges of the first as they are
  have hk : ∀ q, r.Comes site.ifTrue T (some site.block) j q →
      (kF.leaveArm fork).exits q = (kT.leaveArm fork).exits q := by
    intro q hq
    rcases hT.comes_cases hj hq with ⟨hm, -⟩ | ⟨rfl, hsto⟩
    · rw [leaveArm_exits]
      refine hF.exits_eq (hd q hm) fun _ he => ?_
      exact hse.1 (Option.some.inj he ▸ hm)
    · by_cases hst : some site.ifFalse = site.join
      · rw [hexi hst, hex hsto]
      · rw [leaveArm_exits]
        exact hF.exits_eq hse.2 fun he => absurd he hst
  have hl := h.second.frame.later (h.place.armFalse ho h.first).wf
  have hed : ∀ {c : Nat}, (kT.leaveArm fork).Edge c b →
      ((kF.leaveArm fork).closeFork fork).Edge c b := by
    rintro c ⟨e, he, ht⟩
    refine ⟨e, ?_, ht⟩
    rw [closeFork_ends]
    exact leaveArm_ends_of_some _ _ (hl.ended c e he).1
  refine ⟨fun q hq => ?_, fun c hc => ?_, ?_⟩
  · rw [closeFork_exits]
    rcases hq with hq | hq
    · obtain ⟨c, hc, hcb, hp⟩ := haT.exits q hq
      exact ⟨c, (hk q hq).trans hc, hed hcb, ho.place_of_arm ho.ifTrue hle hp⟩
    · obtain ⟨c, hc, hcb, hp⟩ := haF.exits q hq
      refine ⟨c, hc, by rwa [Edge, closeFork_ends], ?_⟩
      exact ho.place_of_arm ho.ifFalse (hle.trans hf.size_le) hp
  · rw [Edge, closeFork_ends] at hc
    rw [closeFork_exits]
    rcases haF.edges c hc with hc | ⟨q, hq, hx⟩
    · rcases haT.edges c hc with hc | ⟨q, hq, hx⟩
      · rcases ho.edge_join hb hc with hc | ⟨rfl, hs | hs⟩
        · exact .inl hc
        · have hco : r.Comes site.ifTrue T (some site.block) j site.block :=
            .inr ⟨Option.some.inj (hs.trans hj), rfl⟩
          exact .inr ⟨site.block, .inl hco, (hk _ hco).trans (hex hs)⟩
        · exact .inr ⟨site.block, .inr (.inr ⟨Option.some.inj (hs.trans hj), rfl⟩), hexi hs⟩
      · exact .inr ⟨q, .inl hq, (hk q hq).trans hx⟩
    · exact .inr ⟨q, .inr hq, hx⟩
  · rw [closeFork_exits]
    have hcr : ∀ q q', r.Comes site.ifTrue T (some site.block) j q →
        r.Comes site.ifFalse F (some site.block) j q' →
        (kF.leaveArm fork).exits q = (kF.leaveArm fork).exits q' → q = q' := by
      intro q q' hq hq' heq
      obtain ⟨c, hc, ⟨e, he, -⟩, hp⟩ := haT.exits q hq
      obtain ⟨c', hc', -, hp'⟩ := haF.exits q' hq'
      obtain rfl : c = c' := by
        rw [hk q hq, hc, hc'] at heq
        exact Option.some.inj heq
      have hlt : c < (kT.leaveArm fork).size := by
        refine Nat.lt_of_not_le fun hge => ?_
        rw [hf.standing.wf.ends_none c hge] at he
        cases he
      have hcF := hp'.resolve_right (Nat.not_le_of_lt hlt)
      obtain ⟨hsT, hsF⟩ := ho.arms_apart h.place.wf hp hcF
      have hqT := (hT.comes_cases hj hq).resolve_left fun h => h.2 hsT
      have hqF := (hF.comes_cases hj hq').resolve_left fun h => h.2 hsF
      exact hqT.1.trans hqF.1.symm
    intro q q' hq hq' heq
    rcases hq with hq | hq
    · rcases hq' with hq' | hq'
      · rw [hk q hq, hk q' hq'] at heq
        exact haT.inj q q' hq hq' heq
      · exact hcr q q' hq hq' heq
    · rcases hq' with hq' | hq'
      · exact (hcr q' q hq' hq heq.symm).symm
      · exact haF.inj q q' hq hq' heq

theorem Forked.joins_eq (hj : site.join = some j) (hb : fork.join = some b) :
    (k₁.enterArm fork fork.ifTrue).joins j = some b ∧
      ((kT.leaveArm fork).enterArm fork fork.ifFalse).joins j = some b := by
  have hw : ∀ {k : Sketch}, k.Standing site fork → k.joins j = some b := by
    intro k hs
    obtain ⟨b', hb', hk, -⟩ := hs.join_some j hj
    rw [hk, ← hb', hb]
  have ho := hw (h.place.standing h.opened)
  have hf := hw (h.place.firstArm h.opened h.first).standing
  exact ⟨ho, hf⟩

theorem Forked.edge_back (hb : fork.join = some b) :
    (some site.ifTrue = site.join →
      (k₁.enterArm fork fork.ifTrue).Edge (k₁.enterArm fork fork.ifTrue).current b) ∧
    (some site.ifFalse = site.join → ((kT.leaveArm fork).enterArm fork fork.ifFalse).Edge
      ((kT.leaveArm fork).enterArm fork fork.ifFalse).current b) := by
  have ho := h.opened
  refine ⟨fun hs => ?_, fun hs => ?_⟩
  · rcases ho.enterArm_current ho.ifTrue k₁ with hc | hc
    · exact absurd hs hc.2.1
    · rw [hc.1]
      exact ho.edge_branch hb (.inl hs)
  · rcases ho.enterArm_current ho.ifFalse (kT.leaveArm fork) with hc | hc
    · exact absurd hs hc.2.1
    · obtain ⟨e, he, ht⟩ := ho.edge_branch hb (.inr hs)
      rw [hc.1]
      refine ⟨e, ?_, ht⟩
      have hl := h.first.frame.later (h.place.armTrue ho).wf
      exact leaveArm_ends_of_some _ _ (hl.ended _ e he).1

end

theorem arrives_join {q : BlockId} (hw : b ≠ k.current)
    (hba : k.ends k.current = none ∨ k.Edge k.current b) (hb : fork.join = some b) :
    k.Arrives ((k.noteExit q).leaveArm fork) b (r.Comes j (.join j) (some q) j) := by
  have hco : ∀ p, r.Comes j (.join j) (some q) j p ↔ p = q := by
    simp [Route.Comes, Itinerary.entered, eq_comm]
  have hex : ((k.noteExit q).leaveArm fork).exits q = some k.current := by
    rw [leaveArm_exits]
    exact Function.update_self ..
  have hed : ((k.noteExit q).leaveArm fork).Edge k.current b := by
    rcases hba with ho | ⟨e, he, ht⟩
    · exact ⟨_, leaveArm_ends_join (k.noteExit q) fork hb (Ne.symm hw) ho, by simp [Exit.targets]⟩
    · exact ⟨e, leaveArm_ends_of_some (k.noteExit q) fork he, ht⟩
  refine ⟨fun p hp => ?_, fun c hc => ?_, fun p p' hp hp' _ => ?_⟩
  · obtain rfl := (hco p).mp hp
    exact ⟨_, hex, hed, .inl rfl⟩
  · by_cases hcu : c = k.current
    · exact .inr ⟨q, (hco q).mpr rfl, hcu ▸ hex⟩
    · obtain ⟨e, he, ht⟩ := hc
      rw [leaveArm_ends_ne (k.noteExit q) fork hcu] at he
      exact .inl ⟨e, he, ht⟩
  · exact ((hco p).mp hp).trans ((hco p').mp hp').symm

/-- Control arrives at the last block from the exits of the blocks that lead there. -/
theorem Drawn.arrives (h : Drawn r plan quiet block stop enclosed faithful it pred k k')
    (hn : it.entered.Nodup) (hen : enclosed = false) (hj : stop = some j)
    (ho : j ∉ it.entered)
    (hwa : ∀ site, site.join = some j → plan.wants site = true) (hjoi : k.joins j = some b)
    (hp : some block = stop → ∃ q, pred = some q)
    (hba : some block = stop → k.ends k.current = none ∨ k.Edge k.current b)
    (hb : fork.join = some b) : k.Arrives (k'.leaveArm fork) b (r.Comes block it pred j) := by
  induction h generalizing fork with
  | @join block enclosed faithful pred k hap =>
    obtain rfl := Option.some.inj hj
    obtain ⟨q, rfl⟩ := hp rfl
    obtain ⟨b', hb', hwai, -⟩ := hap.pending hen _ rfl
    obtain rfl := Option.mem_unique hjoi hb'
    exact arrives_join hwai (hba rfl) hb
  | ret _ _ _ _ => cases hj
  | @jump block stop enclosed faithful target next pred k k' hne hte hap hnex ih =>
    have hn' := (List.nodup_cons.mp hn).2
    have ho' : j ∉ next.entered := fun hm => ho (List.mem_cons_of_mem _ hm)
    have har := ih hn' hen hj ho' hjoi (fun _ => ⟨block, rfl⟩) (fun _ => .inl (hap.opened hne)) hb
    exact har.of_append.congr fun q => Route.comes_jump hte fun he => hne (he ▸ hj.symm)
  | @fork stop enclosed faithful site arm rest pred k fork' k₁ kT kF k' hbr _ hap hf hT hF ha
      hR ihT ihF ihR =>
    obtain ⟨hse, hnd, hndF, hndR, hd, -⟩ := nodup_fork hn
    have hnot := ho
    simp only [Itinerary.mem_entered_fork, not_or] at hnot
    rcases ha with ⟨hsj, rfl, rfl⟩ | ⟨i, hsi, hjs, hst, -⟩
    · have hsj' := hsj.trans hj
      have hb' : fork'.join = some b := by
        obtain ⟨b', hb', -, -, hol | ⟨hno, -⟩⟩ := hf.opened.join_some j hsj'
        · rw [hb', ← hol]
          exact hjoi
        · rw [append_joins, hjoi] at hno
          cases hno
      have hjo := hf.joins_eq hsj' hb'
      have hed := hf.edge_back hb'
      have haT := ihT hnd rfl hsj' hnot.2.1.1 hjo.1 (fun _ => ⟨_, rfl⟩)
        (fun hs => .inr (hed.1 hs)) hb'
      have haF := ihF hndF rfl hsj' hnot.2.1.2 hjo.2 (fun _ => ⟨_, rfl⟩)
        (fun hs => .inr (hed.2 hs)) hb'
      have hsep : site.block ∉ (arm site.ifTrue).entered ∧ site.block ∉ (arm site.ifFalse).entered :=
        ⟨fun hm => hse _ (.inl hm) rfl, fun hm => hse _ (.inr (.inl hm)) rfl⟩
      have har := hf.arrives hT hF hsep hd hsj' hb' haT haF
      have hc : ((kF.leaveArm fork').closeFork fork').current = b := by
        simp [closeFork, hb']
      rw [leaveArm_of_current_eq _ _ hb hc]
      exact har.of_append.congr fun q =>
        Route.comes_shared hbr fun he => hbr.ne_stop (he ▸ hj.symm)
    · have hjo := hap.stop_not_mem hen hj
      simp only [Itinerary.rejoined, List.mem_append, not_or] at hjo
      have hij : i ≠ j := fun he => hjs (he ▸ hj.symm)
      have ha' := hap.append (plan.marks k.exits pred site.block)
      have hnew := hf.closed.current_new ha' hf.wants hsi hst
      have had := hf.adds ((hT.adds hnd).mono fun _ h => h.2) ((hF.adds hndF).mono fun _ h => h.2)
      have hj' : ((kF.leaveArm fork').closeFork fork').joins j = some b :=
        (hf.closed.joins j (by rw [hsi]; exact fun he => hij (Option.some.inj he).symm)
          hjo.1.1 hjo.1.2).trans hjoi
      have har := ihR i hsi hjs hndR hen hj hnot.2.2 hj' (fun he => absurd he hjs)
        (fun he => absurd he hjs) hb
      refine ((har.after (had.mono fun t ht => (ha'.not_joinOf hf.wants hsi hst ht).elim)
        (hap.wf.joins_lt j b hjoi) (.inr hnew)).of_append).congr fun q => ?_
      exact Route.comes_joined hbr hij (hsi ▸ hT.unfolds) (hsi ▸ hF.unfolds) ho
  | @flat stop enclosed faithful site arm rest pred k kT kF k' hbr hap hfl hT hF ha _ ihT ihF
      ihR =>
    obtain ⟨-, hnd, hndF, hndR, -⟩ := nodup_fork hn
    rcases ha with ⟨hsj, rfl, rfl⟩ | ⟨i, hsi, hjs, -, -⟩
    · have hw := hfl.unwanted
      rw [hwa _ (hsj.trans hj)] at hw
      cases hw
    · have hjo := hap.stop_not_mem hen hj
      simp only [Itinerary.rejoined, List.mem_append, not_or] at hjo
      have hij : i ≠ j := fun he => hjs (he ▸ hj.symm)
      have had := hfl.adds (hT.adds hnd) (hF.adds hndF)
      have hj' : kF.joins j = some b := (hfl.passed.joins j hjo.1.1 hjo.1.2).trans hjoi
      have har := ihR i hsi hjs hndR hen hj (fun hm => ho (by simp [Itinerary.entered, hm])) hj'
        (fun he => absurd he hjs) (fun he => absurd he hjs) hb
      refine ((har.after had (hap.wf.joins_lt j b hjoi) hfl.passed.place).of_append).congr
        fun q => ?_
      exact Route.comes_joined hbr hij (hsi ▸ hT.unfolds) (hsi ▸ hF.unfolds) ho

end Fork

end Sketch

end Stagewise
