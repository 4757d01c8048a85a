import Stagewise.Proofs.Flow.Control
import Stagewise.Proofs.Replay.Dominance

namespace Stagewise

namespace Function

variable {f : Function} {a b v w : BlockId}

abbrev Reaches (f : Function) : BlockId → BlockId → Prop :=
  Relation.ReflTransGen fun v w => w ∈ f.successors v

theorem PostDominates.reaches (h : f.PostDominates a v) (ha : a ≠ f.exitNode) : f.Reaches v a := by
  have key : ∀ w, f.CanReturn w → f.Reaches w a ∨ f.Escapes {a} w := by
    intro w hw
    induction hw with
    | exit _ => exact .inr (.exit (by simpa using fun h => ha h.symm))
    | @step w u _ hu _ ih =>
      by_cases hwa : w = a
      · exact .inl (hwa ▸ .refl)
      · rcases ih with ih | ih
        · have hex : u ≠ f.exitNode := by
            rintro rfl
            rcases Relation.ReflTransGen.cases_head ih with he | ⟨x, hx, -⟩
            · exact ha he.symm
            · have := mem_exitSuccessors_of_mem_successors hx
              simp [exitSuccessors_exitNode] at this
          exact .inl (.head (mem_successors_of_mem_exitSuccessors hex hu) ih)
        · exact .inr (.step (by simpa using hwa) hu ih)
  exact (key v h.1).resolve_right h.2

theorem ReachedAround.ne (h : f.ReachedAround a v) : v ≠ a := by
  cases h with
  | entry hne | step _ hne _ => exact hne

theorem ReachedAround.escapes_entry (h : f.ReachedAround a v) (he : f.Escapes {a} v) :
    f.Escapes {a} f.entry := by
  induction h with
  | entry _ => exact he
  | step hv _ hw ih =>
    refine ih (.step ?_ (mem_exitSuccessors_of_mem_successors hw) he)
    simpa using hv.ne

end Function

theorem Itinerary.nodup_entered_fork {visited : List BlockId} {site : BranchSite}
    {arm : BlockId → Itinerary} {rest : Itinerary}
    (h : ((Itinerary.fork site arm rest).entered ++ visited).Nodup) :
    ((arm site.ifTrue).entered ++ site.block :: visited).Nodup ∧
      ((arm site.ifFalse).entered ++ ((arm site.ifTrue).entered ++ site.block :: visited)).Nodup ∧
      (rest.entered ++ ((arm site.ifFalse).entered ++
        ((arm site.ifTrue).entered ++ site.block :: visited))).Nodup := by
  have ha := (Itinerary.perm_entered_fork site arm rest visited).nodup_iff.mp h
  have hf := (List.nodup_append.mp ha).2.1
  exact ⟨(List.nodup_append.mp hf).2.1, hf, ha⟩

namespace Route

/-- The itineraries of the walks from a block to a last block in a loop-free function. The arms of a
branch go to where they come together; if that is the last block, nothing is left to do there. -/
inductive Unfolds (r : Route) : BlockId → Option BlockId → Itinerary → Prop
  | join {block} : Unfolds r block (some block) (.join block)
  | ret {block} : block < r.func.numBlocks → r.func.successors block = [] →
      Unfolds r block none (.ret block)
  | jump {block stop target next} : some block ≠ stop →
      r.func.terminator? block = some (.jump target) → Unfolds r target stop next →
      Unfolds r block stop (.jump block next)
  | fork {stop site arm rest} : r.Branches stop site →
      Unfolds r site.ifTrue site.join (arm site.ifTrue) →
      Unfolds r site.ifFalse site.join (arm site.ifFalse) →
      (site.join = stop ∧ rest = .done ∨ ∃ j, site.join = some j ∧ some j ≠ stop) →
      (∀ j, site.join = some j → some j ≠ stop → Unfolds r j stop rest) →
      Unfolds r site.block stop (.fork site arm rest)

/-- A function without loops whose blocks have an end, with its tree of post-dominators. -/
structure LoopFree (r : Route) : Prop where
  targets : r.func.TargetsInRange
  tree : r.postDominators.Exact r.func
  loopFree : r.func.LoopFree
  terminated : r.func.Terminated

variable {r : Route} {active : List BlockId} {block : BlockId} {stop : Option BlockId}
  {it : Itinerary}

variable {b : BlockId}

theorem LoopFree.canReturn (hr : r.LoopFree) (hb : b < r.func.numBlocks) :
    r.func.CanReturn b :=
  hr.loopFree.canReturn hr.targets hr.terminated hb

theorem mem_blocks_of_terminator? {term : Terminator}
    (h : r.func.terminator? b = some term) : b < r.func.numBlocks := by
  by_contra hb
  have hn : r.func.blocks[b]? = none := Array.getElem?_eq_none_iff.mpr (Nat.not_lt.mp hb)
  simp [Function.terminator?, hn] at h

theorem LoopFree.jump_postDominates (hr : r.LoopFree) {target : BlockId}
    (ht : r.func.terminator? block = some (.jump target)) :
    r.func.PostDominates target block := by
  have hlt := mem_blocks_of_terminator? ht
  have he : r.func.exitSuccessors block = [target] := by
    simp [Function.exitSuccessors, Function.returns, successors_jump ht, ht]
  refine .of_next (hr.canReturn hlt) (Nat.ne_of_lt hlt) fun w hw hc => ?_
  rw [he, List.mem_singleton] at hw
  exact hw ▸ .refl hc

namespace Branches

variable {site : BranchSite} {j w : BlockId}

section

variable (h : r.Branches stop site)
include h

section

variable (hr : r.LoopFree)
include hr

theorem arm_lt (hw : w = site.ifTrue ∨ w = site.ifFalse) : w < r.func.numBlocks :=
  hr.targets site.block w (h.mem_successors.mpr hw)

theorem join_lt (hj : site.join = some j) : j < r.func.numBlocks :=
  (hr.tree.nearestCommon?_eq_some hr.targets (h.join_eq.symm.trans hj)).2.2.1

theorem postDominates_join_iff (hj : site.join = some j) :
    r.func.PostDominates w j ↔
      r.func.PostDominates w site.ifTrue ∧ r.func.PostDominates w site.ifFalse :=
  (hr.tree.nearestCommon?_eq_some hr.targets (h.join_eq.symm.trans hj)).2.2.2.2 w

theorem join_postDominates (hj : site.join = some j) : r.func.PostDominates j site.block := by
  obtain ⟨ht, hf⟩ := (h.postDominates_join_iff hr hj).mp (.refl (hr.canReturn (h.join_lt hr hj)))
  refine .of_next (hr.canReturn h.lt) (Nat.ne_of_lt h.lt) fun w hw _ => ?_
  rcases h.mem_exitSuccessors.mp hw with rfl | rfl
  · exact ht
  · exact hf

theorem postDominates_arm {v : BlockId} (hne : v ≠ site.block)
    (hv : r.func.PostDominates v site.block) (hw : w = site.ifTrue ∨ w = site.ifFalse) :
    r.func.PostDominates v w :=
  hv.next hne (h.mem_exitSuccessors.mpr hw) (hr.canReturn (h.arm_lt hr hw))

theorem exists_join {v : BlockId} (hlt : v < r.func.numBlocks) (hne : v ≠ site.block)
    (hv : r.func.PostDominates v site.block) :
    ∃ j, site.join = some j ∧ r.func.PostDominates v j := by
  have ht := h.postDominates_arm hr hne hv (.inl rfl)
  have hf := h.postDominates_arm hr hne hv (.inr rfl)
  cases hj : site.join with
  | none =>
    have := hr.tree.nearestCommon?_eq_none hr.targets (h.join_eq.symm.trans hj)
      (hr.canReturn (h.arm_lt hr (.inl rfl))) (hr.canReturn (h.arm_lt hr (.inr rfl))) ht hf
    exact absurd hlt (this ▸ Nat.lt_irrefl _)
  | some j => exact ⟨j, rfl, (h.postDominates_join_iff hr hj).mpr ⟨ht, hf⟩⟩

end

end

end Branches

/-- Without loops a walk never comes back to a block that it is inside of. -/
theorem Follows.unfolds (hr : r.LoopFree) (h : r.Follows active block stop it)
    (hb : block < r.func.numBlocks)
    (hst : ∀ s, stop = some s → s < r.func.numBlocks ∧ r.func.PostDominates s block)
    (hac : ∀ a ∈ active, Relation.TransGen (fun v w => w ∈ r.func.successors v) a block) :
    r.Unfolds block stop it := by
  induction h with
  | @join _ block stop he =>
    subst he
    exact .join
  | @loop _ block _ _ hm => exact absurd (hac block hm) (hr.loopFree block)
  | @ret _ block stop hne _ _ hsu =>
    cases stop with
    | none => exact .ret hb hsu
    | some s =>
      obtain ⟨-, hp⟩ := hst s rfl
      obtain ⟨term, ht⟩ := Option.isSome_iff_exists.mp (hr.terminated block hb)
      have hret : term = .ret := by
        cases term with
        | ret => rfl
        | jump _ | branch _ _ _ => simp [Function.successors, ht, Terminator.successors] at hsu
      have hex : r.func.exitSuccessors block = [r.func.exitNode] := by
        simp [Function.exitSuccessors, Function.returns, ht, hret]
      have hs : s < r.func.numBlocks := (hst s rfl).1
      refine absurd (.step ?_ ?_ (.exit ?_)) hp.2
      · exact fun he => hne (by simpa using he)
      · simp [hex]
      · simp only [Function.exitNode, Finset.mem_singleton]
        exact fun he => absurd hs (he ▸ Nat.lt_irrefl _)
  | @jump _ block stop target next hne _ ht _ ih =>
    have hsu : target ∈ r.func.successors block := by simp [successors_jump ht]
    have hta := hr.targets block target hsu
    refine .jump hne ht (ih hta (fun s hs => ⟨(hst s hs).1, ?_⟩) fun a ha => ?_)
    · refine (hst s hs).2.next ?_ (r.func.mem_exitSuccessors_of_mem_successors hsu)
        (hr.canReturn hta)
      rintro rfl
      exact hne hs.symm
    · rcases List.mem_cons.mp ha with rfl | ha
      · exact .single hsu
      · exact (hac a ha).tail hsu
  | @fork active stop site arm rest hbr _ _ _ hen _ ihtrue ihfalse ihrest =>
    have hn : ∀ {arm}, arm = site.ifTrue ∨ arm = site.ifFalse → ∀ a ∈ site.block :: active,
        Relation.TransGen (fun v w => w ∈ r.func.successors v) a arm := by
      intro arm har a ha
      rcases List.mem_cons.mp ha with rfl | ha
      · exact .single (hbr.mem_successors.mpr har)
      · exact (hac a ha).tail (hbr.mem_successors.mpr har)
    -- the last block comes after the block where the arms come together
    have hl : ∀ s, stop = some s → ∃ j, site.join = some j ∧ r.func.PostDominates s j := by
      intro s hs
      refine hbr.exists_join hr (hst s hs).1 ?_ (hst s hs).2
      rintro rfl
      exact hbr.ne_stop hs.symm
    have hen : site.join = stop ∧ rest = .done ∨ ∃ j, site.join = some j ∧ some j ≠ stop := by
      refine hen.imp_left (And.imp_left fun hj => hj.elim (fun hj => ?_) id)
      cases hs : stop with
      | none => exact hj
      | some s =>
        obtain ⟨j, hj', -⟩ := hl s hs
        rw [hj] at hj'
        cases hj'
    have hs' : site.stop = site.join := by
      rcases hen with ⟨hjs, -⟩ | ⟨j, hj, -⟩
      · rw [hbr.stop_eq, ← hjs]
        cases site.join <;> rfl
      · rw [hbr.stop_eq, hj]
        rfl
    rw [hs'] at ihtrue ihfalse
    have har : ∀ {arm}, arm = site.ifTrue ∨ arm = site.ifFalse → ∀ s, site.join = some s →
        s < r.func.numBlocks ∧ r.func.PostDominates s arm := by
      intro arm har s hs
      have hlt := hbr.join_lt hr hs
      obtain ⟨htr, hf⟩ := (hbr.postDominates_join_iff hr hs).mp (.refl (hr.canReturn hlt))
      rcases har with rfl | rfl
      · exact ⟨hlt, htr⟩
      · exact ⟨hlt, hf⟩
    refine .fork hbr (ihtrue (hbr.arm_lt hr (.inl rfl)) (har (.inl rfl)) (hn (.inl rfl)))
      (ihfalse (hbr.arm_lt hr (.inr rfl)) (har (.inr rfl)) (hn (.inr rfl)))
      hen fun j hj hjs => ihrest j hj hjs (hbr.join_lt hr hj) (fun s hs => ⟨(hst s hs).1, ?_⟩)
        fun a ha => ?_
    · obtain ⟨j', hj', hp⟩ := hl s hs
      exact Option.mem_unique hj' hj ▸ hp
    · have hre := (har (.inl rfl) j hj).2.reaches (Nat.ne_of_lt (hbr.join_lt hr hj))
      exact Relation.TransGen.trans_left (hn (.inl rfl) a ha) hre

theorem unfolds_itinerary (hr : r.LoopFree) (he : r.func.entry < r.func.numBlocks) :
    r.Unfolds r.func.entry none r.itinerary :=
  (follows_itinerary hr.targets hr.tree he).unfolds hr he (by simp) (by simp)

namespace Unfolds

section

variable (h : r.Unfolds block stop it)
include h

theorem start_eq (hne : some block ≠ stop) : it.start = some block := by
  cases h with
  | join => exact absurd rfl hne
  | ret _ _ | jump _ _ _ | fork _ _ _ _ _ => rfl

theorem head_mem (hne : some block ≠ stop) : block ∈ it.entered :=
  (it.sublist_entered fun _ => false).subset (by simp [h.start_eq hne])

theorem head_mem_or : block ∈ it.entered ∨ some block = stop := by
  by_cases hb : some block = stop
  · exact .inr hb
  · exact .inl (h.head_mem hb)

/-- Control leaves the blocks of a walk only to its last block. -/
theorem successors_mem {q t : BlockId} (hq : q ∈ it.entered) (ht : t ∈ r.func.successors q) :
    t ∈ it.entered ∨ some t = stop := by
  induction h with
  | join => simp [Itinerary.entered] at hq
  | ret _ hs =>
    simp only [Itinerary.entered, List.mem_singleton] at hq
    rw [hq, hs] at ht
    simp at ht
  | @jump block _ target next _ hte hn ih =>
    simp only [Itinerary.entered, List.mem_cons] at hq ⊢
    rcases hq with rfl | hq
    · rw [successors_jump hte, List.mem_singleton] at ht
      subst ht
      exact hn.head_mem_or.imp_left .inr
    · exact (ih hq).imp_left .inr
  | @fork stop site arm rest hbr htr hf he hr ihtrue ihfalse ihrest =>
    -- a way out of an arm leads to where the walk goes on, or to its end
    have hi : t ∈ (arm site.ifTrue).entered ∨ t ∈ (arm site.ifFalse).entered ∨
        some t = site.join → t ∈ (Itinerary.fork site arm rest).entered ∨ some t = stop := by
      simp only [Itinerary.entered, List.mem_cons, List.mem_append]
      rintro (h | h | h)
      · exact .inl (.inr (.inl (.inl h)))
      · exact .inl (.inr (.inl (.inr h)))
      · rcases he with ⟨hjs, -⟩ | ⟨j, hj, hjs⟩
        · exact .inr (h.trans hjs)
        · obtain rfl := Option.some.inj (h.trans hj)
          exact .inl (.inr (.inr ((hr t hj hjs).head_mem hjs)))
    rcases Itinerary.mem_entered_fork.mp hq with rfl | (hq | hq) | hq
    · rcases hbr.mem_successors.mp ht with rfl | rfl
      · exact hi (htr.head_mem_or.imp_right .inr)
      · exact hi (.inr hf.head_mem_or)
    · exact hi ((ihtrue hq).imp_right .inr)
    · exact hi (.inr (ihfalse hq))
    · rcases he with ⟨-, rfl⟩ | ⟨j, hj, hjs⟩
      · cases hq
      · refine (ihrest j hj hjs hq).imp_left fun h => ?_
        simp [Itinerary.entered, h]

end

/-- The last block of a walk post-dominates all that the walk enters. -/
theorem stop_postDominates (hr : r.LoopFree) (h : r.Unfolds block stop it) {s : BlockId}
    (hs : stop = some s) (hlt : s < r.func.numBlocks) :
    r.func.PostDominates s block ∧ ∀ b ∈ it.entered, r.func.PostDominates s b ∧ b ≠ s := by
  induction h generalizing s with
  | join =>
    obtain rfl := Option.some.inj hs
    exact ⟨.refl (hr.canReturn hlt), by simp [Itinerary.entered]⟩
  | ret _ _ => simp at hs
  | @jump block _ target next hne ht hn ih =>
    obtain ⟨hp, hal⟩ := ih hs hlt
    have hp' := hp.trans (hr.jump_postDominates ht)
    refine ⟨hp', fun b hb => ?_⟩
    rcases List.mem_cons.mp hb with rfl | hb
    · exact ⟨hp', fun he => hne (he ▸ hs.symm)⟩
    · exact hal b hb
  | @fork stop site arm rest hbr _ _ hen _ ihtrue ihfalse ihrest =>
    have ha : ∃ j, site.join = some j ∧ r.func.PostDominates s j ∧
        ∀ b ∈ rest.entered, r.func.PostDominates s b ∧ b ≠ s := by
      rcases hen with ⟨hjs, rfl⟩ | ⟨j, hj, hjs⟩
      · exact ⟨s, hjs.trans hs, .refl (hr.canReturn hlt), fun b hb => by cases hb⟩
      · exact ⟨j, hj, ihrest j hj hjs hs hlt⟩
    obtain ⟨j, hj, hsj, hal⟩ := ha
    -- a block of an arm is between the branch and the block where the arms come together
    have har : ∀ b, r.func.PostDominates j b ∧ b ≠ j → r.func.PostDominates s b ∧ b ≠ s := by
      intro b hb
      refine ⟨hsj.trans hb.1, ?_⟩
      rintro rfl
      exact hb.2 (hsj.antisymm hb.1)
    have hp := hsj.trans (hbr.join_postDominates hr hj)
    refine ⟨hp, fun b hb => ?_⟩
    rcases Itinerary.mem_entered_fork.mp hb with rfl | (hb | hb) | hb
    · exact ⟨hp, fun he => hbr.ne_stop (he ▸ hs.symm)⟩
    · exact har b ((ihtrue hj (hbr.join_lt hr hj)).2 b hb)
    · exact har b ((ihfalse hj (hbr.join_lt hr hj)).2 b hb)
    · exact hal b hb

end Unfolds

/-- A walk in an arm of the branch at the end of `q` that has come to a block: the block
post-dominates the start of the arm, and the walk ends before control is again past the branch. -/
structure InArm (r : Route) (q arm block : BlockId) (stop : Option BlockId) : Prop where
  branch : ∃ cond ifTrue ifFalse, r.func.terminator? q = some (.branch cond ifTrue ifFalse) ∧
    (arm = ifTrue ∨ arm = ifFalse)
  above : r.func.PostDominates block arm
  beyond : ∀ v < r.func.numBlocks, v ≠ q → r.func.PostDominates v q →
    ∃ s, stop = some s ∧ r.func.PostDominates v s

variable {q arm : BlockId} {above visited : List BlockId}

theorem Branches.inArm {site : BranchSite} (h : r.Branches stop site) (hr : r.LoopFree)
    (ha : arm = site.ifTrue ∨ arm = site.ifFalse) : r.InArm site.block arm arm site.join := by
  exact ⟨⟨_, _, _, h.terminator, ha⟩, .refl (hr.canReturn (h.arm_lt hr ha)),
    fun v hv hne => h.exists_join hr hv hne⟩

theorem InArm.not_postDominates (hr : r.LoopFree) (ha : r.InArm q arm block stop)
    (h : r.Unfolds block stop it) (hst : ∀ s, stop = some s → s < r.func.numBlocks)
    (hne : some block ≠ stop) (hb : block < r.func.numBlocks) (hq : block ≠ q) :
    ¬r.func.PostDominates block q := by
  intro hp
  obtain ⟨s, hs, hbs⟩ := ha.beyond block hb hq hp
  have hsb := (h.stop_postDominates hr hs (hst s hs)).1
  exact hne (hs ▸ congrArg some (hbs.antisymm hsb))

theorem InArm.rest (ha : r.InArm q arm block stop) {j : BlockId}
    (hj : r.func.PostDominates j block) : r.InArm q arm j stop :=
  ⟨ha.branch, hj.trans ha.above, ha.beyond⟩

theorem InArm.mem_parents (hr : r.LoopFree) (ha : r.InArm q arm block stop)
    (h : r.Unfolds block stop it) (hs : ∀ s, stop = some s → s < r.func.numBlocks)
    (hne : some block ≠ stop) (hb : block < r.func.numBlocks) (p : Program)
    (strategy : Strategy) :
    q ∈ (classifierOf p r.func strategy r.postDominators).parents block := by
  obtain ⟨cond, ifTrue, ifFalse, ht, har⟩ := ha.branch
  exact Classifier.mem_parents_of_postDominates hr.targets hr.tree ht har hb ha.above
    (ha.not_postDominates hr h hs hne hb)

/-- The branch of an arm decides, at once or through others, whether a block of the arm runs. -/
theorem Unfolds.controlled (hr : r.LoopFree) (h : r.Unfolds block stop it)
    (hs : ∀ s, stop = some s → s < r.func.numBlocks) (ha : r.InArm q arm block stop)
    (p : Program) (strategy : Strategy) (hb : b ∈ it.entered) :
    Relation.TransGen
      (fun b q => q ∈ (classifierOf p r.func strategy r.postDominators).parents b) b q := by
  have hse : ∀ {block : BlockId} {stop : Option BlockId} {it : Itinerary} {q arm : BlockId},
      r.Unfolds block stop it → (∀ s, stop = some s → s < r.func.numBlocks) →
      r.InArm q arm block stop → some block ≠ stop → block < r.func.numBlocks →
      Relation.TransGen (fun b q =>
        q ∈ (classifierOf p r.func strategy r.postDominators).parents b) block q :=
    fun h hs ha hne hbl => .single (ha.mem_parents hr h hs hne hbl p strategy)
  induction h generalizing q arm with
  | join => simp [Itinerary.entered] at hb
  | ret hlt hsu =>
    simp only [Itinerary.entered, List.mem_singleton] at hb
    subst hb
    exact hse (.ret hlt hsu) hs ha (by simp) hlt
  | @jump block stop target next hne ht hn ih =>
    rcases List.mem_cons.mp hb with rfl | hb
    · exact hse (.jump hne ht hn) hs ha hne (mem_blocks_of_terminator? ht)
    · exact ih hs (ha.rest (hr.jump_postDominates ht)) hb
  | @fork stop site arms rest hbr htr hf he hre ihtrue ihfalse ihrest =>
    have hbl := hse (.fork hbr htr hf he hre) hs ha hbr.ne_stop hbr.lt
    have hjo : ∀ s, site.join = some s → s < r.func.numBlocks := fun s => hbr.join_lt hr
    rcases Itinerary.mem_entered_fork.mp hb with rfl | (hb | hb) | hb
    · exact hbl
    · exact (ihtrue hjo (hbr.inArm hr (.inl rfl)) hb).trans hbl
    · exact (ihfalse hjo (hbr.inArm hr (.inr rfl)) hb).trans hbl
    · rcases he with ⟨-, rfl⟩ | ⟨j, hj, hjs⟩
      · cases hb
      · exact ihrest j hj hjs hs (ha.rest (hbr.join_postDominates hr hj)) hb

theorem InArm.not_postDominates_entry (hr : r.LoopFree) (ha : r.InArm q arm block stop)
    (h : r.Unfolds block stop it) (hs : ∀ s, stop = some s → s < r.func.numBlocks)
    (hne : some block ≠ stop) (hbl : block < r.func.numBlocks) (hq : r.func.DominatorsIn above q)
    (hab : ∀ v ∈ q :: above, v ∈ visited) (hno : block ∉ visited) :
    ¬r.func.PostDominates block r.func.entry := by
  intro hpo
  have hbq : block ≠ q := fun he => hno (he ▸ hab q (by simp))
  obtain ⟨cond, ifTrue, ifFalse, ht, -⟩ := ha.branch
  have hc := hr.canReturn (mem_blocks_of_terminator? ht)
  have hes : r.func.Escapes {block} q := by
    by_contra hes
    exact ha.not_postDominates hr h hs hne hbl hbq ⟨hc, hes⟩
  have har : r.func.ReachedAround block q := by
    by_contra har
    exact hno (hab block (List.mem_cons_of_mem _ (hq block har hbq)))
  exact hpo.2 (har.escapes_entry hes)

/-- No block inside an arm is on all paths from the entry: the other arm goes around it. -/
theorem Unfolds.not_postDominates_entry (hr : r.LoopFree) (h : r.Unfolds block stop it)
    (hs : ∀ s, stop = some s → s < r.func.numBlocks) (ha : r.InArm q arm block stop)
    (hq : r.func.DominatorsIn above q) (hab : ∀ v ∈ q :: above, v ∈ visited)
    (hsup : it.Supported r.func visited) (hn : (it.entered ++ visited).Nodup)
    (hb : b ∈ it.entered) : ¬r.func.PostDominates b r.func.entry := by
  induction h generalizing q arm above visited with
  | join => simp [Itinerary.entered] at hb
  | @ret block hlt hsuc =>
    simp only [Itinerary.entered, List.mem_singleton, List.singleton_append,
      List.nodup_cons] at hb hn
    subst hb
    exact ha.not_postDominates_entry hr (.ret hlt hsuc) hs (by simp) hlt hq hab hn.1
  | @jump block stop target next hne ht hnex ih =>
    have hlt := mem_blocks_of_terminator? ht
    obtain ⟨hno, hn⟩ := List.nodup_cons.mp hn
    rcases List.mem_cons.mp hb with rfl | hb
    · exact ha.not_postDominates_entry hr (.jump hne ht hnex) hs hne hlt hq hab
        fun hm => hno (List.mem_append_right _ hm)
    · have hpe : (next.entered ++ block :: visited).Nodup :=
        List.perm_middle.nodup_iff.mpr (List.nodup_cons.mpr ⟨hno, hn⟩)
      exact ih hs (ha.rest (hr.jump_postDominates ht)) hq
        (fun v hv => List.mem_cons_of_mem _ (hab v hv)) hsup.2 hpe hb
  | @fork stop site arms rest hbr htr hf hen hre ihtrue ihfalse ihrest =>
    have hjo : ∀ s, site.join = some s → s < r.func.numBlocks := fun s => hbr.join_lt hr
    obtain ⟨hd, hsupT, hsu, hsupR⟩ := hsup
    obtain ⟨hp, hper, hpe⟩ := Itinerary.nodup_entered_fork hn
    rcases Itinerary.mem_entered_fork.mp hb with rfl | (hb | hb) | hb
    · refine ha.not_postDominates_entry hr (.fork hbr htr hf hen hre) hs hbr.ne_stop hbr.lt hq hab ?_
      have := (List.nodup_append.mp hp).2.1
      exact (List.nodup_cons.mp this).1
    · exact ihtrue hjo (hbr.inArm hr (.inl rfl)) hd (fun v hv => hv) hsupT hp hb
    · exact ihfalse hjo (hbr.inArm hr (.inr rfl)) hd (fun v hv => List.mem_append_right _ hv)
        hsu hper hb
    · rcases hen with ⟨-, rfl⟩ | ⟨j, hj, hjs⟩
      · cases hb
      · refine ihrest j hj hjs hs (ha.rest (hbr.join_postDominates hr hj)) hq (fun v hv => ?_)
          hsupR hpe hb
        have := hab v hv
        simp [this]

end Route

end Stagewise
