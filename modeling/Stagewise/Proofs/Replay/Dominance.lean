import Stagewise.Proofs.Replay.Itinerary

namespace Stagewise

namespace Function

/-- Control can come from the entry to a block without passing `d`. -/
inductive ReachedAround (f : Function) (d : BlockId) : BlockId → Prop
  | entry : f.entry ≠ d → ReachedAround f d f.entry
  | step {v w : BlockId} : ReachedAround f d v → w ≠ d → w ∈ f.successors v → ReachedAround f d w

def Dominates (f : Function) (d b : BlockId) : Prop := ¬f.ReachedAround d b

/-- A list has all blocks that dominate a block, except perhaps the block itself. -/
def DominatorsIn (f : Function) (visited : List BlockId) (b : BlockId) : Prop :=
  ∀ d, f.Dominates d b → d ≠ b → d ∈ visited

def DominatorClosed (f : Function) (visited : List BlockId) : Prop :=
  ∀ v ∈ visited, ∀ d, f.Dominates d v → d ∈ visited

variable {f : Function} {d v w : BlockId}

theorem DominatorsIn.closed {visited : List BlockId} (h : f.DominatorsIn visited v)
    (hc : f.DominatorClosed visited) : f.DominatorClosed (v :: visited) := by
  intro w hw d hd
  rcases List.mem_cons.mp hw with rfl | hw
  · by_cases hne : d = w
    · simp [hne]
    · exact List.mem_cons_of_mem _ (h d hd hne)
  · exact List.mem_cons_of_mem _ (hc w hw d hd)

theorem Dominates.of_successor (h : f.Dominates d w) (hne : d ≠ w) (hw : w ∈ f.successors v) :
    f.Dominates d v := by
  intro hv
  exact h (.step hv (fun he => hne he.symm) hw)

theorem dominates_entry (h : f.Dominates d f.entry) : d = f.entry := by
  by_contra hne
  exact h (.entry fun he => hne he.symm)

end Function

/-- Every block of an itinerary comes after the blocks that dominate it; those in `visited` were
entered before. -/
def Itinerary.Supported (f : Function) : List BlockId → Itinerary → Prop
  | visited, .ret block => f.DominatorsIn visited block
  | visited, .jump block next =>
    f.DominatorsIn visited block ∧ next.Supported f (block :: visited)
  | visited, .fork site arm rest =>
    f.DominatorsIn visited site.block ∧
    (arm site.ifTrue).Supported f (site.block :: visited) ∧
    (arm site.ifFalse).Supported f ((arm site.ifTrue).entered ++ site.block :: visited) ∧
    rest.Supported f ((arm site.ifFalse).entered ++
      ((arm site.ifTrue).entered ++ site.block :: visited))
  | _, _ => True

theorem Itinerary.Supported.closed {f : Function} {visited : List BlockId} {it : Itinerary}
    (h : it.Supported f visited) (hc : f.DominatorClosed visited) :
    f.DominatorClosed (it.entered ++ visited) := by
  induction it generalizing visited with
  | ret block => exact Function.DominatorsIn.closed h hc
  | jump block next ih =>
    obtain ⟨hb, hn⟩ : f.DominatorsIn visited block ∧ next.Supported f (block :: visited) := h
    intro v hv d hd
    have := ih hn (hb.closed hc) v (by simp [entered] at hv ⊢; tauto) d hd
    simp only [entered, List.mem_append, List.mem_cons] at this ⊢
    tauto
  | fork site arm rest iharm ihrest =>
    obtain ⟨hb, hf, hs, hre⟩ := h
    have hc' := iharm site.ifFalse hs
      (iharm site.ifTrue hf (Function.DominatorsIn.closed hb hc))
    intro v hv d hd
    have := ihrest hre hc' v (by simp [entered] at hv ⊢; tauto) d hd
    simp only [entered, List.mem_append, List.mem_cons] at this ⊢
    tauto
  | _ => exact hc

/-- A branch that a walk is inside of, with the arm that it is in and the one that it has yet to
walk. -/
structure OpenBranch where
  block : BlockId
  current : BlockId
  later : BlockId

namespace Route

variable {r : Route} {visited : List BlockId} {branches : List OpenBranch}
  {targets stops active : List BlockId} {block : BlockId} {stop : Option BlockId}
  {branches' : List OpenBranch}

/-- What a walk has entered so far: the dominators of each block, and its successors except for
those that are still to come. -/
structure Settled (r : Route) (visited : List BlockId) (branches : List OpenBranch)
    (targets : List BlockId) : Prop where
  inRange : ∀ v ∈ visited, v < r.func.numBlocks
  dominators : r.func.DominatorClosed visited
  successors : ∀ v ∈ visited, ∀ w ∈ r.func.successors v,
    w ∈ visited ∨ (∃ b ∈ branches, b.block = v ∧ b.later = w) ∨ w ∈ targets

/-- What a walk knows when it comes to a block: the blocks in `stops` are those at which it, or a walk
that it is part of, ends. -/
structure Arrival (r : Route) (visited : List BlockId) (branches : List OpenBranch)
    (stops : List BlockId) (block : BlockId) (stop : Option BlockId) : Prop where
  settled : r.Settled visited branches (block :: stops)
  dominators : r.func.DominatorsIn visited block
  stop_mem : ∀ s, stop = some s → s ∈ stops
  stop_of_mem : ∀ q ∈ stops, ∃ s, stop = some s ∧ r.func.PostDominates q s
  stop_postDominates : ∀ s, stop = some s → r.func.CanReturn block →
    r.func.PostDominates s block
  branch_successors : ∀ b ∈ branches,
    b.current ∈ r.func.successors b.block ∧ b.later ∈ r.func.successors b.block
  branch_join : ∀ b ∈ branches, ∀ j,
    r.postDominators.nearestCommon? b.current b.later = some j → j ∈ stops
  branch_canReturn : ∀ b ∈ branches, r.func.CanReturn block → r.func.CanReturn b.current

theorem Settled.congr {visited' : List BlockId} (h : r.Settled visited branches targets)
    (he : ∀ v, v ∈ visited' ↔ v ∈ visited) : r.Settled visited' branches targets := by
  refine ⟨?_, ?_, ?_⟩
  · intro v hv
    exact h.inRange v ((he v).mp hv)
  · intro v hv d hd
    exact (he d).mpr (h.dominators v ((he v).mp hv) d hd)
  · intro v hv w hw
    rw [he]
    exact h.successors v ((he v).mp hv) w hw

theorem Settled.mono {targets' : List BlockId} (h : r.Settled visited branches targets)
    (hb : ∀ b ∈ branches, b ∈ branches' ∨ b.later ∈ targets')
    (ht : ∀ w ∈ targets, w ∈ visited ∨ w ∈ targets') : r.Settled visited branches' targets' := by
  refine ⟨h.inRange, h.dominators, fun v hv w hw => ?_⟩
  rcases h.successors v hv w hw with hw | ⟨b, hm, hbv, hbw⟩ | hw
  · exact .inl hw
  · rcases hb b hm with hm | hm
    · exact .inr (.inl ⟨b, hm, hbv, hbw⟩)
    · exact .inr (.inr (hbw ▸ hm))
  · exact (ht w hw).imp_right .inr

theorem Arrival.enter (h : r.Arrival visited branches stops block stop)
    (hbl : block < r.func.numBlocks)
    (hbra : ∀ b ∈ branches, b ∈ branches') (hs : ∀ w ∈ stops, w ∈ targets)
    (hsu : ∀ w ∈ r.func.successors block,
      (∃ b ∈ branches', b.block = block ∧ b.later = w) ∨ w ∈ targets) :
    r.Settled (block :: visited) branches' targets := by
  refine ⟨?_, ?_, ?_⟩
  · intro v hv
    rcases List.mem_cons.mp hv with rfl | hv
    · exact hbl
    · exact h.settled.inRange v hv
  · intro v hv d hd
    rcases List.mem_cons.mp hv with rfl | hv
    · by_cases hdv : d = v
      · simp [hdv]
      · exact List.mem_cons_of_mem _ (h.dominators d hd hdv)
    · exact List.mem_cons_of_mem _ (h.settled.dominators v hv d hd)
  · intro v hv w hw
    rcases List.mem_cons.mp hv with rfl | hv
    · exact .inr (hsu w hw)
    · rcases h.settled.successors v hv w hw with hw | ⟨b, hb, hbw⟩ | hw
      · exact .inl (by simp [hw])
      · exact .inr (.inl ⟨b, hbra b hb, hbw⟩)
      · rcases List.mem_cons.mp hw with rfl | hw
        · exact .inl (by simp)
        · exact .inr (.inr (hs w hw))

theorem Settled.dominatorsIn {v : BlockId} (h : r.Settled visited branches targets)
    (hv : v ∈ visited) {w : BlockId} (hw : w ∈ r.func.successors v) :
    r.func.DominatorsIn visited w :=
  fun d hd hne => h.dominators v hv d (hd.of_successor hne hw)

section Branch

variable {site : BranchSite} {join : BlockId} (hr : r.func.TargetsInRange)
  (ht : r.postDominators.Exact r.func) (h : r.Arrival visited branches stops site.block stop)
  (hbr : r.Branches stop site)
include hr ht h hbr

theorem Arrival.stops_postDominate {q : BlockId} (hj : site.join = some join) (hq : q ∈ stops) :
    r.func.PostDominates q join := by
  obtain ⟨htr, hf, -, -, hi⟩ := ht.nearestCommon?_eq_some hr (hbr.join_eq.symm.trans hj)
  obtain ⟨s, hs, hqs⟩ := h.stop_of_mem q hq
  have hT := hbr.mem_exitSuccessors.mpr (.inl rfl)
  have hF := hbr.mem_exitSuccessors.mpr (.inr rfl)
  have hsb := h.stop_postDominates s hs (.step (by simp) hT htr)
  have hsn : s ≠ site.block := by
    rintro rfl
    exact hbr.ne_stop hs.symm
  exact hqs.trans ((hi s).mpr ⟨hsb.next hsn hT htr, hsb.next hsn hF hf⟩)

variable {after : List BlockId}

/-- When both arms are walked, the join was entered or one of its predecessors was. -/
theorem Arrival.join_reached (hj : site.join = some join) (hne : some join ≠ stop)
    (ha : r.Settled after branches (join :: stops))
    (hm : site.block ∈ after) : join ∈ after ∨ ∃ v ∈ after, join ∈ r.func.successors v := by
  by_contra hco
  simp only [not_or, not_exists, not_and] at hco
  obtain ⟨hn, hed⟩ := hco
  obtain ⟨htr, -, hlt, hcj, hi⟩ := ht.nearestCommon?_eq_some hr (hbr.join_eq.symm.trans hj)
  have hca : r.func.CanReturn site.block :=
    .step (by simp) (hbr.mem_exitSuccessors.mpr (.inl rfl)) htr
  have hd : r.func.PostDominates join site.block := by
    have hbo := (hi join).mp (.refl hcj)
    refine .of_next hca (Nat.ne_of_lt (ha.inRange site.block hm)) fun w hw _ => ?_
    rcases hbr.mem_exitSuccessors.mp hw with rfl | rfl
    · exact hbo.1
    · exact hbo.2
  have hst := fun q => h.stops_postDominate hr ht hbr hj (q := q)
  have hjo : join ∉ stops := by
    intro hq
    obtain ⟨s, hs, hqs⟩ := h.stop_of_mem join hq
    have := (hst s (h.stop_mem s hs)).antisymm hqs
    exact hne (this ▸ hs.symm)
  -- A way from the block that stays among the entered blocks avoids the join.
  have key : ∀ x, r.func.CanReturn x → x ∈ after → r.func.Leads (· ≠ join) x site.block → False := by
    intro x hx
    induction hx with
    | exit _ =>
      intro hm _
      exact absurd (ha.inRange _ hm) (lt_irrefl _)
    | @step x w _ hw hcw ih =>
      intro hm hl
      have hxj : x ≠ join := fun he => hn (he ▸ hm)
      have hl' : r.func.Leads (· ≠ join) w site.block := hl.trans (.step hxj hw .here)
      have hxd : r.func.PostDominates join x :=
        ⟨.step (by simp) hw hcw, fun he => hd.2 (hl.escapes (by simp) he)⟩
      have hwd : r.func.PostDominates join w :=
        ⟨hcw, fun he => hd.2 (hl'.escapes (by simp) he)⟩
      by_cases hwe : w = r.func.exitNode
      · refine hwd.2 (hwe ▸ .exit ?_)
        simp only [Function.exitNode, Finset.mem_singleton]
        omega
      · have hws := r.func.mem_successors_of_mem_exitSuccessors hwe hw
        rcases ha.successors x hm w hws with hw' | ⟨b, hb, rfl, rfl⟩ | hw'
        · exact ih hw' hl'
        · -- The way enters an arm that is still to be walked.
          obtain ⟨hcu, hla⟩ := h.branch_successors b hb
          have hcc := h.branch_canReturn b hb hca
          have hc := hxd.next (fun he => hxj he.symm)
            (r.func.mem_exitSuccessors_of_mem_successors hcu) hcc
          cases hbj : r.postDominators.nearestCommon? b.current b.later with
          | none =>
            have := ht.nearestCommon?_eq_none hr hbj hcc hcw hc hwd
            simp only [Function.exitNode] at this
            omega
          | some j =>
            have hj' := h.branch_join b hb j hbj
            have hjj : r.func.PostDominates join j :=
              ((ht.nearestCommon?_eq_some hr hbj).2.2.2.2 join).mpr ⟨hc, hwd⟩
            exact hjo (hjj.antisymm (hst j hj') ▸ hj')
        · rcases List.mem_cons.mp hw' with rfl | hw'
          · exact hed x hm hws
          · exact hjo (hwd.antisymm (hst w hw') ▸ hw')
  exact key site.block hca hm .here

/-- A walk that enters an arm knows where the arm and the walks around it end. -/
theorem Arrival.arm {arm : BlockId} (har : arm = site.ifTrue ∨ arm = site.ifFalse)
    {branches' : List OpenBranch}
    (ha : r.Settled after branches' (arm :: (site.join.toList ++ stops)))
    (hm : site.block ∈ after) (hbra : ∀ b ∈ branches', b ∈ branches ∨
      arm = site.ifTrue ∧ b = ⟨site.block, site.ifTrue, site.ifFalse⟩) :
    r.Arrival after branches' (site.join.toList ++ stops) arm site.stop := by
  have he := hbr.mem_exitSuccessors.mpr har
  have hba : r.func.CanReturn arm → r.func.CanReturn site.block := .step (by simp) he
  refine ⟨ha, ha.dominatorsIn hm (hbr.mem_successors.mpr har), ?_, ?_, ?_, ?_, ?_, ?_⟩
  · intro s hs
    rw [hbr.stop_eq] at hs
    cases hj : site.join with
    | none => simpa using h.stop_mem s (by simpa [hj] using hs)
    | some j =>
      have : j = s := by simpa [hj] using hs
      simp [this]
  · intro q hq
    rw [hbr.stop_eq]
    cases hj : site.join with
    | none =>
      obtain ⟨s, hs, hqs⟩ := h.stop_of_mem q (by simpa [hj] using hq)
      exact ⟨s, by simpa using hs, hqs⟩
    | some j =>
      refine ⟨j, rfl, ?_⟩
      rw [hj] at hq
      rcases List.mem_cons.mp hq with rfl | hq
      · exact .refl (ht.nearestCommon?_eq_some hr (hbr.join_eq.symm.trans hj)).2.2.2.1
      · exact h.stops_postDominate hr ht hbr hj hq
  · intro s hs hc
    rw [hbr.stop_eq] at hs
    cases hj : site.join with
    | none =>
      have hs : stop = some s := by simpa [hj] using hs
      refine (h.stop_postDominates s hs (hba hc)).next ?_ he hc
      rintro rfl
      exact hbr.ne_stop hs.symm
    | some j =>
      obtain rfl : j = s := by simpa [hj] using hs
      obtain ⟨-, -, -, hcj, hi⟩ := ht.nearestCommon?_eq_some hr (hbr.join_eq.symm.trans hj)
      have hbo := (hi j).mp (.refl hcj)
      rcases har with rfl | rfl
      · exact hbo.1
      · exact hbo.2
  · intro b hb
    rcases hbra b hb with hb | ⟨-, rfl⟩
    · exact h.branch_successors b hb
    · exact ⟨hbr.mem_successors.mpr (.inl rfl), hbr.mem_successors.mpr (.inr rfl)⟩
  · intro b hb j hj
    rcases hbra b hb with hb | ⟨-, rfl⟩
    · exact List.mem_append_right _ (h.branch_join b hb j hj)
    · simp [hbr.join_eq, hj]
  · intro b hb hc
    rcases hbra b hb with hb | ⟨rfl, rfl⟩
    · exact h.branch_canReturn b hb (hba hc)
    · exact hc

theorem Arrival.rest (hj : site.join = some join) (hne : some join ≠ stop)
    (ha : r.Settled after branches (join :: stops)) (hm : site.block ∈ after) :
    r.Arrival after branches stops join stop := by
  have hc : r.func.CanReturn site.block := by
    have htr := (ht.nearestCommon?_eq_some hr (hbr.join_eq.symm.trans hj)).1
    exact .step (by simp) (hbr.mem_exitSuccessors.mpr (.inl rfl)) htr
  refine ⟨ha, ?_, h.stop_mem, h.stop_of_mem, ?_, h.branch_successors, h.branch_join,
    fun b hb _ => h.branch_canReturn b hb hc⟩
  · rcases h.join_reached hr ht hbr hj hne ha hm with hj | ⟨v, hv, hj⟩
    · exact fun d hd _ => ha.dominators join hj d hd
    · exact ha.dominatorsIn hv hj
  · intro s hs _
    exact h.stops_postDominate hr ht hbr hj (h.stop_mem s hs)

end Branch

/-- A block is entered after all its dominators, by induction on the way of the walk. -/
theorem Follows.supported (hr : r.func.TargetsInRange) (ht : r.postDominators.Exact r.func)
    {it : Itinerary} (hf : r.Follows active block stop it)
    (h : r.Arrival visited branches stops block stop) (ha : ∀ b ∈ active, b ∈ visited) :
    it.Supported r.func visited ∧ r.Settled (it.entered ++ visited) branches stops := by
  induction hf generalizing visited branches stops with
  | @join _ block stop hst =>
    refine ⟨trivial, h.settled.mono (fun b hb => .inl hb) fun w hw => .inr ?_⟩
    rcases List.mem_cons.mp hw with rfl | hw
    · exact h.stop_mem w hst.symm
    · exact hw
  | @loop _ block stop _ hm =>
    refine ⟨trivial, h.settled.mono (fun b hb => .inl hb) fun w hw => ?_⟩
    rcases List.mem_cons.mp hw with rfl | hw
    · exact .inl (ha w hm)
    · exact .inr hw
  | @ret _ block stop _ hlt _ hsu =>
    refine ⟨h.dominators, ?_⟩
    exact h.enter hlt (fun b hb => hb) (fun w hw => hw) (by simp [hsu])
  | @jump active block stop target next hst _ hte _ ih =>
    have hsu := successors_jump hte
    have he : target ∈ r.func.exitSuccessors block :=
      r.func.mem_exitSuccessors_of_mem_successors (by simp [hsu])
    have hlt := r.func.mem_exitSuccessors_lt he
    have hse : r.Settled (block :: visited) branches (target :: stops) :=
      h.enter hlt (fun b hb => hb) (fun w hw => by simp [hw]) (by simp [hsu])
    have hba : r.func.CanReturn target → r.func.CanReturn block := .step (by simp) he
    have harr : r.Arrival (block :: visited) branches stops target stop := by
      refine ⟨hse, hse.dominatorsIn List.mem_cons_self (by simp [hsu]), h.stop_mem,
        h.stop_of_mem, fun s hs hc => ?_, h.branch_successors, h.branch_join,
        fun b hb hc => h.branch_canReturn b hb (hba hc)⟩
      refine (h.stop_postDominates s hs (hba hc)).next ?_ he hc
      rintro rfl
      exact hst hs.symm
    obtain ⟨hsup, hpos⟩ := ih harr fun b hb => by
      rcases List.mem_cons.mp hb with rfl | hb
      · simp
      · exact List.mem_cons_of_mem _ (ha b hb)
    exact ⟨⟨h.dominators, hsup⟩, hpos.congr fun v => by simp [Itinerary.entered]; tauto⟩
  | @fork active stop site arm rest hbr _ _ _ hen _ ihTrue ihFalse ihRest =>
    have hsu : ∀ {w}, w ∈ r.func.successors site.block → w = site.ifTrue ∨ w = site.ifFalse :=
      hbr.mem_successors.mp
    have har : r.Arrival (site.block :: visited)
        (⟨site.block, site.ifTrue, site.ifFalse⟩ :: branches) (site.join.toList ++ stops)
        site.ifTrue site.stop := by
      refine h.arm hr ht hbr (.inl rfl) ?_ (by simp) ?_
      · refine h.enter hbr.lt (fun b hb => by simp [hb]) (fun w hw => by simp [hw]) fun w hw => ?_
        rcases hsu hw with rfl | rfl
        · simp
        · simp
      · intro b hb
        rcases List.mem_cons.mp hb with hb | hb
        · exact .inr ⟨rfl, hb⟩
        · exact .inl hb
    obtain ⟨hsupT, hpo⟩ := ihTrue har fun b hb => by
      rcases List.mem_cons.mp hb with rfl | hb
      · simp
      · exact List.mem_cons_of_mem _ (ha b hb)
    have harrF : r.Arrival ((arm site.ifTrue).entered ++ site.block :: visited) branches
        (site.join.toList ++ stops) site.ifFalse site.stop := by
      refine h.arm hr ht hbr (.inr rfl) ?_ (by simp) fun b hb => .inl hb
      refine hpo.mono (fun b hb => ?_) fun w hw => .inr (List.mem_cons_of_mem _ hw)
      rcases List.mem_cons.mp hb with rfl | hb
      · exact .inr (by simp)
      · exact .inl hb
    obtain ⟨hsupF, hp⟩ := ihFalse harrF fun b hb => by
      rcases List.mem_cons.mp hb with rfl | hb
      · simp
      · simp [ha b hb]
    have hre : rest.Supported r.func ((arm site.ifFalse).entered ++
        ((arm site.ifTrue).entered ++ site.block :: visited)) ∧ r.Settled (rest.entered ++
          ((arm site.ifFalse).entered ++ ((arm site.ifTrue).entered ++ site.block :: visited)))
          branches stops := by
      rcases hen with ⟨hend, rfl⟩ | ⟨join, hj, hne⟩
      · refine ⟨trivial, hp.mono (fun b hb => .inl hb) fun w hw => .inr ?_⟩
        rcases List.mem_append.mp hw with hw | hw
        · have hw : site.join = some w := by simpa using hw
          rcases hend with hj | hj
          · simp [hj] at hw
          · exact h.stop_mem w (hj ▸ hw)
        · exact hw
      · refine ihRest join hj hne (h.rest hr ht hbr hj hne ?_ (by simp)) fun b hb => ?_
        · simpa [hj] using hp
        · rcases List.mem_cons.mp hb with rfl | hb
          · simp
          · simp [ha b hb]
    refine ⟨⟨h.dominators, hsupT, hsupF, hre.1⟩, hre.2.congr fun v => ?_⟩
    simp only [Itinerary.entered, List.mem_append, List.mem_cons]
    tauto

theorem itinerary_supported (hr : r.func.TargetsInRange) (ht : r.postDominators.Exact r.func)
    (he : r.func.entry < r.func.numBlocks) :
    r.itinerary.Supported r.func [] ∧ r.Settled r.itinerary.entered [] [] := by
  have ha : r.Arrival [] [] [] r.func.entry none := by
    refine ⟨⟨by simp, fun v hv => by simp at hv, by simp⟩, fun d hd hne => ?_, by simp, by simp, by simp, by simp,
      by simp, by simp⟩
    exact absurd (r.func.dominates_entry hd) hne
  simpa using (follows_itinerary hr ht he).supported hr ht ha (by simp)

end Route

end Stagewise
