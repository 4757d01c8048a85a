import Stagewise.Proofs.Sketch.Frame

namespace Stagewise

/-- When a plan wants a branch. The blocks in `forced` must keep the branches that decide about them,
those branches are in `guards`, and phis wait in the blocks in `live`. -/
structure Plan.Guarded (plan : Plan) (r : Route) (c : Classifier)
    (live forced guards quiet : BlockId → Prop) : Prop where
  wants : ∀ site, plan.wants site = true ↔ guards site.block ∨ ∃ j, site.join = some j ∧ live j
  decides : ∀ b q, forced b → Relation.TransGen (fun b q => q ∈ c.parents b) b q → guards q
  forces : ∀ q, guards q → forced q
  quiet : ∀ b, ¬forced b → ¬r.func.PostDominates b r.func.entry → quiet b

namespace Route

variable {r : Route} {block : BlockId} {stop : Option BlockId} {it : Itinerary} {plan : Plan}
  {p : Program} {strategy : Strategy} {live forced guards quiet : BlockId → Prop} {enclosed : Bool}

/-- A walk from `block` to `stop` inside of an arm whose branch is left out. -/
structure LeftOut (r : Route) (live guards : BlockId → Prop) (block : BlockId)
    (stop : Option BlockId) : Prop where
  inArm : ∃ q arm, r.InArm q arm block stop ∧ ¬guards q
  dead : ∀ j, stop = some j → ¬live j

theorem LeftOut.rest {j : BlockId} (h : r.LeftOut live guards block stop)
    (hj : r.func.PostDominates j block) : r.LeftOut live guards j stop := by
  obtain ⟨q, arm, ha, hq⟩ := h.inArm
  exact ⟨⟨q, arm, ha.rest hj, hq⟩, h.dead⟩

variable {site : BranchSite} {visited : List BlockId}

theorem Branches.leftOut {arm : BlockId} (h : r.Branches stop site)
    (hr : r.LoopFree)
    (hg : plan.Guarded r (classifierOf p r.func strategy r.postDominators) live forced guards quiet)
    (hw : plan.wants site = false) (ha : arm = site.ifTrue ∨ arm = site.ifFalse) :
    r.LeftOut live guards arm site.join := by
  have hn : ¬(guards site.block ∨ ∃ j, site.join = some j ∧ live j) := by
    rw [← hg.wants, hw]
    exact Bool.false_ne_true
  exact ⟨⟨site.block, arm, h.inArm hr ha, fun h => hn (.inl h)⟩,
    fun j hj hl => hn (.inr ⟨j, hj, hl⟩)⟩

theorem Unfolds.quiet_arm (hr : r.LoopFree) (h : r.Unfolds block stop it)
    (hg : plan.Guarded r (classifierOf p r.func strategy r.postDominators) live forced guards quiet)
    (hs : ∀ s, stop = some s → s < r.func.numBlocks) {q arm : BlockId}
    (ha : r.InArm q arm block stop) (hq : ¬guards q) {above : List BlockId}
    (hd : r.func.DominatorsIn above q) (hab : ∀ v ∈ q :: above, v ∈ visited)
    (hsu : it.Supported r.func visited) (hn : (it.entered ++ visited).Nodup) :
    ∀ b ∈ it.entered, quiet b := by
  intro b hb
  refine hg.quiet b (fun hf => hq ?_) ?_
  · exact hg.decides b q hf (h.controlled hr hs ha p strategy hb)
  · exact h.not_postDominates_entry hr hs ha hd hab hsu hn hb

theorem Branches.arms_quiet {arm : BlockId → Itinerary} {rest : Itinerary}
    (h : r.Branches stop site) (hr : r.LoopFree)
    (hg : plan.Guarded r (classifierOf p r.func strategy r.postDominators) live forced guards quiet)
    (hw : plan.wants site = false) (ht : r.Unfolds site.ifTrue site.join (arm site.ifTrue))
    (hf : r.Unfolds site.ifFalse site.join (arm site.ifFalse))
    (hsup : (Itinerary.fork site arm rest).Supported r.func visited)
    (hn : ((Itinerary.fork site arm rest).entered ++ visited).Nodup) :
    ∀ b ∈ (arm site.ifTrue).entered ++ (arm site.ifFalse).entered, quiet b := by
  obtain ⟨hd, hs, hsu, -⟩ := hsup
  obtain ⟨hnd, hndF, -⟩ := Itinerary.nodup_entered_fork hn
  have hgu : ¬guards site.block := by
    intro hb
    rw [(hg.wants site).mpr (.inl hb)] at hw
    cases hw
  intro b hb
  rcases List.mem_append.mp hb with hb | hb
  · exact ht.quiet_arm hr hg (fun _ => h.join_lt hr) (h.inArm hr (.inl rfl)) hgu hd
      (fun v hv => hv) hs hnd b hb
  · exact hf.quiet_arm hr hg (fun _ => h.join_lt hr) (h.inArm hr (.inr rfl)) hgu hd
      (fun v hv => List.mem_append_right _ hv) hsu hndF b hb

theorem LeftOut.wants_eq_false (hr : r.LoopFree)
    (h : r.LeftOut live guards site.block stop) (hu : r.Unfolds site.block stop it)
    (hg : plan.Guarded r (classifierOf p r.func strategy r.postDominators) live forced guards quiet)
    (hs : ∀ s, stop = some s → s < r.func.numBlocks) (hbr : r.Branches stop site)
    (hjo : site.join = stop) : plan.wants site = false := by
  rw [← Bool.not_eq_true, hg.wants]
  rintro (hgu | ⟨j, hj, hl⟩)
  · obtain ⟨q, arm, ha, hq⟩ := h.inArm
    exact hq (hg.decides _ q (hg.forces _ hgu)
      (.single (ha.mem_parents hr hu hs hbr.ne_stop hbr.lt p strategy)))
  · exact h.dead j (hjo.symm.trans hj) hl

/-- A guarded plan goes along in order, since what it leaves out is of no concern. -/
theorem Unfolds.orderly (hr : r.LoopFree) (h : r.Unfolds block stop it)
    (hg : plan.Guarded r (classifierOf p r.func strategy r.postDominators) live forced guards quiet)
    (hs : ∀ s, stop = some s → s < r.func.numBlocks)
    (hsu : it.Supported r.func visited)
    (hc : (∀ b, quiet b) ∨ (it.entered ++ visited).Nodup)
    (henc : enclosed = true → r.LeftOut live guards block stop) :
    it.Orderly plan quiet enclosed := by
  induction h generalizing visited enclosed with
  | join | ret _ _ => trivial
  | @jump block stop target next hne hte hnex ih =>
    exact ih hs hsu.2 (hc.imp_right List.perm_middle.nodup_iff.mpr) fun he =>
      (henc he).rest (hr.jump_postDominates hte)
  | @fork stop site arm rest hbr ht hf hen hre ihtrue ihfalse ihrest =>
    have hjo : ∀ s, site.join = some s → s < r.func.numBlocks := fun _ => hbr.join_lt hr
    have hca := hc.imp_right fun h => (Itinerary.nodup_entered_fork h).1
    have hcal := hc.imp_right fun h => (Itinerary.nodup_entered_fork h).2.1
    have hcalm := hc.imp_right fun h => (Itinerary.nodup_entered_fork h).2.2
    refine ⟨fun hw => ⟨fun hd => ?_, ?_, ?_⟩, fun hw => ⟨?_, ?_, ?_⟩, ?_⟩
    · cases enclosed with
      | false => rfl
      | true =>
        rcases hen with ⟨hjs, -⟩ | ⟨j, hj, hjs⟩
        · have := (henc rfl).wants_eq_false hr (.fork hbr ht hf (.inl ⟨hjs, hd⟩) hre) hg
            hs hbr hjs
          rw [hw] at this
          cases this
        · have := hre j hj hjs
          rw [hd] at this
          cases this
    · exact ihtrue hjo hsu.2.1 hca (by simp)
    · exact ihfalse hjo hsu.2.2.1 hcal (by simp)
    · exact hc.elim (fun ha b _ => ha b) fun hn =>
        hbr.arms_quiet hr hg hw ht hf hsu hn
    · exact ihtrue hjo hsu.2.1 hca fun _ => hbr.leftOut hr hg hw (.inl rfl)
    · exact ihfalse hjo hsu.2.2.1 hcal fun _ => hbr.leftOut hr hg hw (.inr rfl)
    · rcases hen with ⟨-, rfl⟩ | ⟨j, hj, hjs⟩
      · trivial
      · exact ihrest j hj hjs hs hsu.2.2.2 hcalm fun he =>
          (henc he).rest (hbr.join_postDominates hr hj)

theorem orderly_itinerary (hr : r.LoopFree) (he : r.func.entry < r.func.numBlocks)
    (hg : plan.Guarded r (classifierOf p r.func strategy r.postDominators) live forced guards quiet)
    (hc : (∀ b, quiet b) ∨ r.itinerary.entered.Nodup) :
    r.itinerary.Orderly plan quiet false := by
  have hs := (itinerary_supported hr.targets hr.tree he).1
  exact (unfolds_itinerary hr he).orderly hr hg (by simp) hs (by simpa using hc) (by simp)

end Route

end Stagewise
