import Stagewise.Proofs.Sketch.Frame

namespace Stagewise

namespace Sketch

structure Forked (plan : Plan) (k : Sketch) (site : BranchSite) (T F : Itinerary) (fork : Fork)
    (k₁ kT kF : Sketch) : Prop where
  wants : plan.wants site = true
  place : k.ForkPlace plan site T F
  opened : k.Opened site fork k₁
  first : (k₁.enterArm fork fork.ifTrue).Outcome plan kT site.join false T
  second : ((kT.leaveArm fork).enterArm fork fork.ifFalse).Outcome plan kF site.join false F
  closed : k.Closed plan ((kF.leaveArm fork).closeFork fork) site T F

/-- A fork that the scope does not want, with both arms drawn one after the other. -/
structure Flattened (plan : Plan) (quiet : BlockId → Prop) (k : Sketch) (site : BranchSite)
    (T F : Itinerary) (kT kF : Sketch) : Prop where
  unwanted : plan.wants site = false
  quiet : ∀ b ∈ T.entered ++ F.entered, quiet b
  first : k.Outcome plan kT site.join true T
  second : kT.Outcome plan kF site.join true F
  passed : k.Passed plan kF T F

/-- What is drawn after the arms of a branch: nothing if they end where the walk does, and else what
follows the block where they come together. -/
def After (plan : Plan) (site : BranchSite) (stop : Option BlockId) (enclosed : Bool)
    (rest : Itinerary) (k k' : Sketch) : Prop :=
  site.join = stop ∧ rest = .done ∧ k' = k ∨ ∃ j, site.join = some j ∧ some j ≠ stop ∧
    rest.start = some j ∧ k.Outcome plan k' stop enclosed rest

inductive Drawn (r : Route) (plan : Plan) (quiet : BlockId → Prop) :
    BlockId → Option BlockId → Bool → Bool → Itinerary → Option BlockId → Sketch → Sketch → Prop
  | join {block enclosed faithful pred k} : k.Apt plan block (some block) enclosed (.join block) →
      Drawn r plan quiet block (some block) enclosed faithful (.join block) pred k
        (pred.elim k k.noteExit)
  | ret {block enclosed faithful pred k} : block < r.func.numBlocks →
      r.func.successors block = [] →
      k.Apt plan block none enclosed (.ret block) → (enclosed = true → faithful = false) →
      Drawn r plan quiet block none enclosed faithful (.ret block) pred k
        (if faithful then (k.append (plan.marks k.exits pred block)).finishIfOpen .ret
          else k.append (plan.marks k.exits pred block))
  | jump {block stop enclosed faithful target next pred k k'} : some block ≠ stop →
      r.func.terminator? block = some (.jump target) →
      k.Apt plan block stop enclosed (.jump block next) →
      Drawn r plan quiet target stop enclosed faithful next (some block)
        (k.append (plan.marks k.exits pred block)) k' →
      Drawn r plan quiet block stop enclosed faithful (.jump block next) pred k k'
  | fork {stop enclosed faithful site arm rest pred k fork k₁ kT kF k'} :
      r.Branches stop site → (site.join = stop → enclosed = false) →
      k.Apt plan site.block stop enclosed (.fork site arm rest) →
      Forked plan (k.append (plan.marks k.exits pred site.block)) site (arm site.ifTrue)
        (arm site.ifFalse) fork k₁ kT kF →
      Drawn r plan quiet site.ifTrue site.join false faithful (arm site.ifTrue) (some site.block)
        (k₁.enterArm fork fork.ifTrue) kT →
      Drawn r plan quiet site.ifFalse site.join false faithful (arm site.ifFalse) (some site.block)
        ((kT.leaveArm fork).enterArm fork fork.ifFalse) kF →
      After plan site stop enclosed rest ((kF.leaveArm fork).closeFork fork) k' →
      (∀ j, site.join = some j → some j ≠ stop → Drawn r plan quiet j stop enclosed faithful rest none
        ((kF.leaveArm fork).closeFork fork) k') →
      Drawn r plan quiet site.block stop enclosed faithful (.fork site arm rest) pred k k'
  | flat {stop enclosed faithful site arm rest pred k kT kF k'} : r.Branches stop site →
      k.Apt plan site.block stop enclosed (.fork site arm rest) →
      Flattened plan quiet (k.append (plan.marks k.exits pred site.block)) site (arm site.ifTrue)
        (arm site.ifFalse) kT kF →
      Drawn r plan quiet site.ifTrue site.join true false (arm site.ifTrue) (some site.block)
        (k.append (plan.marks k.exits pred site.block)) kT →
      Drawn r plan quiet site.ifFalse site.join true false (arm site.ifFalse) (some site.block) kT
        kF →
      After plan site stop enclosed rest kF k' →
      (∀ j, site.join = some j → some j ≠ stop →
        Drawn r plan quiet j stop enclosed faithful rest none kF k') →
      Drawn r plan quiet site.block stop enclosed faithful (.fork site arm rest) pred k k'

variable {r : Route} {plan : Plan} {quiet : BlockId → Prop} {k : Sketch} {block : BlockId}
  {stop : Option BlockId} {enclosed : Bool} {it : Itinerary}

/-- Drawing along an orderly itinerary goes step by step, by induction on the itinerary. -/
theorem drawn_draw (h : r.Unfolds block stop it) (faithful : Bool)
    (hor : it.Orderly plan quiet enclosed) (hn : (it.rejoined plan.wants).Nodup)
    (hf : stop = none → enclosed = true → faithful = false)
    (ha : k.Apt plan block stop enclosed it) (pred : Option BlockId) :
    Drawn r plan quiet block stop enclosed faithful it pred k (it.draw plan faithful pred k) ∧
      k.Outcome plan (it.draw plan faithful pred k) stop enclosed it := by
  induction h generalizing k enclosed faithful pred with
  | join =>
    refine ⟨.join ha, ?_⟩
    cases pred with
    | none => exact .refl ha.wf _ _ _
    | some q =>
      exact ⟨⟨ha.wf.current_lt, ha.wf.marks_nil, ha.wf.ends_none, ha.wf.joins_lt⟩,
        ⟨Nat.le_refl _, fun _ _ _ => rfl, fun _ _ _ => rfl, List.prefix_rfl, fun _ he => ⟨he, rfl⟩,
          rfl⟩, fun _ _ => rfl, .inl rfl, fun h _ => h⟩
  | ret hlt hsu =>
    have hop := ha.opened (by simp)
    exact ⟨.ret hlt hsu ha (hf rfl),
      (Outcome.ret (ha.wf.append _) hop (hf rfl) _).of_append _ hop⟩
  | @jump block stop target next hne ht _ ih =>
    have hop := ha.opened hne
    have ha' := ha.append (plan.marks k.exits pred block)
    obtain ⟨hdr, hou⟩ := ih faithful hor hn hf (ha'.next hne) (some block)
    exact ⟨.jump hne ht ha hdr, .of_append _ hop (hou.mono fun _ hb => hb)⟩
  | @fork stop site arm rest hbr htr hfa hen hr ihtrue ihfalse ihrest =>
    obtain ⟨hnd, hndF, hndR, -⟩ := Itinerary.nodup_rejoined_fork hn
    obtain ⟨hwa, hu, hordR⟩ := hor
    have hop := ha.opened hbr.ne_stop
    have ha' := ha.append (plan.marks k.exits pred site.block)
    have hs := fun j hj hjs => (hr j hj hjs).start_eq hjs
    cases hw : plan.wants site with
    | true =>
      obtain ⟨hd, hord, hordF⟩ := hwa hw
      obtain ⟨⟨fork, k1⟩, hfor⟩ : ∃ x, (k.append (plan.marks k.exits pred site.block)).openFork site
        = x := ⟨_, rfl⟩
      have ho := opened_openFork ha'.wf site
      rw [hfor] at ho
      have hpl := ha'.forkPlace hw hbr.ne_stop hn (hen.imp (fun h => ⟨h.1, hd h.2⟩)
        fun ⟨j, hj, hjs⟩ => ⟨j, hs j hj hjs, hj⟩)
      rw [Itinerary.draw_fork_wanted hw arm rest faithful pred hfor]
      obtain ⟨hdT, hT⟩ := ihtrue faithful hord hnd (by simp) (hpl.armTrue ho)
        (some site.block)
      obtain ⟨hdF, hF⟩ := ihfalse faithful hordF hndF (by simp)
        (hpl.armFalse ho hT) (some site.block)
      have hc := hpl.closed ho hT hF
      have hfo : Forked plan _ site _ _ fork k1 _ _ := ⟨hw, hpl, ho, hT, hF, hc⟩
      rcases hen with ⟨hjs, rfl⟩ | ⟨j, hj, hjs⟩
      · exact ⟨.fork hbr (fun _ => hd rfl) ha hfo hdT hdF (.inl ⟨hjs, rfl, rfl⟩)
          fun i hi his => absurd (hi.symm.trans hjs) his,
          .of_append _ hop (hc.outcome_shared (hd rfl) hjs ha')⟩
      · obtain ⟨hdR, hR⟩ := ihrest j hj hjs faithful hordR hndR hf
          (hc.apt ha' hw hn hj (hs j hj hjs) hjs) none
        exact ⟨.fork hbr (fun h => absurd (hj.symm.trans h) hjs) ha hfo hdT hdF
          (.inr ⟨j, hj, hjs, hs j hj hjs, hR⟩) fun i hi _ => Option.mem_unique hj hi ▸ hdR,
          .of_append _ hop (hc.outcome ha' hw hj (hs j hj hjs) hjs hR)⟩
    | false =>
      obtain ⟨hq, hord, hordF⟩ := hu hw
      rw [Itinerary.draw_fork_unwanted hw]
      obtain ⟨hdT, hT⟩ := ihtrue false hord hnd (fun _ _ => rfl)
        (ha'.flatTrue hbr.ne_stop) (some site.block)
      obtain ⟨hdF, hF⟩ := ihfalse false hordF hndF (fun _ _ => rfl)
        (ha'.flatFalse hbr.ne_stop hn hT) (some site.block)
      have hp := hT.passed ha'.wf hop hF
      have hfl : Flattened plan quiet _ site _ _ _ _ := ⟨hw, hq, hT, hF, hp⟩
      rcases hen with ⟨hjs, rfl⟩ | ⟨j, hj, hjs⟩
      · exact ⟨.flat hbr ha hfl hdT hdF (.inl ⟨hjs, rfl, rfl⟩)
          fun i hi his => absurd (hi.symm.trans hjs) his,
          .of_append _ hop (hp.outcome ha' (.refl hp.wf _ _ _))⟩
      · obtain ⟨hdR, hR⟩ := ihrest j hj hjs faithful hordR hndR hf (hp.apt ha' hn) none
        exact ⟨.flat hbr ha hfl hdT hdF (.inr ⟨j, hj, hjs, hs j hj hjs, hR⟩)
          fun i hi _ => Option.mem_unique hj hi ▸ hdR, .of_append _ hop (hp.outcome ha' hR)⟩

variable {k' : Sketch} {pred : Option BlockId} {faithful : Bool}

theorem After.ends {site : BranchSite} {rest : Itinerary}
    (h : After plan site stop enclosed rest k k') :
    site.join = stop ∧ rest = .done ∨ ∃ j, site.join = some j ∧ some j ≠ stop :=
  h.imp (fun h => ⟨h.1, h.2.1⟩) fun ⟨j, hj, hjs, _⟩ => ⟨j, hj, hjs⟩

theorem Drawn.unfolds (h : Drawn r plan quiet block stop enclosed faithful it pred k k') :
    r.Unfolds block stop it := by
  induction h with
  | join _ => exact .join
  | ret hlt hs _ _ => exact .ret hlt hs
  | jump hne ht _ _ ih => exact .jump hne ht ih
  | fork hbr _ _ _ _ _ ha _ ihT ihF ihR | flat hbr _ _ _ _ ha _ ihT ihF ihR =>
    exact .fork hbr ihT ihF ha.ends ihR

theorem Drawn.eq_join (h : Drawn r plan quiet block stop enclosed faithful it pred k k')
    (hs : some block = stop) : it = .join block := by
  cases h with
  | join _ => rfl
  | ret _ _ _ _ => exact absurd hs (by simp)
  | jump hne _ _ _ => exact absurd hs hne
  | fork hbr _ _ _ _ _ _ _ | flat hbr _ _ _ _ _ _ => exact absurd hs hbr.ne_stop

end Sketch

end Stagewise
