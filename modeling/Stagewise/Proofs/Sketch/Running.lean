import Stagewise.Proofs.Sketch.Drawing

namespace Stagewise

/-- The runs of a function in which each branch goes by the truth value of its block. -/
inductive Function.Runs (f : Function) (truth : BlockId → Bool) : BlockId → List BlockId → Prop
  | ret {b} : f.terminator? b = some .ret → Runs f truth b [b]
  | jump {b target path} : f.terminator? b = some (.jump target) → Runs f truth target path →
      Runs f truth b (b :: path)
  | branch {b cond ifTrue ifFalse path} : f.terminator? b = some (.branch cond ifTrue ifFalse) →
      Runs f truth (if truth b then ifTrue else ifFalse) path → Runs f truth b (b :: path)

theorem Function.Runs.ofArms {f : Function} {truth : BlockId → Bool} {b ifTrue ifFalse : BlockId}
    {cond : Value} (path : BlockId → List BlockId)
    (ht : f.terminator? b = some (.branch cond ifTrue ifFalse))
    (htr : f.Runs truth ifTrue (path ifTrue)) (hf : f.Runs truth ifFalse (path ifFalse)) :
    f.Runs truth b (b :: path (if truth b then ifTrue else ifFalse)) := by
  refine .branch ht ?_
  by_cases h : truth b = true
  · rwa [if_pos h]
  · rwa [if_neg h]

namespace Itinerary

def chosen (truth : BlockId → Bool) : Itinerary → List BlockId
  | .ret block => [block]
  | .jump block next => block :: next.chosen truth
  | .fork site arm rest =>
    site.block :: ((arm (if truth site.block then site.ifTrue else site.ifFalse)).chosen truth
      ++ rest.chosen truth)
  | _ => []

theorem mem_entered_of_mem_chosen {truth : BlockId → Bool} {it : Itinerary} {b : BlockId}
    (h : b ∈ it.chosen truth) : b ∈ it.entered := by
  induction it with
  | lost | done | join _ | loop _ => simp [chosen] at h
  | ret block => exact h
  | jump block next ih =>
    rcases List.mem_cons.mp h with rfl | h
    · simp [entered]
    · simp [entered, ih h]
  | fork site arm rest ihArm ihRest =>
    simp only [chosen, List.mem_cons, List.mem_append] at h
    simp only [entered, List.mem_cons, List.mem_append]
    rcases h with rfl | h | h
    · exact .inl rfl
    · have := ihArm _ h
      split at this
      · exact .inr (.inl (.inl this))
      · exact .inr (.inl (.inr this))
    · exact .inr (.inr (ihRest h))

end Itinerary

namespace Route

variable {r : Route} {block : BlockId} {stop : Option BlockId} {it : Itinerary}

/-- A run goes through the blocks that the truth values choose from an itinerary. -/
theorem Unfolds.runs (h : r.Unfolds block stop it) (hr : r.LoopFree) (truth : BlockId → Bool) :
    (∀ s path, stop = some s → r.func.Runs truth s path →
      r.func.Runs truth block (it.chosen truth ++ path)) ∧
    (stop = none → r.func.Runs truth block (it.chosen truth)) := by
  induction h with
  | join => exact ⟨fun s path hs hru => Option.some.inj hs ▸ hru, by simp⟩
  | @ret block hlt hsu =>
    refine ⟨by simp, fun _ => .ret ?_⟩
    obtain ⟨term, ht⟩ := Option.isSome_iff_exists.mp (hr.terminated block hlt)
    cases term with
    | ret => exact ht
    | jump _ | branch _ _ _ => simp [Function.successors, ht, Terminator.successors] at hsu
  | jump _ ht _ ih =>
    exact ⟨fun s path hs hru => .jump ht (ih.1 s path hs hru),
      fun hs => .jump ht (ih.2 hs)⟩
  | @fork stop site arm rest hbr _ _ he _ ihtrue ihfalse ihrest =>
    rcases he with ⟨hjs, rfl⟩ | ⟨j, hj, hjs⟩
    · rw [hjs] at ihtrue ihfalse
      simp only [Itinerary.chosen, List.append_nil]
      refine ⟨fun s path hs hru => ?_, fun hs => ?_⟩
      · exact .ofArms (fun a => (arm a).chosen truth ++ path) hbr.terminator
          (ihtrue.1 s path hs hru) (ihfalse.1 s path hs hru)
      · exact .ofArms (fun a => (arm a).chosen truth) hbr.terminator (ihtrue.2 hs) (ihfalse.2 hs)
    · have ha : ∀ path, r.func.Runs truth j path → r.func.Runs truth site.block (site.block ::
          ((arm (if truth site.block then site.ifTrue else site.ifFalse)).chosen truth ++ path)) := by
        intro path hru
        exact .ofArms (fun a => (arm a).chosen truth ++ path) hbr.terminator
          (ihtrue.1 j path hj hru) (ihfalse.1 j path hj hru)
      constructor
      · intro s path hs hru
        have := ha _ ((ihrest j hj hjs).1 s path hs hru)
        rwa [← List.append_assoc] at this
      · exact fun hs => ha _ ((ihrest j hj hjs).2 hs)

end Route

namespace Sketch

/-- The runs of a sketch. A block without an end returns. -/
inductive Runs (K : Sketch) (truth : BlockId → Bool) : BlockId → List BlockId → Prop
  | ret {b} : K.ends b = none ∨ K.ends b = some .ret → Runs K truth b [b]
  | jump {b target path} : K.ends b = some (.jump target) → Runs K truth target path →
      Runs K truth b (b :: path)
  | branch {b source ifTrue ifFalse path} : K.ends b = some (.branch source ifTrue ifFalse) →
      Runs K truth (if truth source then ifTrue else ifFalse) path → Runs K truth b (b :: path)

variable {K k k' : Sketch} {truth : BlockId → Bool} {loud : InstId → Bool} {b c : BlockId} {n : Nat}
  {ws : List InstId}

def writesOf (loud : InstId → Bool) (ms : List Mark) : List InstId :=
  (ms.filterMap Mark.write?).filter loud

@[simp] theorem writesOf_phi (loud : InstId → Bool) (blocks : List BlockId) (ms : List Mark) :
    writesOf loud (.phi blocks :: ms) = writesOf loud ms := rfl

theorem writesOf_write (loud : InstId → Bool) (i : InstId) (ms : List Mark) :
    writesOf loud (.write i :: ms) = if loud i then i :: writesOf loud ms else writesOf loud ms := by
  cases h : loud i <;> simp [writesOf, Mark.write?, h]

@[simp] theorem writesOf_append (loud : InstId → Bool) (ms ms' : List Mark) :
    writesOf loud (ms ++ ms') = writesOf loud ms ++ writesOf loud ms' := by
  simp [writesOf]

def Makes (K : Sketch) (truth : BlockId → Bool) (loud : InstId → Bool) (b : BlockId) (n : Nat)
    (ws : List InstId) : Prop :=
  ∃ rest, K.Runs truth b (b :: rest) ∧
    writesOf loud ((K.marks b).drop n) ++ rest.flatMap (fun b => writesOf loud (K.marks b)) = ws

theorem makes_ret (h : K.ends b = none ∨ K.ends b = some .ret) (hn : n = (K.marks b).length) :
    K.Makes truth loud b n [] := by
  refine ⟨[], .ret h, ?_⟩
  rw [hn, List.drop_length]
  rfl

theorem Makes.jump (he : K.ends b = some (.jump c)) (hn : n = (K.marks b).length)
    (h : K.Makes truth loud c 0 ws) : K.Makes truth loud b n ws := by
  obtain ⟨rest, hr, rfl⟩ := h
  refine ⟨c :: rest, .jump he hr, ?_⟩
  rw [hn, List.drop_length]
  rfl

theorem Makes.branch {source ifTrue ifFalse : BlockId}
    (he : K.ends b = some (.branch source ifTrue ifFalse)) (hn : n = (K.marks b).length)
    (h : K.Makes truth loud (if truth source then ifTrue else ifFalse) 0 ws) :
    K.Makes truth loud b n ws := by
  obtain ⟨rest, hr, rfl⟩ := h
  refine ⟨_ :: rest, .branch he hr, ?_⟩
  rw [hn, List.drop_length]
  rfl

/-- A run from where the cursor of an earlier sketch is makes these writes of concern. -/
def MakesFrom (K : Sketch) (truth : BlockId → Bool) (loud : InstId → Bool) (k : Sketch)
    (ws : List InstId) : Prop :=
  K.Makes truth loud k.current (k.marks k.current).length ws

theorem MakesFrom.of_append {ms : List Mark} (hl : (k.append ms).Later K)
    (h : K.MakesFrom truth loud (k.append ms) ws) :
    K.MakesFrom truth loud k (writesOf loud ms ++ ws) := by
  obtain ⟨rest, hr, rfl⟩ := h
  have hm := hl.marks k.current
  rw [append_marks_current] at hm
  obtain ⟨more, hmo⟩ := hm
  refine ⟨rest, hr, ?_⟩
  rw [append_current, append_marks_current, ← hmo, List.drop_left, List.append_assoc,
    List.drop_left, writesOf_append, List.append_assoc]

/-- The blocks between two sketches that are left without an end get nothing more. -/
def Settled (k k' K : Sketch) : Prop :=
  ∀ b, b = k.current ∨ k.size ≤ b → b < k'.size → k'.ends b = none →
    K.ends b = none ∧ K.marks b = k'.marks b

section Drawings

variable {r : Route} {plan : Plan} {quiet : BlockId → Prop} {block : BlockId}
  {stop pred : Option BlockId} {enclosed faithful : Bool} {it : Itinerary}

theorem later_leaveArm (k : Sketch) (fork : Fork) : k.Later (k.leaveArm fork) := by
  refine ⟨fun b => ?_, fun b e he => ⟨leaveArm_ends_of_some k fork he, ?_⟩⟩
  · rw [leaveArm_marks]
  · rw [leaveArm_marks]

theorem later_closeFork (k : Sketch) (fork : Fork) : k.Later (k.closeFork fork) := by
  unfold closeFork
  split
  · exact ⟨fun _ => List.prefix_rfl, fun _ _ h => ⟨h, rfl⟩⟩
  · exact .refl k

theorem later_append (ho : k.ends k.current = none) (ms : List Mark) :
    k.Later (k.append ms) := by
  refine ⟨fun b => ?_, fun b e he => ⟨he, append_marks_ne k ms fun hb => ?_⟩⟩
  · by_cases hb : b = k.current
    · rw [hb, append_marks_current]
      exact List.prefix_append _ _
    · rw [append_marks_ne k ms hb]
  · rw [hb, ho] at he
    exact absurd he (by simp)

theorem later_finishIfOpen (k : Sketch) (e : Exit) : k.Later (k.finishIfOpen e) := by
  unfold finishIfOpen
  split
  · exact .refl k
  · rename_i ho
    refine ⟨fun _ => List.prefix_rfl, fun b e' he => ⟨?_, rfl⟩⟩
    have hb : b ≠ k.current := by
      rintro rfl
      rw [he] at ho
      exact ho rfl
    exact (Function.update_of_ne hb _ _).trans he

variable {site : BranchSite}

theorem After.later {rest : Itinerary}
    (h : After plan site stop enclosed rest k k') (hwf : k.Wf) : k.Later k' := by
  rcases h with ⟨-, -, rfl⟩ | ⟨j, -, -, -, hr⟩
  · exact .refl _
  · exact hr.frame.later hwf

theorem Drawn.later (h : Drawn r plan quiet block stop enclosed faithful it pred k k') :
    k.Later k' := by
  induction h with
  | @join _ _ _ pred k _ =>
    cases pred with
    | none => exact .refl k
    | some _ => exact ⟨fun _ => List.prefix_rfl, fun _ _ h => ⟨h, rfl⟩⟩
  | @ret block _ faithful pred k _ _ hapt _ =>
    have hap := later_append (hapt.opened (by simp)) (plan.marks k.exits pred block)
    cases faithful with
    | true => exact hap.trans (later_finishIfOpen _ _)
    | false => exact hap
  | jump hne _ hapt _ ih => exact (later_append (hapt.opened hne) _).trans ih
  | fork hbr _ hapt hf _ _ ha _ _ _ _ =>
    exact ((later_append (hapt.opened hbr.ne_stop) _).trans
      (hf.closed.frame.later hf.place.wf)).trans (ha.later hf.closed.wf)
  | flat hbr hapt hfl _ _ ha _ _ _ _ =>
    exact ((later_append (hapt.opened hbr.ne_stop) _).trans
      (hfl.passed.frame.later (hapt.wf.append _))).trans (ha.later hfl.passed.wf)

def loudWrites (plan : Plan) (truth : BlockId → Bool) (loud : InstId → Bool) (it : Itinerary) :
    List InstId :=
  (it.chosen truth).flatMap fun b => (plan.writes b).filter loud

theorem writesOf_marks (plan : Plan) (loud : InstId → Bool) (exits : BlockId → Option BlockId)
    (pred : Option BlockId) (b : BlockId) :
    writesOf loud (plan.marks exits pred b) = (plan.writes b).filter loud := by
  rw [writesOf, plan.marks_writes]

theorem loudWrites_eq_nil (hq : ∀ b ∈ it.entered, (plan.writes b).filter loud = []) :
    loudWrites plan truth loud it = [] := by
  rw [loudWrites, List.flatMap_eq_nil_iff]
  exact fun b hb => hq b (Itinerary.mem_entered_of_mem_chosen hb)

theorem ArmStanding.makes {fork : Fork} {start : BlockId} {arm : Arm}
    (ha : ArmStanding k site fork start arm) (hne : some start ≠ site.join)
    (h : K.MakesFrom truth loud (k.enterArm fork arm) ws) :
    K.Makes truth loud arm.target 0 ws := by
  cases ha with
  | @fresh target _ _ _ _ hm _ =>
    have hn : (k.enterArm fork ⟨target, true⟩).marks target = [] := hm
    rwa [MakesFrom, show (k.enterArm fork ⟨target, true⟩).current = target from rfl, hn] at h
  | atJoin hs _ => exact absurd hs hne

/-- An arm makes its writes of concern before those that are made from the join on. -/
theorem Standing.makes {fork : Fork} {start join : BlockId} {arm : Arm}
    (hs : k.Standing site fork) (ha : ArmStanding k site fork start arm)
    (hou : (k.enterArm fork arm).Outcome plan k' site.join false it)
    (hd : Drawn r plan quiet start site.join false faithful it pred (k.enterArm fork arm) k')
    (hap : ∀ j, site.join = some j → j ∉ it.rejoined plan.wants)
    (hl : (k'.leaveArm fork).Later K)
    (ih : ∀ ws, K.MakesFrom truth loud k' ws →
      K.MakesFrom truth loud (k.enterArm fork arm) (loudWrites plan truth loud it ++ ws))
    (hjo : fork.join = some join) (h : K.Makes truth loud join 0 ws) :
    K.Makes truth loud arm.target 0 (loudWrites plan truth loud it ++ ws) := by
  have hs' := hs.next ha hou hap
  have hfr (hne : some start ≠ site.join) (hm : K.MakesFrom truth loud
      (k.enterArm fork arm) (loudWrites plan truth loud it ++ ws)) := ha.makes hne hm
  cases ha with
  | fresh hne _ _ he _ _ =>
    have hso : site.join ≠ none := by
      intro hn
      rw [hs.join_none hn] at hjo
      exact absurd hjo (by simp)
    refine hfr hne (ih ws ?_)
    by_cases hc : k'.current = join
    · obtain ⟨j, hj⟩ := Option.ne_none_iff_exists'.mp hso
      obtain ⟨b, hf, -, -, -, -, hni⟩ := hs'.join_some j hj
      obtain rfl := Option.mem_unique hjo hf
      rw [leaveArm_marks] at hni
      rw [MakesFrom, hc, hni]
      exact h
    · have ho : k'.ends k'.current = none := hou.opened he (.inl hso)
      obtain ⟨hen, hsa⟩ :=
        hl.ended k'.current _ (leaveArm_ends_join k' fork hjo hc ho)
      rw [leaveArm_marks] at hsa
      exact .jump hen (by rw [hsa]) h
  | @atJoin target hst hf =>
    obtain rfl := Option.mem_unique hjo hf
    rw [hd.eq_join hst]
    exact h

section Forks

variable {site : BranchSite} {arm : BlockId → Itinerary} {rest : Itinerary} {fork : Fork}
  {k₁ kT kF : Sketch}

theorem loudWrites_fork :
    loudWrites plan truth loud (.fork site arm rest) = (plan.writes site.block).filter loud ++
      (loudWrites plan truth loud (arm (if truth site.block then site.ifTrue else site.ifFalse)) ++
        loudWrites plan truth loud rest) := by
  simp [loudWrites, Itinerary.chosen]

@[simp] theorem loudWrites_done : loudWrites plan truth loud .done = [] := rfl

section

variable (h : Forked plan k site (arm site.ifTrue) (arm site.ifFalse) fork k₁ kT kF)
include h

theorem Forked.later_first : k₁.Later kT := by
  have := h.first.frame.later (h.place.armTrue h.opened).wf
  exact ⟨this.marks, this.ended⟩

theorem Forked.later_second : (kT.leaveArm fork).Later kF := by
  have := h.second.frame.later (h.place.armFalse h.opened h.first).wf
  exact ⟨this.marks, this.ended⟩

theorem Forked.makes_branch (hl : kF.Later K)
    (htr : truth site.block = true → K.Makes truth loud fork.ifTrue.target 0 ws)
    (hf : truth site.block = false → K.Makes truth loud fork.ifFalse.target 0 ws) :
    K.MakesFrom truth loud k ws := by
  have hK := ((h.later_first.trans (later_leaveArm kT fork)).trans h.later_second).trans hl
  have hen : k₁.ends k.current
      = some (.branch site.block fork.ifTrue.target fork.ifFalse.target) := by
    rw [h.opened.ends]
    exact Function.update_self ..
  obtain ⟨he, hm⟩ := hK.ended k.current _ hen
  refine .branch he (by rw [hm, h.opened.marks]) ?_
  by_cases ht : truth site.block = true
  · rw [if_pos ht]
    exact htr ht
  · rw [if_neg ht]
    exact hf (by simpa using ht)

/-- A run through a fork makes the writes of the chosen arm, then those from the join on. -/
theorem Forked.makes_join {j : BlockId}
    (hdT : Drawn r plan quiet site.ifTrue site.join false faithful (arm site.ifTrue) pred
      (k₁.enterArm fork fork.ifTrue) kT)
    (hdF : Drawn r plan quiet site.ifFalse site.join false faithful (arm site.ifFalse) pred
      ((kT.leaveArm fork).enterArm fork fork.ifFalse) kF)
    (hla : ((kF.leaveArm fork).closeFork fork).Later K)
    (ihT : ∀ ws, K.MakesFrom truth loud kT ws → K.MakesFrom truth loud
      (k₁.enterArm fork fork.ifTrue) (loudWrites plan truth loud (arm site.ifTrue) ++ ws))
    (ihF : ∀ ws, K.MakesFrom truth loud kF ws → K.MakesFrom truth loud
      ((kT.leaveArm fork).enterArm fork fork.ifFalse)
      (loudWrites plan truth loud (arm site.ifFalse) ++ ws))
    (hj : site.join = some j)
    (hws : K.MakesFrom truth loud ((kF.leaveArm fork).closeFork fork) ws) :
    K.MakesFrom truth loud k (loudWrites plan truth loud
      (arm (if truth site.block then site.ifTrue else site.ifFalse)) ++ ws) := by
  have hl : (kF.leaveArm fork).Later K := (later_closeFork _ fork).trans hla
  have hF : kF.Later K := (later_leaveArm kF fork).trans hl
  have hT : (kT.leaveArm fork).Later K := h.later_second.trans hF
  obtain ⟨join, hjo, -⟩ := h.opened.join_some j hj
  have hs : K.Makes truth loud join 0 ws := by
    have hn := (h.closed.join_some j hj).2.2.1
    have hc : ((kF.leaveArm fork).closeFork fork).current = join := by
      simp [closeFork, hjo]
    rwa [MakesFrom, hn, hc] at hws
  have hf := h.place.firstArm h.opened h.first
  refine h.makes_branch hF (fun ht => ?_) fun ht => ?_
  · rw [if_pos ht]
    exact (h.place.standing h.opened).makes (h.opened.armStanding h.place.wf h.opened.ifTrue)
      h.first hdT (fun i hi => (h.place.apart i hi).1) hT ihT hjo hs
  · rw [if_neg (by simp [ht])]
    exact hf.standing.makes hf.other h.second hdF (fun i hi => (h.place.apart i hi).2) hl
      ihF hjo hs

end

theorem Flattened.makes
    (h : Flattened plan quiet k site (arm site.ifTrue) (arm site.ifFalse) kT kF)
    (truth : BlockId → Bool) (hq : ∀ b, quiet b → (plan.writes b).filter loud = [])
    (ihT : ∀ ws, K.MakesFrom truth loud kT ws →
      K.MakesFrom truth loud k (loudWrites plan truth loud (arm site.ifTrue) ++ ws))
    (ihF : ∀ ws, K.MakesFrom truth loud kF ws →
      K.MakesFrom truth loud kT (loudWrites plan truth loud (arm site.ifFalse) ++ ws))
    (ws : List InstId) (hws : K.MakesFrom truth loud kF ws) :
    K.MakesFrom truth loud k (loudWrites plan truth loud
      (arm (if truth site.block then site.ifTrue else site.ifFalse)) ++ ws) := by
  have htr : loudWrites plan truth loud (arm site.ifTrue) = [] :=
    loudWrites_eq_nil fun b hb => hq b (h.quiet b (List.mem_append_left _ hb))
  have hf : loudWrites plan truth loud (arm site.ifFalse) = [] :=
    loudWrites_eq_nil fun b hb => hq b (h.quiet b (List.mem_append_right _ hb))
  have := ihT _ (ihF ws hws)
  rw [htr, hf] at this
  by_cases ht : truth site.block = true
  · rwa [if_pos ht, htr]
  · rwa [if_neg ht, hf]

/-- If the arms of a fork return, a run makes the writes of the chosen arm. -/
theorem Forked.makes_return
    (h : Forked plan k site (arm site.ifTrue) (arm site.ifFalse) fork k₁ kT kF)
    (hj : site.join = none) (hl : kF.Later K) (hs : Settled k kF K)
    (ihT : Settled (k₁.enterArm fork fork.ifTrue) kT K → K.MakesFrom truth loud
      (k₁.enterArm fork fork.ifTrue) (loudWrites plan truth loud (arm site.ifTrue)))
    (ihF : Settled ((kT.leaveArm fork).enterArm fork fork.ifFalse) kF K → K.MakesFrom truth loud
      ((kT.leaveArm fork).enterArm fork fork.ifFalse)
      (loudWrites plan truth loud (arm site.ifFalse))) :
    K.MakesFrom truth loud k (loudWrites plan truth loud
      (arm (if truth site.block then site.ifTrue else site.ifFalse))) := by
  have hfi := h.place.firstArm h.opened h.first
  have hfr : ∀ {start : BlockId} {a : Arm}, ArmOpens k k₁ site fork start a →
      a.fresh = true ∧ k.size ≤ a.target ∧ a.target < k₁.size ∧
        ∀ k : Sketch, (k.enterArm fork a).current = a.target := by
    intro start a ha
    cases ha with
    | fresh _ hge hlt _ => exact ⟨rfl, hge, hlt, fun _ => rfl⟩
    | atJoin he _ => exact absurd (he.trans hj) (by simp)
  obtain ⟨hfT, hg, -, hcu⟩ := hfr h.opened.ifTrue
  obtain ⟨hfF, hgeF, hltF, hc⟩ := hfr h.opened.ifFalse
  have hle : kT.leaveArm fork = kT := leaveArm_of_join_eq_none kT fork (h.opened.join_none hj)
  have hne (start : BlockId) : some start ≠ site.join := by simp [hj]
  refine h.makes_branch hl (fun ht => ?_) fun ht => ?_
  · rw [if_pos ht]
    refine (h.opened.armStanding h.place.wf h.opened.ifTrue).makes (hne _) (ihT ?_)
    intro b hb hlt ho
    rw [hcu] at hb
    -- the second arm leaves the blocks of the first alone
    have hbF : b ≠ fork.ifFalse.target := by
      rcases hb with rfl | hb
      · exact h.opened.arms_ne hfT hfF
      · exact Nat.ne_of_gt (Nat.lt_of_lt_of_le hltF hb)
    have hge : k.size ≤ b := by
      rcases hb with rfl | hb
      · exact hg
      · exact h.opened.size_le.trans hb
    have hf := h.second.frame
    rw [hle] at hf
    have hbc : b ≠ (kT.enterArm fork fork.ifFalse).current := (hc kT).symm ▸ hbF
    obtain ⟨hen, hm⟩ := hs b (.inr hge) (Nat.lt_of_lt_of_le hlt hf.size_le)
      ((hf.ends b hlt hbc).trans ho)
    exact ⟨hen, hm.trans (hf.marks b hlt hbc)⟩
  · rw [if_neg (by simp [ht])]
    refine hfi.other.makes (hne _) (ihF ?_)
    intro b hb hlt ho
    rw [hc] at hb
    refine hs b (.inr ?_) hlt ho
    rcases hb with rfl | hb
    · exact hgeF
    · exact h.opened.size_le.trans (hfi.size_le.trans hb)

end Forks

/-- Drawing along an itinerary. Whatever a run makes from where the drawing ends, it makes after the
writes of the chosen blocks from where the drawing starts. A drawing without a last block comes to
returns of its own. -/
theorem Drawn.makes (h : Drawn r plan quiet block stop enclosed faithful it pred k k')
    (hno : it.entered.Nodup) (truth : BlockId → Bool)
    (hq : ∀ b, quiet b → (plan.writes b).filter loud = []) (hl : k'.Later K) :
    (stop ≠ none ∨ enclosed = true → ∀ ws, K.MakesFrom truth loud k' ws →
      K.MakesFrom truth loud k (loudWrites plan truth loud it ++ ws)) ∧
    (stop = none → enclosed = false → faithful = true → Settled k k' K →
      K.MakesFrom truth loud k (loudWrites plan truth loud it)) := by
  induction h with
  | @join block enclosed faithful pred k _ =>
    refine ⟨fun _ ws hws => ?_, by simp⟩
    cases pred with
    | none | some _ => exact hws
  | @ret block enclosed faithful pred k _ _ hap hf =>
    have hws : loudWrites plan truth loud (.ret block)
        = writesOf loud (plan.marks k.exits pred block) := by
      simp [loudWrites, Itinerary.chosen, writesOf_marks]
    have ho := hap.opened (by simp)
    rw [hws]
    refine ⟨fun hc ws hm => ?_, fun _ _ hfa _ => ?_⟩
    · obtain rfl : faithful = false := hf (hc.resolve_left (by simp))
      exact .of_append hl hm
    · subst hfa
      have hfi := finishIfOpen_eq (k := k.append (plan.marks k.exits pred block)) (e := .ret) ho
      rw [if_pos rfl] at hl
      have ha := (later_finishIfOpen _ _).trans hl
      rw [hfi] at hl
      obtain ⟨hen, hsa⟩ := hl.ended k.current .ret (Function.update_self ..)
      have hr : K.MakesFrom truth loud (k.append (plan.marks k.exits pred block)) [] :=
        makes_ret (.inr hen) (by rw [append_current, hsa]; rfl)
      have := MakesFrom.of_append ha hr
      rwa [List.append_nil] at this
  | @jump block stop enclosed faithful target next pred k k' hne _ hap hnex ih =>
    obtain ⟨ihstop, ihret⟩ := ih (List.nodup_cons.mp hno).2 hl
    have ha := hnex.later.trans hl
    have hws : loudWrites plan truth loud (.jump block next)
        = writesOf loud (plan.marks k.exits pred block) ++ loudWrites plan truth loud next := by
      simp [loudWrites, Itinerary.chosen, writesOf_marks]
    rw [hws]
    refine ⟨fun hc ws hm => ?_, fun hs he hf hse => ?_⟩
    · rw [List.append_assoc]
      exact .of_append ha (ihstop hc ws hm)
    · exact .of_append ha (ihret hs he hf hse)
  | @fork stop enclosed faithful site arm rest pred k fork k₁ kT kF k' _ hsh hap hfo hdT hdF
      haf _ ihT ihF ihR =>
    obtain ⟨-, hnd, hndF, hndR, -⟩ := nodup_fork hno
    have hC : ((kF.leaveArm fork).closeFork fork).Later K :=
      (haf.later hfo.closed.wf).trans hl
    have hF : kF.Later K :=
      ((later_leaveArm kF fork).trans (later_closeFork _ fork)).trans hC
    have hT : kT.Later K := (later_leaveArm kT fork).trans (hfo.later_second.trans hF)
    have ha := (hfo.closed.frame.later hfo.place.wf).trans hC
    have hbe := fun j (hj : site.join = some j) ws
        (hws : K.MakesFrom truth loud ((kF.leaveArm fork).closeFork fork) ws) =>
      have hso : site.join ≠ none := by simp [hj]
      MakesFrom.of_append ha (hfo.makes_join hdT hdF hC ((ihT hnd hT).1 (.inl hso))
        ((ihF hndF hF).1 (.inl hso)) hj hws)
    rw [loudWrites_fork, ← writesOf_marks plan loud k.exits pred]
    rcases haf with ⟨hjs, rfl, rfl⟩ | ⟨j, hj, hjs, hst, -⟩
    · rw [loudWrites_done, List.append_nil]
      refine ⟨fun hc ws hm => ?_, fun hs _ hf hse => ?_⟩
      · have hso : site.join ≠ none := hjs ▸ hc.resolve_right (by simp [hsh hjs])
        obtain ⟨j, hj⟩ := Option.ne_none_iff_exists'.mp hso
        rw [List.append_assoc]
        exact hbe j hj ws hm
      · have hn : site.join = none := hjs.trans hs
        have hcl : (kF.leaveArm fork).closeFork fork = kF := by
          rw [closeFork, hfo.opened.join_none hn]
          exact leaveArm_of_join_eq_none kF fork (hfo.opened.join_none hn)
        rw [hcl] at hse
        exact .of_append ha (hfo.makes_return hn hF hse
          ((ihT hnd hT).2 hn rfl hf) ((ihF hndF hF).2 hn rfl hf))
    · obtain ⟨ihstop, ihret⟩ := ihR j hj hjs hndR hl
      refine ⟨fun hc ws hm => ?_, fun hs he hf hse => ?_⟩
      · have := hbe j hj _ (ihstop hc ws hm)
        simpa only [List.append_assoc] using this
      · refine hbe j hj _ (ihret hs he hf ?_)
        have hnew := hfo.closed.current_new (hap.append _) hfo.wants hj hst
        intro b hb
        refine hse b (.inr ?_)
        rcases hb with rfl | hb
        · exact hnew
        · exact hfo.closed.frame.size_le.trans hb
  | @flat stop enclosed faithful site arm rest pred k kT kF k' _ _ hfl hdT hdF haf _ ihT ihF
      ihR =>
    obtain ⟨-, hnd, hndF, hndR, -⟩ := nodup_fork hno
    have hF : kF.Later K := (haf.later hfl.passed.wf).trans hl
    have hT : kT.Later K := hdF.later.trans hF
    have hbe := fun ws hws => MakesFrom.of_append (hdT.later.trans hT)
      (hfl.makes truth hq ((ihT hnd hT).1 (.inr rfl)) ((ihF hndF hF).1 (.inr rfl)) ws hws)
    rw [loudWrites_fork, ← writesOf_marks plan loud k.exits pred]
    rcases haf with ⟨hjs, rfl, rfl⟩ | ⟨j, hj, hjs, -, -⟩
    · rw [loudWrites_done, List.append_nil]
      refine ⟨fun _ ws hm => ?_, fun _ _ _ hse => ?_⟩
      · rw [List.append_assoc]
        exact hbe ws hm
      · have hen := hse k'.current hfl.passed.place hfl.passed.wf.current_lt
          hfl.passed.opened
        have hr : K.MakesFrom truth loud k' [] := makes_ret (.inl hen.1) (by rw [hen.2])
        simpa only [List.append_nil] using hbe [] hr
    · obtain ⟨ihstop, ihret⟩ := ihR j hj hjs hndR hl
      refine ⟨fun hc ws hm => ?_, fun hs he hf hse => ?_⟩
      · have := hbe _ (ihstop hc ws hm)
        simpa only [List.append_assoc] using this
      · refine hbe _ (ihret hs he hf ?_)
        intro b hb
        refine hse b ?_
        rcases hb with rfl | hb
        · exact hfl.passed.place
        · exact .inr (hfl.passed.frame.size_le.trans hb)

theorem makes_draw (h : r.Unfolds block none it) (ho : it.Orderly plan quiet false)
    (hn : it.entered.Nodup) (hq : ∀ b, quiet b → (plan.writes b).filter loud = [])
    (truth : BlockId → Bool) :
    (it.draw plan true none .empty).Makes truth loud 0 0 (loudWrites plan truth loud it) := by
  obtain ⟨hd, -⟩ := drawn_draw h true ho (Itinerary.nodup_rejoined hn _) (by simp)
    apt_empty none
  exact (hd.makes hn truth hq (.refl _)).2 rfl rfl rfl fun _ _ _ hop => ⟨hop, rfl⟩

end Drawings

end Sketch

end Stagewise
