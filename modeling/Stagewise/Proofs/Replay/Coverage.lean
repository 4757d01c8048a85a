import Stagewise.Proofs.Emission.Visits

namespace Stagewise

/-- What a visitor does that walks each arm of a branch once. -/
structure ArmVisitor (γ δ σ : Type) where
  onEvent : γ → Event → Act σ Unit
  /-- Before the arms of a branch. The result says whether the second arm comes first, in which
  context to walk the arm that comes first, and what to keep in mind. -/
  before : γ → BranchSite → Act σ (Bool × γ × δ)
  between : δ → Act σ (γ × δ)
  after : δ → Act σ Unit

namespace ArmVisitor

variable {α β γ δ σ : Type}

def visitor (v : ArmVisitor γ δ σ) : Visitor γ σ where
  onInst ctx pred i := v.onEvent ctx (.inst pred i)
  onBranch ctx site walkArm := do
    let (turned, first, kept) ← v.before ctx site
    walkArm first (if turned then site.ifFalse else site.ifTrue)
    let (second, kept) ← v.between kept
    walkArm second (if turned then site.ifTrue else site.ifFalse)
    v.after kept
  onJoin ctx pred block := v.onEvent ctx (.join pred block)
  onReturn ctx block := v.onEvent ctx (.ret block)
  onLoop ctx block := v.onEvent ctx (.loop block)

/-- Where `P` holds, the visitor does not fail, and `P` holds afterwards. -/
structure Succeeds (v : ArmVisitor γ δ σ) (P : σ → Prop) : Prop where
  onEvent : ∀ ctx e s, P s → Act.Sat Act.Never (v.onEvent ctx e) s fun _ s' => P s'
  before : ∀ ctx site s, P s → Act.Sat Act.Never (v.before ctx site) s fun _ s' => P s'
  between : ∀ kept s, P s → Act.Sat Act.Never (v.between kept) s fun _ s' => P s'
  after : ∀ kept s, P s → Act.Sat Act.Never (v.after kept) s fun _ s' => P s'

def noting (events : List Event) (x : Act σ α) : Act (σ × List Event) α :=
  ExceptT.mk fun s => ((x.run s.1).1, (x.run s.1).2, s.2 ++ events)

def logged (v : ArmVisitor γ δ σ) : ArmVisitor γ δ (σ × List Event) where
  onEvent ctx e := noting [e] (v.onEvent ctx e)
  before ctx site := noting [.branch site] (v.before ctx site)
  between kept := noting [] (v.between kept)
  after kept := noting [] (v.after kept)

/-- One computation does the same as another one and notes some events, in some order. -/
def Notes (P : σ → Prop) (x : Act (σ × List Event) α) (y : Act σ α) (events : List Event) : Prop :=
  ∀ s log, P s → ∃ a s' noted, y.run s = (.ok a, s') ∧ x.run (s, log) = (.ok a, s', log ++ noted) ∧
    noted.Perm events ∧ P s'

variable {P : σ → Prop}

variable {events : List Event} {v : ArmVisitor γ δ σ} {x : Act (σ × List Event) α}
  {events' : List Event} {y : Act σ α}

theorem notes_noting {x : Act σ α}
    (h : ∀ s, P s → Act.Sat Act.Never x s fun _ s' => P s') :
    Notes P (noting events x) x events := by
  intro s log hs
  obtain ⟨a, s', hr, hs'⟩ := Act.sat_never_iff.mp (h s hs)
  refine ⟨a, s', events, hr, ?_, .refl _, hs'⟩
  show ((x.run s).1, (x.run s).2, log ++ events) = _
  rw [hr]

theorem notes_pure (a : α) : Notes P (pure a) (pure a) [] :=
  fun s log hs => ⟨a, s, [], rfl, by rw [List.append_nil]; rfl, .refl _, hs⟩

theorem Notes.bind {x' : α → Act (σ × List Event) β} {y' : α → Act σ β} (h : Notes P x y events)
    (h' : ∀ a, Notes P (x' a) (y' a) events') :
    Notes P (x >>= x') (y >>= y') (events ++ events') := by
  intro s log hs
  obtain ⟨a, s1, noted, hy, hx, hp, hs1⟩ := h s log hs
  obtain ⟨b, s2, noted', hy', hx', hp', hs2⟩ := h' a s1 (log ++ noted) hs1
  refine ⟨b, s2, noted ++ noted', ?_, ?_, hp.append hp', hs2⟩
  · rw [Act.run_bind, hy]
    exact hy'
  · rw [Act.run_bind, hx, ← List.append_assoc]
    exact hx'

theorem Notes.perm (h : Notes P x y events) (hp : events.Perm events') : Notes P x y events' := by
  intro s log hs
  obtain ⟨a, s', noted, hy, hx, hn, hs'⟩ := h s log hs
  exact ⟨a, s', noted, hy, hx, hn.trans hp, hs'⟩

theorem Succeeds.notes_insts (hv : v.Succeeds P) (ctx : γ)
    (pred : Option BlockId) (insts : List InstId) :
    Notes P (insts.forM (v.logged.visitor.onInst ctx pred)) (insts.forM (v.visitor.onInst ctx pred))
      (insts.map (.inst pred)) := by
  induction insts with
  | nil => exact notes_pure _
  | cons i rest ih => exact (notes_noting (hv.onEvent ctx _)).bind fun _ => ih

theorem Succeeds.notes_branch (hv : v.Succeeds P) (ctx : γ)
    (site : BranchSite) {walk : γ → BlockId → Act (σ × List Event) Unit}
    {walk' : γ → BlockId → Act σ Unit} {events : BlockId → List Event}
    (h : ∀ a ∈ [site.ifTrue, site.ifFalse], ∀ ctx, Notes P (walk ctx a) (walk' ctx a) (events a)) :
    Notes P (v.logged.visitor.onBranch ctx site walk) (v.visitor.onBranch ctx site walk')
      ([.branch site] ++ (events site.ifTrue ++ events site.ifFalse)) := by
  have har : ∀ a ∈ [site.ifTrue, site.ifFalse], ∀ b ∈ [site.ifTrue, site.ifFalse],
      ∀ first kept, Notes P
        (do walk first a; let p ← v.logged.between kept; walk p.1 b; v.logged.after p.2)
        (do walk' first a; let p ← v.between kept; walk' p.1 b; v.after p.2)
        (events a ++ events b) := by
    intro a ha b hb first kept
    have hr : ∀ p : γ × δ, Notes P (do walk p.1 b; v.logged.after p.2)
        (do walk' p.1 b; v.after p.2) (events b ++ []) :=
      fun p => (h b hb p.1).bind fun _ => notes_noting (hv.after p.2)
    rw [List.append_nil] at hr
    exact (h a ha first).bind fun _ => (notes_noting (hv.between kept)).bind hr
  refine (notes_noting (hv.before ctx site)).bind fun (turned, first, kept) => ?_
  cases turned with
  | false => exact har _ (by simp) _ (by simp) first kept
  | true => exact (har _ (by simp) _ (by simp) first kept).perm List.perm_append_comm

theorem Succeeds.notes_walk (hv : v.Succeeds P) {f : Function}
    {it : Itinerary} (h : it.Found) (ctx : γ) (pred : Option BlockId) :
    Notes P (it.walk f v.logged.visitor ctx pred) (it.walk f v.visitor ctx pred)
      (it.events f pred) := by
  induction it generalizing ctx pred with
  | lost => exact h.elim
  | done => exact notes_pure _
  | join block | loop block => exact notes_noting (hv.onEvent ctx _)
  | ret block => exact (hv.notes_insts ctx pred _).bind fun _ => notes_noting (hv.onEvent ctx _)
  | jump block next ih => exact (hv.notes_insts ctx pred _).bind fun _ => ih h ctx (some block)
  | fork site arm rest ihArm ihRest =>
    obtain ⟨hT, hF, hR⟩ := h
    have hA : ∀ a ∈ [site.ifTrue, site.ifFalse], ∀ ctx,
        Notes P ((arm a).walk f v.logged.visitor ctx (some site.block))
          ((arm a).walk f v.visitor ctx (some site.block))
          ((arm a).events f (some site.block)) := by
      intro a ha ctx
      rcases List.mem_pair.mp ha with rfl | rfl
      · exact ihArm _ hT ctx _
      · exact ihArm _ hF ctx _
    exact (hv.notes_insts ctx pred _).bind fun _ =>
      (hv.notes_branch ctx site hA).bind fun _ => ihRest hR ctx none

end ArmVisitor

namespace Itinerary

variable {f : Function}

/-- The blocks that a walk of each arm once enters, with the blocks that it comes from. -/
def arrivals : Itinerary → Option BlockId → List (Option BlockId × BlockId)
  | .ret block, pred => [(pred, block)]
  | .jump block next, pred => (pred, block) :: next.arrivals (some block)
  | .fork site arm rest, pred => (pred, site.block) ::
      ((arm site.ifTrue).arrivals (some site.block) ++
        (arm site.ifFalse).arrivals (some site.block) ++ rest.arrivals none)
  | _, _ => []

theorem map_arrivals (it : Itinerary) (pred : Option BlockId) :
    (it.arrivals pred).map Prod.snd = it.entered := by
  induction it generalizing pred with
  | jump block next ih => simp [arrivals, entered, ih]
  | fork site arm rest ihArm ihRest => simp [arrivals, entered, ihArm, ihRest]
  | _ => rfl

theorem filterMap_events (it : Itinerary) (pred : Option BlockId) :
    (it.events f pred).filterMap Event.arrival? =
      (it.arrivals pred).flatMap fun a => (f.instsOf a.2).map (Prod.mk a.1) := by
  have hi : ∀ pred (insts : List InstId),
      (insts.map (Event.inst pred)).filterMap Event.arrival? = insts.map (Prod.mk pred) := by
    intro pred insts
    rw [List.filterMap_map]
    exact List.filterMap_eq_map (f := Prod.mk pred) ▸ rfl
  induction it generalizing pred with
  | lost | done | join | loop => rfl
  | ret block => simp [events, arrivals, hi, Event.arrival?]
  | jump block next ih => simp [events, arrivals, hi, ih]
  | fork site arm rest ihArm ihRest =>
    simp [events, arrivals, hi, ihArm, ihRest, List.filterMap_cons, Event.arrival?]

end Itinerary

namespace Route

variable {r : Route} {active : List BlockId} {block b p : BlockId} {stop pred : Option BlockId}
  {it : Itinerary}

/-- A walk comes to a block along an edge of the function. -/
theorem Follows.mem_successors (h : r.Follows active block stop it)
    (hpr : ∀ p, pred = some p → block ∈ r.func.successors p)
    (hb : (some p, b) ∈ it.arrivals pred ∨ .join (some p) b ∈ it.events r.func pred) :
    b ∈ r.func.successors p := by
  induction h generalizing pred with
  | loop => simp [Itinerary.arrivals, Itinerary.events] at hb
  | join | ret =>
    obtain ⟨hp, rfl⟩ : some p = pred ∧ b = _ := by
      simpa [Itinerary.arrivals, Itinerary.events] using hb
    exact hpr p hp.symm
  | @jump active block stop target next _ _ ht _ ih =>
    have he : target ∈ r.func.successors block := by simp [successors_jump ht]
    rw [Itinerary.arrivals, Itinerary.events, List.mem_cons, Prod.mk.injEq, List.mem_append] at hb
    rcases hb with (⟨hp, rfl⟩ | hb) | hb
    · exact hpr p hp.symm
    · exact ih (by rintro _ ⟨⟩; exact he) (.inl hb)
    · exact ih (by rintro _ ⟨⟩; exact he) (.inr (hb.resolve_left (by simp)))
  | @fork active stop site arm rest hbr _ _ _ hen _ ihT ihF ihRest =>
    have hpa : (some p = pred ∧ b = site.block) ∨
        ((some p, b) ∈ (arm site.ifTrue).arrivals (some site.block) ∨
          .join (some p) b ∈ (arm site.ifTrue).events r.func (some site.block)) ∨
        ((some p, b) ∈ (arm site.ifFalse).arrivals (some site.block) ∨
          .join (some p) b ∈ (arm site.ifFalse).events r.func (some site.block)) ∨
        ((some p, b) ∈ rest.arrivals none ∨ .join (some p) b ∈ rest.events r.func none) := by
      have hi : .join (some p) b ∉ (r.func.instsOf site.block).map (Event.inst pred) := by simp
      have hbra : .join (some p) b ∉ [Event.branch site] := by simp
      simp only [Itinerary.arrivals, Itinerary.events, List.mem_cons, List.mem_append,
        Prod.mk.injEq, hi, hbra, false_or] at hb
      tauto
    rcases hpa with ⟨hp, rfl⟩ | hb | hb | hb
    · exact hpr p hp.symm
    · exact ihT (by rintro _ ⟨⟩; exact hbr.mem_successors.mpr (.inl rfl)) hb
    · exact ihF (by rintro _ ⟨⟩; exact hbr.mem_successors.mpr (.inr rfl)) hb
    · rcases hen with ⟨-, rfl⟩ | ⟨j, hj, hjs⟩
      · simp [Itinerary.arrivals, Itinerary.events] at hb
      · exact ihRest j hj hjs (by simp) hb

/-- A walk through a function, by a visitor that does not fail and walks each arm once, comes to its
end. The instructions that it hands to the visitor are those of some blocks, and these are the ones
that control can reach. Whenever it names a block that control comes from, there is an edge. -/
theorem walk_arrives_iff_reaches {γ δ σ : Type} {f : Function} (hr : f.TargetsInRange)
    (hentry : f.entry < f.numBlocks) {v : ArmVisitor γ δ σ} {P : σ → Prop} (hv : v.Succeeds P) :
    ∃ t, PostDominators.ofFunction f = .ok t ∧ ∀ ctx s, P s →
      ∃ (s' : σ) (log : List Event) (arrivals : List (Option BlockId × BlockId)),
      (walk ⟨f, t⟩ v.visitor ctx none f.entry none).run s = (.ok (), s') ∧
      (walk ⟨f, t⟩ v.logged.visitor ctx none f.entry none).run (s, []) = (.ok (), s', log) ∧
      (log.filterMap Event.arrival?).Perm
        (arrivals.flatMap fun a => (f.instsOf a.2).map (Prod.mk a.1)) ∧
      (∀ b, (∃ pred, (pred, b) ∈ arrivals) ↔ f.Reaches f.entry b) ∧
      (∀ p b, (some p, b) ∈ arrivals → b ∈ f.successors p) ∧
      ∀ p b, .join (some p) b ∈ log → b ∈ f.successors p := by
  obtain ⟨t, hok, ht⟩ := PostDominators.ofFunction_exact hr
  refine ⟨t, hok, fun ctx s hs => ?_⟩
  let r : Route := ⟨f, t⟩
  have hfound : r.itinerary.Found := found_itinerary hr ht hentry
  have hfollows : r.Follows [] f.entry none r.itinerary := follows_of_found hfound
  obtain ⟨_, s', log, hrun, hlogged, hperm, -⟩ :=
    hv.notes_walk hfound ctx none s [] hs
  have hedges : ∀ p b, (some p, b) ∈ r.itinerary.arrivals none ∨
      .join (some p) b ∈ r.itinerary.events f none → b ∈ f.successors p :=
    fun p b => hfollows.mem_successors (by simp)
  refine ⟨s', log, r.itinerary.arrivals none, ?_, ?_, ?_, fun b => ?_, ?_, ?_⟩
  · rw [← hrun]
    exact congrArg (fun x => x.run s) (r.walk_eq_walk v.visitor ctx)
  · rw [← List.nil_append log, ← hlogged]
    exact congrArg (fun x => x.run (s, [])) (r.walk_eq_walk v.logged.visitor ctx)
  · rw [← Itinerary.filterMap_events]
    exact hperm.filterMap _
  · rw [← mem_entered_itinerary (r := r) hok hfound, ← r.itinerary.map_arrivals none]
    simp
  · exact fun p b hb => hedges p b (.inl hb)
  · exact fun p b hb => hedges p b (.inr (hperm.mem_iff.mp hb))

end Route

/-- Counts what happens on a walk, and walks the second arm of each branch first. -/
def ArmVisitor.counter : ArmVisitor Unit Unit Nat where
  onEvent _ _ := modify (· + 1)
  before _ _ := pure (true, (), ())
  between _ := pure ((), ())
  after _ := pure ()

theorem walk_arrives_shortCircuit :
    shortCircuit.TargetsInRange ∧ ArmVisitor.counter.Succeeds (fun _ => True) ∧
    ∃ t, PostDominators.ofFunction shortCircuit = .ok t ∧
      ∃ (count : Nat) (log : List Event) (arrivals : List (Option BlockId × BlockId)),
        (Route.walk ⟨shortCircuit, t⟩ ArmVisitor.counter.visitor () none 0 none).run 0
          = (.ok (), count) ∧
        (Route.walk ⟨shortCircuit, t⟩ ArmVisitor.counter.logged.visitor () none 0 none).run (0, [])
          = (.ok (), count, log) ∧
        (log.filterMap Event.arrival?).Perm
          (arrivals.flatMap fun a => (shortCircuit.instsOf a.2).map (Prod.mk a.1)) ∧
        (∀ b, (∃ pred, (pred, b) ∈ arrivals) ↔ shortCircuit.Reaches 0 b) ∧
        (∀ p b, (some p, b) ∈ arrivals → b ∈ shortCircuit.successors p) ∧
        ∀ p b, .join (some p) b ∈ log → b ∈ shortCircuit.successors p := by
  have hall : ∀ b < 5, ∀ c ∈ shortCircuit.successors b, c < 5 := by decide
  have hr : shortCircuit.TargetsInRange := fun b c hc => hall b (Function.mem_successors_lt hc) c hc
  have hv : ArmVisitor.counter.Succeeds (fun _ => True) :=
    ⟨fun _ _ _ _ => trivial, fun _ _ _ _ => trivial, fun _ _ _ => trivial, fun _ _ _ => trivial⟩
  obtain ⟨t, hok, hwalk⟩ := Route.walk_arrives_iff_reaches hr (by decide) hv
  exact ⟨hr, hv, t, hok, hwalk () 0 trivial⟩

end Stagewise
