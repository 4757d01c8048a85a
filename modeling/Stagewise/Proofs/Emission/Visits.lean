import Stagewise.Proofs.Emission.Moves
import Stagewise.Replay.Trace

namespace Stagewise

def Move.isWork : Move → Bool
  | .visit _ _ | .exit _ => true
  | _ => false

namespace Event

def arrival? : Event → Option Arrival
  | .inst pred i => some (pred, i)
  | _ => none

/-- The moves for a scope that an event calls for, whichever branches the scope wants. -/
def moves (src : Source) (x : Scope) : Event → List Move
  | .inst pred i => if src.table.instScope i = some x then [.visit pred i] else []
  | .join (some q) _ => [.exit q]
  | _ => []

/-- What is looked at in the moves may be looked at in the events that call for them. -/
theorem filterMap_moves {β : Type} {src : Source} {x : Scope} {g : Move → Option β}
    {h : Event → Option β} (he : ∀ e, (moves src x e).filterMap g = (h e).toList)
    (events : List Event) :
    (events.flatMap (moves src x)).filterMap g = events.filterMap h := by
  rw [List.filterMap_flatMap, List.filterMap_eq_flatMap_toList]
  simp only [he]

theorem arrival_moves (src : Source) (x : Scope) (e : Event) :
    (moves src x e).filterMap Move.arrival?
      = (e.arrival?.filter fun a => decide (src.table.instScope a.2 = some x)).toList := by
  cases e with
  | inst pred i =>
    by_cases hi : src.table.instScope i = some x <;>
      simp [moves, arrival?, Move.arrival?, Option.filter, hi]
  | join pred b => cases pred <;> rfl
  | branch _ | ret _ | loop _ => rfl

def Records (x : Act (List Event) Unit) (events : List Event) : Prop :=
  ∀ log, x.run log = (.ok (), log ++ events)

theorem records_pure : Records (pure ()) [] := fun log => by
  rw [List.append_nil]
  rfl

theorem records_record (e : Event) : Records (record none e) [e] := fun _ => rfl

theorem Records.bind {x y : Act (List Event) Unit} {events events' : List Event}
    (hx : Records x events) (hy : Records y events') : Records (do x; y) (events ++ events') := by
  intro log
  rw [Act.run_bind, hx log, ← List.append_assoc]
  exact hy (log ++ events)

theorem records_forM (pred : Option BlockId) (insts : List InstId) :
    Records (insts.forM fun i => record none (.inst pred i)) (insts.map (Event.inst pred)) := by
  induction insts with
  | nil => exact records_pure
  | cons i rest ih => exact (records_record _).bind ih

end Event

namespace Itinerary

def events (f : Function) : Itinerary → Option BlockId → List Event
  | .lost, _ | .done, _ => []
  | .join block, pred => [.join pred block]
  | .loop block, _ => [.loop block]
  | .ret block, pred => (f.instsOf block).map (.inst pred) ++ [.ret block]
  | .jump block next, pred => (f.instsOf block).map (.inst pred) ++ next.events f (some block)
  | .fork site arm rest, pred =>
    (f.instsOf site.block).map (.inst pred) ++ ([.branch site] ++
      ((arm site.ifTrue).events f (some site.block) ++
        (arm site.ifFalse).events f (some site.block)) ++ rest.events f none)

variable {f : Function}

theorem records_walk {it : Itinerary} (h : it.Found) (pred : Option BlockId) :
    Event.Records (it.walk f (Event.recorder 1 none) () pred) (it.events f pred) := by
  induction it generalizing pred with
  | lost => exact h.elim
  | done => exact Event.records_pure
  | join block | loop block => exact Event.records_record _
  | ret block => exact (Event.records_forM pred _).bind (Event.records_record _)
  | jump block next ih => exact (Event.records_forM pred _).bind (ih h (some block))
  | fork site arm rest ihArm ihRest =>
    obtain ⟨hT, hF, hR⟩ := h
    have hA := (ihArm site.ifTrue hT (some site.block)).bind
      (ihArm site.ifFalse hF (some site.block))
    have hO := hA.bind Event.records_pure
    rw [List.append_nil] at hO
    exact (Event.records_forM pred _).bind
      (((Event.records_record (.branch site)).bind hO).bind (ihRest hR none))

theorem filter_moves (src : Source) (x : Scope) (it : Itinerary) (faithful : Bool)
    (pred : Option BlockId) : (it.moves src x faithful pred).filter Move.isWork
      = (it.events src.func pred).flatMap (Event.moves src x) := by
  have hv : ∀ block pred, (moves.visits src x block pred).filter Move.isWork
      = ((src.func.instsOf block).map (Event.inst pred)).flatMap (Event.moves src x) := by
    intro block pred
    unfold moves.visits
    induction src.func.instsOf block with
    | nil => rfl
    | cons i rest ih =>
      by_cases hi : src.table.instScope i = some x <;>
        simp [List.filter_cons, hi, ih, Event.moves, Move.isWork]
  induction it generalizing faithful pred with
  | lost | done | loop _ => rfl
  | join block => cases pred <;> rfl
  | ret block =>
    rw [moves, events, List.filter_append, List.flatMap_append, hv]
    cases faithful <;> rfl
  | jump block next ih => rw [moves, events, List.filter_append, List.flatMap_append, hv, ih]
  | fork site arm rest ihArm ihRest =>
    rw [moves, events]
    simp only [List.filter_append, List.flatMap_append, hv, ihRest]
    split
    · simp [Move.around, Move.isWork, ihArm, Event.moves]
    · simp [ihArm, Event.moves]

end Itinerary

namespace Source

open Emission

variable {src : Source}

theorem filterMap_filter_isWork (moves : List Move) :
    (moves.filter Move.isWork).filterMap Move.arrival? = moves.filterMap Move.arrival? := by
  induction moves with
  | nil => rfl
  | cons m rest ih =>
    cases m <;> simp [List.filter_cons, List.filterMap_cons, Move.isWork, Move.arrival?, ih]

theorem log_start (types : TypePool) (scopes : List String) (x : Scope) :
    (Emission.start src types scopes).log x = ⟨[], [], []⟩ := by
  unfold Emission.log
  cases hd : (Emission.start src types scopes).drafts[x.val]? with
  | none => rfl
  | some d =>
    obtain ⟨name, rfl⟩ := getElem?_start hd
    rfl

theorem size_start (types : TypePool) (scopes : List String) :
    (Emission.start src types scopes).drafts.size = scopes.length := by
  simp [Emission.start]

/-- When a function is copied, a plain walk that walks each arm once comes to its end too. The part
of a scope has got the instructions of that scope that the walk comes to, with the same blocks before
them, in the same order and as often; an instruction without a scope is in no part. -/
theorem visits_copyAll {tree : PostDominators} {types : TypePool} {scopes : List String}
    {u : Emission} (hlimit : scopes.length ≤ Scope.limit)
    (hrun : (src.copyAll tree).run (Emission.start src types scopes) = (.ok (), u)) :
    ∃ events, Route.trace ⟨src.func, tree⟩ 1 none none src.func.entry none = (.ok (), events) ∧
      (∀ scope : Scope, scope.val < scopes.length → ∃ d, u.drafts[scope.val]? = some d ∧
        d.visits.reverse = (events.filterMap Event.arrival?).filter fun a =>
          decide (src.table.instScope a.2 = some scope)) ∧
      ∀ i, src.table.instScope i = none → ∀ d ∈ u.drafts, ∀ pred, (pred, i) ∉ d.visits := by
  obtain ⟨hfound, deeds, hmoves, hlog⟩ := (sat_copyAll_run tree _).of_run hrun
  have hsize : u.drafts.size = scopes.length := hmoves.size.trans (size_start types scopes)
  have hvisits : ∀ (scope : Scope) (d : Draft), u.drafts[scope.val]? = some d →
      d.visits.reverse = (((Route.itinerary ⟨src.func, tree⟩).events src.func none).filterMap
        Event.arrival?).filter fun a => decide (src.table.instScope a.2 = some scope) := by
    intro scope d hd
    have hlt : scope.val < scopes.length := hsize ▸ (Array.getElem?_eq_some_iff.mp hd).1
    have hown := hmoves.log scope
    rw [hlog, size_start, moves, if_pos ((ScopeSet.contains_first hlimit).mpr hlt), log_start,
      Emission.log, hd, Option.elim_some] at hown
    have hvisits := Log.visits_foldl ⟨[], [], []⟩
      ((Route.itinerary ⟨src.func, tree⟩).moves src scope true none)
    rw [← hown, ← filterMap_filter_isWork, Itinerary.filter_moves,
      Event.filterMap_moves (Event.arrival_moves src scope), ← List.filter_filterMap] at hvisits
    exact hvisits
  refine ⟨(Route.itinerary ⟨src.func, tree⟩).events src.func none, ?_, fun scope hlt => ?_, ?_⟩
  · show (Route.walk _ _ _ _ (Route.mk src.func tree).func.entry _).run [] = _
    rw [Route.walk_eq_walk]
    exact Itinerary.records_walk hfound none []
  · have hd := Array.getElem?_eq_getElem (hsize ▸ hlt : scope.val < u.drafts.size)
    exact ⟨_, hd, hvisits scope _ hd⟩
  · intro i hscope d hd pred hmem
    obtain ⟨k, hk, rfl⟩ := Array.mem_iff_getElem.mp hd
    have hk256 : k < 256 := by
      rw [Scope.limit] at hlimit
      omega
    have hlist := hvisits ⟨k, hk256⟩ _ (Array.getElem?_eq_getElem hk)
    have hown := hlist ▸ List.mem_reverse.mpr hmem
    have hsome := of_decide_eq_true (List.mem_filter.mp hown).2
    rw [hscope] at hsome
    cases hsome

end Source

/-- Two conditions, either of which leads to the same block: it is entered from both branches. -/
def shortCircuit : Function where
  name := "main"
  entry := 0
  blocks := #[⟨[0], some (.branch (.inst 0) 2 1)⟩, ⟨[1], some (.branch (.inst 1) 2 3)⟩,
    ⟨[2], some (.jump 4)⟩, ⟨[], some (.jump 4)⟩, ⟨[3, 4], some .ret⟩]
  insts := #[⟨.load (.member 0 []), .bool, 0⟩, ⟨.load (.member 1 []), .bool, 1⟩,
    ⟨.load (.member 2 []), .bool, 2⟩,
    ⟨.phi [(2, .inst 2), (3, .const ⟨.bool, .bool true⟩)], .bool, 4⟩,
    ⟨.store (.inst 3) (.member 3 []), .void, 4⟩]
  layout := [0, 1, 2, 3, 4]

def shortCircuitSource : Source where
  program := ⟨"either", [.plain "a" .bool, .plain "b" .bool, .plain "c" .bool, .plain "out" .bool],
    [], [shortCircuit]⟩
  func := shortCircuit
  table := { Classification.unknown (.empty "either") shortCircuit with
    insts := #[⟨some 0, .ofNat 1⟩, ⟨some 0, .ofNat 1⟩, ⟨some 1, .ofNat 1⟩, ⟨some 1, .ofNat 1⟩,
      ⟨some 1, .ofNat 1⟩]
    globals := Array.replicate 4 .unknown }

def shortCircuitTree : PostDominators :=
  ⟨#[some 4, some 4, some 4, some 4, some 5, some 5], #[5, 4, 2, 3, 1, 0]⟩

theorem visits_shortCircuit :
    ∃ u, (shortCircuitSource.copyAll shortCircuitTree).run
        (Emission.start shortCircuitSource .empty ["early", "late"]) = (.ok (), u) ∧
      ∃ events, Route.trace ⟨shortCircuit, shortCircuitTree⟩ 1 none none 0 none
          = (.ok (), events) ∧
        (∀ scope : Scope, scope.val < 2 → ∃ d, u.drafts[scope.val]? = some d ∧
          d.visits.reverse = (events.filterMap Event.arrival?).filter fun a =>
            decide (shortCircuitSource.table.instScope a.2 = some scope)) ∧
        ∀ i, shortCircuitSource.table.instScope i = none →
          ∀ d ∈ u.drafts, ∀ pred, (pred, i) ∉ d.visits := by
  have hok : ((shortCircuitSource.copyAll shortCircuitTree).run
      (Emission.start shortCircuitSource .empty ["early", "late"])).1.isOk = true := by decide +kernel
  obtain ⟨_, hrun⟩ := Act.exists_run_of_isOk hok
  exact ⟨_, hrun, Source.visits_copyAll (by decide) hrun⟩

end Stagewise
