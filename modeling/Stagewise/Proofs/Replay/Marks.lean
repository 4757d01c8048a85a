import Stagewise.Proofs.Act
import Stagewise.Proofs.Flow.ReturnPaths
import Stagewise.Proofs.Replay.Itinerary
import Stagewise.Replay.Walker

namespace Stagewise

variable {α β σ : Type}

theorem Act.Sat.of_error {E : Fault → Prop} {x : Act σ α} {s : σ} {Q : α → σ → Prop} {e : Fault}
    (h : Sat E x s Q) (he : (x.run s).1 = .error e) : E e := by
  unfold Sat at h
  rcases hx : x.run s with ⟨_ | _, _⟩ <;> rw [hx] at h he <;> cases he
  exact h

namespace Rewalker

def visitor (v : Rewalker σ) : Visitor Unit σ where
  onInst _ pred i := v.onEvent (.inst pred i)
  onBranch _ site walkArm := do
    v.onEvent (.branch site)
    Event.times (do
      walkArm () site.ifTrue
      v.afterArm site
      walkArm () site.ifFalse
      v.afterArm site) v.rounds
  onJoin _ pred block := v.onEvent (.join pred block)
  onReturn _ block := v.onEvent (.ret block)
  onLoop _ block := v.onEvent (.loop block)

theorem visitor_recorder (rounds : Nat) (limit : Option (Nat × Fault)) :
    (recorder rounds limit).visitor = Event.recorder rounds limit := by
  simp [visitor, recorder, Event.recorder]

def Raises (v : Rewalker σ) (e : Fault) : Prop :=
  ∃ s, (∃ event, ((v.onEvent event).run s).1 = .error e) ∨
    ∃ site, ((v.afterArm site).run s).1 = .error e

theorem sat_onEvent (v : Rewalker σ) (event : Event) (s : σ) :
    Act.Sat v.Raises (v.onEvent event) s fun _ _ => True := by
  unfold Act.Sat
  rcases h : (v.onEvent event).run s with ⟨e | _, _⟩
  · exact ⟨s, .inl ⟨event, by rw [h]⟩⟩
  · trivial

theorem sat_afterArm (v : Rewalker σ) (site : BranchSite) (s : σ) :
    Act.Sat v.Raises (v.afterArm site) s fun _ _ => True := by
  unfold Act.Sat
  rcases h : (v.afterArm site).run s with ⟨e | _, _⟩
  · exact ⟨s, .inr ⟨site, by rw [h]⟩⟩
  · trivial

theorem sat_times {E : Fault → Prop} {a : Act σ Unit} (ha : ∀ s, Act.Sat E a s fun _ _ => True)
    (n : Nat) (s : σ) : Act.Sat E (Event.times a n) s fun _ _ => True := by
  induction n generalizing s with
  | zero => exact trivial
  | succ n ih => exact Act.sat_bind.mpr ((ha s).mono fun _ t _ => ih t)

theorem sat_walk (v : Rewalker σ) {f : Function} {it : Itinerary} (h : it.Found)
    (pred : Option BlockId) (s : σ) :
    Act.Sat v.Raises (it.walk f v.visitor () pred) s fun _ _ => True := by
  have hi : ∀ (b : BlockId) (pred : Option BlockId) (s : σ),
      Act.Sat v.Raises ((f.instsOf b).forM (v.visitor.onInst () pred)) s fun _ _ => True :=
    fun _ _ _ => Act.sat_forM trivial fun _ _ s _ => v.sat_onEvent _ s
  induction it generalizing pred s with
  | lost => exact h.elim
  | done => exact trivial
  | join block | loop block => exact v.sat_onEvent _ s
  | ret block => exact Act.sat_bind.mpr ((hi block pred s).mono fun _ t _ => v.sat_onEvent _ t)
  | jump block next ih => exact Act.sat_bind.mpr ((hi block pred s).mono fun _ t _ => ih h _ t)
  | fork site arm rest ihArm ihRest =>
    obtain ⟨hT, hF, hR⟩ := h
    simp only [Itinerary.walk, visitor, Act.sat_bind]
    refine (hi site.block pred s).mono fun _ t _ => (v.sat_onEvent _ t).mono fun _ t _ => ?_
    refine (sat_times (fun t => ?_) v.rounds t).mono fun _ t _ => ihRest hR none t
    simp only [Act.sat_bind]
    exact (ihArm _ hT _ t).mono fun _ t _ => (v.sat_afterArm site t).mono fun _ t _ =>
      (ihArm _ hF _ t).mono fun _ t _ => v.sat_afterArm site t

end Rewalker

namespace Walker

structure Shows (w : Walker σ) (f : Function) (active : List BlockId) : Prop where
  size : w.marks.size = f.numBlocks
  mem : ∀ b, w.isInside b = true ↔ b ∈ active

variable {w : Walker σ} {f : Function} {active : List BlockId} {block : BlockId}

theorem Shows.of_marks {w' : Walker σ} (h : w.Shows f active) (hm : w'.marks = w.marks) :
    w'.Shows f active :=
  ⟨hm ▸ h.size, fun b => by rw [isInside, hm]; exact h.mem b⟩

theorem isInside_enter (hb : block < w.marks.size) (b : BlockId) :
    (w.enter block).isInside b = (b == block || w.isInside b) := by
  by_cases h : b = block
  · simp [isInside, enter, h, hb]
  · simp [isInside, enter, h, Array.getElem?_setIfInBounds_ne (Ne.symm h)]

theorem Shows.enter (h : w.Shows f active) (hb : block < f.numBlocks) :
    (w.enter block).Shows f (block :: active) where
  size := by simpa [Walker.enter] using h.size
  mem b := by simp [isInside_enter (h.size ▸ hb), h.mem]

theorem marks_enter (hb : w.isInside block = false) :
    (w.enter block).marks.setIfInBounds block false = w.marks := by
  apply Array.ext_getElem?
  intro b
  by_cases h : b = block
  · subst h
    by_cases hlt : b < w.marks.size
    · simpa [isInside, enter, hlt] using hb.symm
    · simp [enter, hlt]
  · simp [enter, Array.getElem?_setIfInBounds_ne (Ne.symm h)]

def marked (marks : Array Bool) : List BlockId :=
  (List.range marks.size).filter fun b => marks[b]?.getD false

theorem shows_marked (h : w.marks.size = f.numBlocks) : w.Shows f (marked w.marks) where
  size := h
  mem b := by
    rw [marked, List.mem_filter, List.mem_range, and_iff_right_of_imp]
    · rfl
    · intro hb
      by_contra hlt
      simp [hlt] at hb

end Walker

namespace Stride

def Still (x : Stride σ α) (a : Act σ α) (w : Walker σ) : Prop :=
  x w = some ((a.run w.state).1, { w with state := (a.run w.state).2 })

/-- Does what the visitor does and enters some blocks. Without their marks, the marks are those that
there were. -/
def Plays (x : Stride σ α) (a : Act σ α) (w : Walker σ) : Prop :=
  ∃ marks blocks, x w = some ((a.run w.state).1, ⟨marks, blocks ++ w.entered, (a.run w.state).2⟩) ∧
    blocks.foldl (·.setIfInBounds · false) marks = w.marks

variable {x : Stride σ α} {a : Act σ α} {f : α → Stride σ β} {g : α → Act σ β} {w : Walker σ}
  {w' : Walker σ}

theorem still_ofAct (a : Act σ α) (w : Walker σ) : Still (ofAct a) a w := rfl

theorem Still.plays (h : Still x a w) : Plays x a w := ⟨w.marks, [], h, rfl⟩

theorem run_bind_ok {v : α} (h : x w = some (.ok v, w')) : (x >>= f) w = f v w' := by
  show (x w).bind (fun p => ExceptT.bindCont f p.1 p.2) = _
  rw [h]
  rfl

theorem run_bind_error {e : Fault} (h : x w = some (.error e, w')) :
    (x >>= f) w = some (.error e, w') := by
  show (x w).bind (fun p => ExceptT.bindCont f p.1 p.2) = _
  rw [h]
  rfl

theorem Still.bind (h : Still x a w) (hf : ∀ v s, Still (f v) (g v) { w with state := s }) :
    Still (x >>= f) (a >>= g) w := by
  unfold Still at h ⊢
  rw [Act.run_bind]
  rcases hr : a.run w.state with ⟨e | v, s⟩ <;> rw [hr] at h
  · exact run_bind_error h
  · exact (run_bind_ok h).trans (hf v s)

theorem Still.bind_plays (h : Still x a w) (hf : ∀ v s, Plays (f v) (g v) { w with state := s }) :
    Plays (x >>= f) (a >>= g) w := by
  unfold Still at h
  unfold Plays
  rw [Act.run_bind]
  rcases hr : a.run w.state with ⟨e | v, s⟩ <;> rw [hr] at h
  · exact ⟨w.marks, [], run_bind_error h, rfl⟩
  · obtain ⟨marks, blocks, hx, hm⟩ := hf v s
    exact ⟨marks, blocks, (run_bind_ok h).trans hx, hm⟩

theorem still_times {x : Stride σ Unit} {a : Act σ Unit}
    (h : ∀ s, Still x a { w with state := s }) (n : Nat) :
    Still ((List.replicate n ()).forM fun _ => x) (Event.times a n) w := by
  induction n generalizing w with
  | zero => rfl
  | succ n ih => exact (h w.state).bind fun _ s => ih h

theorem plays_get {x : Walker σ → Stride σ α} (h : Plays (x w) a w) : Plays (get >>= x) a w := h

theorem plays_enter {block : BlockId} {x : Stride σ Unit} {a : Act σ Unit}
    (hb : w.isInside block = false) (h : Plays x a (w.enter block)) :
    Plays (modify (·.enter block) >>= fun _ => x) a w := by
  obtain ⟨marks, blocks, hx, hm⟩ := h
  refine ⟨marks, blocks ++ [block], ?_, ?_⟩
  · rw [List.append_assoc]
    exact hx
  · rw [List.foldl_append, hm]
    exact w.marks_enter hb

end Stride

namespace Route

open Stride

variable {r : Route} {v : Rewalker σ} {w : Walker σ} {active : List BlockId} {room : Nat}
  {pred : Option BlockId} {stop : Option BlockId}

theorem still_walkOn {a : Act σ Unit} {block : BlockId}
    (h : Plays (r.chainOn v pred block stop) a { w with entered := [] }) :
    Still (r.walkOn v pred block stop) a w := by
  obtain ⟨marks, blocks, hr, hm⟩ := h
  unfold Still
  rw [walkOn, hr]
  simp only [List.append_nil] at hm ⊢
  show some (_, Walker.mk (blocks.foldl _ marks) _ _) = _
  rw [hm]
  rfl

/-- A walker does what the walk does, and in the end has the marks that it had. -/
theorem plays_chainOn (hw : w.Shows r.func active) (hnd : active.Nodup)
    (hr : active.length + room = r.func.numBlocks + 1) (pred : Option BlockId) (block : BlockId)
    (stop : Option BlockId) : Plays (r.chainOn v pred block stop)
      (r.walkWithin v.visitor room active () pred block stop) w := by
  induction room generalizing active w pred block stop with
  | zero =>
    have hsu : active ⊆ List.range r.func.numBlocks := fun b hb => by
      by_contra hlt
      have hi := (hw.mem b).mpr hb
      simp only [List.mem_range, ← hw.size] at hlt
      simp [Walker.isInside, hlt] at hi
    have := (hnd.subperm hsu).length_le
    simp at this
    omega
  | succ room ih =>
    rw [chainOn, walkWithin]
    split
    · exact (still_ofAct _ w).plays
    · cases hb : r.func.blocks[block]? with
      | none => exact ⟨w.marks, [], rfl, rfl⟩
      | some body =>
        have hlt : block < r.func.numBlocks := (Array.getElem?_eq_some_iff.mp hb).1
        refine plays_get ?_
        by_cases hi : w.isInside block = true
        · simp only [if_pos hi, if_pos ((hw.mem block).mp hi)]
          exact (still_ofAct _ w).plays
        · have hm : block ∉ active := mt (hw.mem block).mpr hi
          simp only [if_neg hi, if_neg hm]
          refine plays_enter (Bool.eq_false_iff.mpr hi) ?_
          refine (still_ofAct _ (w.enter block)).bind_plays fun _ s => ?_
          -- Inside of one block more there is room for one less.
          have hin : ∀ pred b stop entered s, Plays (r.chainOn v pred b stop)
              (r.walkWithin v.visitor room (block :: active) () pred b stop)
              ⟨(w.enter block).marks, entered, s⟩ := by
            intro pred b stop entered s
            have hs : Walker.Shows ⟨(w.enter block).marks, entered, s⟩ r.func (block :: active) :=
              (hw.enter hlt).of_marks rfl
            refine ih hs (hnd.cons hm) ?_ pred b stop
            rw [List.length_cons]
            omega
          rcases body.terminator with _ | target | ⟨cond, ifTrue, ifFalse⟩ | _
          · exact (still_ofAct _ _).plays
          · exact hin _ _ _ _ _
          · simp only
            generalize r.siteOf block cond ifTrue ifFalse stop = site
            have ha : ∀ s arm, Still (r.walkOn v (some block) arm site.stop)
                (r.walkWithin v.visitor room (block :: active) () (some block) arm site.stop)
                { w.enter block with state := s } :=
              fun s arm => still_walkOn (hin _ _ _ _ _)
            rw [← bind_assoc]
            refine Still.bind_plays (Still.bind (still_ofAct _ _) fun _ s => ?_) fun _ s => ?_
            · refine still_times (fun s => ?_) v.rounds
              exact (ha s _).bind fun _ s => (still_ofAct _ _).bind fun _ s =>
                (ha s _).bind fun _ s => still_ofAct _ _
            · cases site.join with
              | none => exact ⟨_, [], rfl, rfl⟩
              | some join =>
                simp only
                split
                · exact ⟨_, [], rfl, rfl⟩
                · exact hin _ _ _ _ _
          · exact (still_ofAct _ _).plays

def visits (r : Route) (v : Rewalker σ) (marks : Array Bool) (pred : Option BlockId)
    (start : BlockId) (stop : Option BlockId) : Act σ Unit :=
  r.walkWithin v.visitor (r.func.numBlocks + 1 - (Walker.marked marks).length)
    (Walker.marked marks) () pred start stop

theorem length_marked_le (hw : w.marks.size = r.func.numBlocks) :
    (Walker.marked w.marks).length ≤ r.func.numBlocks := by
  have hle : (Walker.marked w.marks).length ≤ (List.range w.marks.size).length :=
    List.length_filter_le _ _
  rwa [List.length_range, hw] at hle

theorem walkOn_still (r : Route) (v : Rewalker σ) (pred : Option BlockId) (start : BlockId)
    (stop : Option BlockId) (hw : w.marks.size = r.func.numBlocks) :
    Still (r.walkOn v pred start stop) (r.visits v w.marks pred start stop) w :=
  have hs : Walker.Shows { w with entered := [] } r.func (Walker.marked w.marks) :=
    Walker.shows_marked hw
  still_walkOn (plays_chainOn hs (List.nodup_range.filter _)
    (Nat.add_sub_of_le (Nat.le_succ_of_le (length_marked_le hw))) ..)

theorem traceOn_eq_trace (r : Route) {w : Walker (List Event)} (rounds : Nat)
    (limit : Option (Nat × Fault)) (pred : Option BlockId) (start : BlockId) (stop : Option BlockId)
    (hw : w.marks = Array.replicate r.func.numBlocks false) :
    r.traceOn rounds limit pred start stop w = some ((r.trace rounds limit pred start stop).1,
      { w with state := (r.trace rounds limit pred start stop).2 }) := by
  have hn : Walker.marked w.marks = [] := by
    rw [hw, Walker.marked, List.filter_eq_nil_iff]
    intro b hb
    simp_all
  have hs : Still (r.walkOn (.recorder rounds limit) pred start stop)
      (r.visits (.recorder rounds limit) w.marks pred start stop) { w with state := [] } :=
    walkOn_still r _ pred start stop (by simp [hw])
  unfold Still visits at hs
  rw [Rewalker.visitor_recorder, hn] at hs
  exact hs

structure Trip (σ : Type) where
  visitor : Rewalker σ
  pred : Option BlockId
  start : BlockId
  stop : Option BlockId

def walkEach (r : Route) : List (Trip σ) → Walker σ → Option (List (Except Fault Unit) × Walker σ)
  | [], w => some ([], w)
  | ⟨v, pred, start, stop⟩ :: rest, w => do
    let (result, w) ← r.walkOn v pred start stop w
    let (results, w) ← r.walkEach rest w
    return (result :: results, w)

def walkApart (r : Route) (marks : Array Bool) :
    List (Trip σ) → σ → Option (List (Except Fault Unit) × σ)
  | [], s => some ([], s)
  | ⟨v, pred, start, stop⟩ :: rest, s => do
    let (result, w) ← r.walkOn v pred start stop ⟨marks, [], s⟩
    let (results, s) ← r.walkApart marks rest w.state
    return (result :: results, s)

theorem walkEach_eq (hw : w.marks.size = r.func.numBlocks) (trips : List (Trip σ)) :
    ∃ results s, r.walkApart w.marks trips w.state = some (results, s) ∧
      r.walkEach trips w = some (results, { w with state := s }) := by
  induction trips generalizing w with
  | nil => exact ⟨[], w.state, rfl, rfl⟩
  | cons trip rest ih =>
    obtain ⟨v, pred, start, stop⟩ := trip
    have he := walkOn_still r v pred start stop hw
    have ha : Still (r.walkOn v pred start stop) (r.visits v w.marks pred start stop)
      ⟨w.marks, [], w.state⟩ := walkOn_still r v pred start stop hw
    unfold Still at he ha
    generalize (r.visits v w.marks pred start stop).run w.state = outcome at he ha
    obtain ⟨results, s, hl, hr⟩ := ih (w := { w with state := outcome.2 }) hw
    refine ⟨outcome.1 :: results, s, ?_, ?_⟩
    · simp only [walkApart, ha, hl, Option.bind_eq_bind, Option.bind_some, Option.pure_def]
    · simp only [walkEach, he, hr, Option.bind_eq_bind, Option.bind_some, Option.pure_def]

theorem raises_of_visits (hr : r.func.TargetsInRange) (ht : r.postDominators.Exact r.func)
    (hw : w.marks.size = r.func.numBlocks) {start : BlockId} {e : Fault} {s : σ}
    (he : ((r.visits v w.marks pred start stop).run s).1 = .error e) :
    v.Raises e ∨ e = .dangling ∧ r.func.numBlocks ≤ start := by
  have hle := length_marked_le hw
  by_cases hlt : start < r.func.numBlocks
  · have hra : ∀ b ∈ Walker.marked w.marks, b < r.func.numBlocks := fun b hb => by
      have hb := (List.mem_filter.mp hb).1
      rwa [List.mem_range, hw] at hb
    have hnd : (Walker.marked w.marks).Nodup := List.nodup_range.filter _
    rw [visits, walkWithin_eq_walk] at he
    have hro := Nat.add_sub_of_le (Nat.le_succ_of_le hle)
    exact .inl ((v.sat_walk (found_itineraryWithin hr ht hlt hnd hra hro) pred s).of_error he)
  · rw [visits, Nat.succ_sub hle, walkWithin] at he
    split at he
    · exact .inl ((v.sat_onEvent _ s).of_error he)
    · rw [Array.getElem?_eq_none (Nat.le_of_not_lt hlt)] at he
      cases he
      exact .inr ⟨rfl, Nat.le_of_not_lt hlt⟩

/-- With the targets of all branches in range, a walker comes to the end of each walk, from whatever
block and with whatever blocks marked, and it has the same marks then, also when the visitor has
failed. Only the visitor fails, if the first block is there. Walks that are made one after another
come to what they come to with a walker each. -/
theorem walks_restore_marks {f : Function} (hr : f.TargetsInRange) :
    ∃ t, PostDominators.ofFunction f = .ok t ∧
      ∀ w : Walker σ, w.marks.size = f.numBlocks →
        (∀ v pred start stop, ∃ result s,
          walkOn ⟨f, t⟩ v pred start stop w = some (result, { w with state := s }) ∧
          ∀ e, result = .error e → v.Raises e ∨ e = .dangling ∧ f.numBlocks ≤ start) ∧
        ∀ trips, ∃ results s, walkApart ⟨f, t⟩ w.marks trips w.state = some (results, s) ∧
          walkEach ⟨f, t⟩ trips w = some (results, { w with state := s }) := by
  obtain ⟨t, hok, ht⟩ := PostDominators.ofFunction_exact hr
  refine ⟨t, hok, fun w hw => ⟨fun v pred start stop => ?_, walkEach_eq hw⟩⟩
  exact ⟨_, _, walkOn_still ⟨f, t⟩ v pred start stop hw, fun e => raises_of_visits hr ht hw⟩

end Route

/-- Walks through `tangled` from inside of a loop, of which the first one is stopped after three
events. -/
theorem walks_restore_tangled : tangled.TargetsInRange ∧
    ∃ t, PostDominators.ofFunction tangled = .ok t ∧
      let w : Walker (List Event) :=
        ⟨#[false, true, false, false, false, true, false, false], [], []⟩
      let v : Rewalker (List Event) := .recorder 2 (some (3, .functionNotFound "full"))
      w.marks.size = tangled.numBlocks ∧
      (∃ result s,
        Route.walkOn ⟨tangled, t⟩ v none 0 (some 6) w = some (result, { w with state := s }) ∧
        ∀ e, result = .error e → v.Raises e ∨ e = .dangling ∧ tangled.numBlocks ≤ 0) ∧
      ∃ results s,
        Route.walkApart ⟨tangled, t⟩ w.marks
          [⟨v, none, 0, some 6⟩, ⟨.recorder 3 none, some 2, 4, none⟩] w.state = some (results, s) ∧
        Route.walkEach ⟨tangled, t⟩ [⟨v, none, 0, some 6⟩, ⟨.recorder 3 none, some 2, 4, none⟩] w
          = some (results, { w with state := s }) := by
  obtain ⟨t, hok, hall⟩ := Route.walks_restore_marks tangled_targetsInRange
  obtain ⟨hone, heach⟩ := hall ⟨#[false, true, false, false, false, true, false, false], [], []⟩ rfl
  exact ⟨tangled_targetsInRange, t, hok, rfl, hone _ none 0 (some 6), heach _⟩

end Stagewise
