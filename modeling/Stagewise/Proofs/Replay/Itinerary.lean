import Mathlib.Data.List.Perm.Subperm
import Mathlib.Data.List.Range
import Stagewise.Proofs.Flow.PostDominance
import Stagewise.Replay.Walk

namespace Stagewise

/-- The way of a walk from one of its blocks on. A branch has a way for each of its arms and one from
where the arms come together. -/
inductive Itinerary
  | lost
  | done
  | join (block : BlockId)
  | loop (block : BlockId)
  | ret (block : BlockId)
  | jump (block : BlockId) (next : Itinerary)
  | fork (site : BranchSite) (arm : BlockId → Itinerary) (rest : Itinerary)

namespace Itinerary

def entered : Itinerary → List BlockId
  | .ret block => [block]
  | .jump block next => block :: next.entered
  | .fork site arm rest =>
    site.block :: ((arm site.ifTrue).entered ++ (arm site.ifFalse).entered ++ rest.entered)
  | _ => []

variable {arm : BlockId → Itinerary}

theorem mem_entered_fork {site : BranchSite} {rest : Itinerary} {b : BlockId} :
    b ∈ (fork site arm rest).entered ↔ b = site.block ∨
      (b ∈ (arm site.ifTrue).entered ∨ b ∈ (arm site.ifFalse).entered) ∨ b ∈ rest.entered := by
  simp only [entered, List.mem_cons, List.mem_append]

def start : Itinerary → Option BlockId
  | .ret block => some block
  | .jump block _ => some block
  | .fork site _ _ => some site.block
  | _ => none

/-- The blocks from which a walk of each arm once goes on where the arms of a branch have come
together, in order. Only some branches are kept. -/
def rejoined (keeps : BranchSite → Bool) : Itinerary → List BlockId
  | .jump _ next => next.rejoined keeps
  | .fork site arm rest =>
    (arm site.ifTrue).rejoined keeps ++ (arm site.ifFalse).rejoined keeps ++
      ((if keeps site then rest.start.toList else []) ++ rest.rejoined keeps)
  | _ => []

theorem sublist_entered (keeps : BranchSite → Bool) (it : Itinerary) :
    (it.start.toList ++ it.rejoined keeps).Sublist it.entered := by
  induction it with
  | jump block next ih => exact ((List.sublist_append_right _ _).trans ih).cons_cons block
  | fork site arm rest iharm ihrest =>
    have ha : ∀ a, ((arm a).rejoined keeps).Sublist (arm a).entered :=
      fun a => (List.sublist_append_right _ _).trans (iharm a)
    refine .cons_cons site.block (((ha _).append (ha _)).append ?_)
    split
    · exact ihrest
    · exact (List.sublist_append_right _ _).trans ihrest
  | _ => simp [start, rejoined, entered]

theorem nodup_rejoined {it : Itinerary} (h : it.entered.Nodup) (keeps : BranchSite → Bool) :
    (it.rejoined keeps).Nodup :=
  h.sublist ((List.sublist_append_right _ _).trans (it.sublist_entered keeps))

theorem nodup_rejoined_fork {keeps : BranchSite → Bool} {site : BranchSite} {rest : Itinerary}
    (h : ((fork site arm rest).rejoined keeps).Nodup) :
    ((arm site.ifTrue).rejoined keeps).Nodup ∧ ((arm site.ifFalse).rejoined keeps).Nodup ∧
    (rest.rejoined keeps).Nodup ∧
    (∀ b ∈ (arm site.ifTrue).rejoined keeps, b ∉ (arm site.ifFalse).rejoined keeps) ∧
    (∀ b ∈ rest.rejoined keeps, b ∉ (arm site.ifTrue).rejoined keeps ∧
      b ∉ (arm site.ifFalse).rejoined keeps) ∧
    ∀ j, keeps site = true → rest.start = some j → j ∉ (arm site.ifTrue).rejoined keeps ∧
      j ∉ (arm site.ifFalse).rejoined keeps ∧ j ∉ rest.rejoined keeps := by
  obtain ⟨har, hr, hd⟩ := List.nodup_append.mp h
  obtain ⟨ht, hf, har⟩ := List.nodup_append.mp har
  obtain ⟨-, hr, hs⟩ := List.nodup_append.mp hr
  have ha : ∀ b ∈ (if keeps site then rest.start.toList else []) ++ rest.rejoined keeps,
      b ∉ (arm site.ifTrue).rejoined keeps ∧ b ∉ (arm site.ifFalse).rejoined keeps :=
    fun b hb => ⟨fun h => hd b (List.mem_append_left _ h) b hb rfl,
      fun h => hd b (List.mem_append_right _ h) b hb rfl⟩
  refine ⟨ht, hf, hr, fun b hb hb' => har b hb b hb' rfl,
    fun b hb => ha b (List.mem_append_right _ hb), fun j hk hj => ?_⟩
  have hm : j ∈ if keeps site then rest.start.toList else [] := by simp [hk, hj]
  exact ⟨(ha j (List.mem_append_left _ hm)).1, (ha j (List.mem_append_left _ hm)).2,
    fun h => hs j hm j h rfl⟩

theorem perm_entered_fork (site : BranchSite) (arm : BlockId → Itinerary) (rest : Itinerary)
    (visited : List BlockId) :
    ((fork site arm rest).entered ++ visited).Perm (rest.entered ++ ((arm site.ifFalse).entered ++
      ((arm site.ifTrue).entered ++ site.block :: visited))) := by
  rw [List.perm_iff_count]
  intro x
  simp only [entered, List.cons_append, List.append_assoc, List.count_append, List.count_cons]
  omega

def Found : Itinerary → Prop
  | .lost => False
  | .jump _ next => next.Found
  | .fork site arm rest => (arm site.ifTrue).Found ∧ (arm site.ifFalse).Found ∧ rest.Found
  | _ => True

variable {γ σ : Type}

def walk (f : Function) (v : Visitor γ σ) : Itinerary → γ → Option BlockId → Act σ Unit
  | .lost, _, _ => throw .dangling
  | .done, _, _ => pure ()
  | .join block, ctx, pred => v.onJoin ctx pred block
  | .loop block, ctx, _ => v.onLoop ctx block
  | .ret block, ctx, pred => do
    (f.instsOf block).forM (v.onInst ctx pred)
    v.onReturn ctx block
  | .jump block next, ctx, pred => do
    (f.instsOf block).forM (v.onInst ctx pred)
    next.walk f v ctx (some block)
  | .fork site arm rest, ctx, pred => do
    (f.instsOf site.block).forM (v.onInst ctx pred)
    v.onBranch ctx site fun ctx a => (arm a).walk f v ctx (some site.block)
    rest.walk f v ctx none

end Itinerary

namespace Route

def itineraryWithin (r : Route) : Nat → List BlockId → BlockId → Option BlockId → Itinerary
  | 0, _, _, _ => .lost
  | room + 1, active, block, stop =>
    if some block = stop then .join block
    else
      match r.func.blocks[block]? with
      | none => .lost
      | some body =>
        if block ∈ active then .loop block
        else
          match body.terminator with
          | some (.jump target) => .jump block (r.itineraryWithin room (block :: active) target stop)
          | some (.branch cond ifTrue ifFalse) =>
            let site := r.siteOf block cond ifTrue ifFalse stop
            .fork site (fun arm => r.itineraryWithin room (block :: active) arm site.stop)
              (match site.join with
                | none => .done
                | some join =>
                  if some join = stop then .done
                  else r.itineraryWithin room (block :: active) join stop)
          | _ => .ret block

def itinerary (r : Route) : Itinerary :=
  r.itineraryWithin (r.func.numBlocks + 1) [] r.func.entry none

variable {γ σ : Type}

theorem walkWithin_eq_walk (r : Route) (v : Visitor γ σ) (room : Nat) (active : List BlockId)
    (ctx : γ) (pred : Option BlockId) (block : BlockId) (stop : Option BlockId) :
    r.walkWithin v room active ctx pred block stop
      = (r.itineraryWithin room active block stop).walk r.func v ctx pred := by
  induction room generalizing active ctx pred block stop with
  | zero => rfl
  | succ room ih =>
    simp only [walkWithin, itineraryWithin]
    split
    · rfl
    · cases hb : r.func.blocks[block]? with
      | none => rfl
      | some body =>
        have hi : r.func.instsOf block = body.insts := by simp [Function.instsOf, hb]
        simp only
        split
        · rfl
        · rcases body.terminator with _ | target | ⟨cond, ifTrue, ifFalse⟩ | _
          · simp only [Itinerary.walk, hi]
          · simp only [Itinerary.walk, hi, ih]
          · simp only [Itinerary.walk, hi, ih, siteOf]
            cases r.postDominators.nearestCommon? ifTrue ifFalse with
            | none => rfl
            | some join =>
              simp only
              split <;> rfl
          · simp only [Itinerary.walk, hi]

theorem walk_eq_walk (r : Route) (v : Visitor γ σ) (ctx : γ) :
    r.walk v ctx none r.func.entry none = r.itinerary.walk r.func v ctx none :=
  r.walkWithin_eq_walk v _ _ _ _ _ _

/-- A branch at the end of a block, which a walk comes to before its last block. -/
structure Branches (r : Route) (stop : Option BlockId) (site : BranchSite) : Prop where
  ne_stop : some site.block ≠ stop
  terminator : r.func.terminator? site.block = some (.branch site.cond site.ifTrue site.ifFalse)
  join_eq : site.join = r.postDominators.nearestCommon? site.ifTrue site.ifFalse
  stop_eq : site.stop = (site.join <|> stop)

/-- The itineraries of the walks from a block that are inside of some blocks, to a last block. -/
inductive Follows (r : Route) : List BlockId → BlockId → Option BlockId → Itinerary → Prop
  | join {active block stop} : some block = stop → Follows r active block stop (.join block)
  | loop {active block stop} : some block ≠ stop → block ∈ active →
      Follows r active block stop (.loop block)
  | ret {active block stop} : some block ≠ stop → block < r.func.numBlocks → block ∉ active →
      r.func.successors block = [] → Follows r active block stop (.ret block)
  | jump {active block stop target next} : some block ≠ stop → block ∉ active →
      r.func.terminator? block = some (.jump target) →
      Follows r (block :: active) target stop next →
      Follows r active block stop (.jump block next)
  | fork {active stop site arm rest} : r.Branches stop site → site.block ∉ active →
      Follows r (site.block :: active) site.ifTrue site.stop (arm site.ifTrue) →
      Follows r (site.block :: active) site.ifFalse site.stop (arm site.ifFalse) →
      ((site.join = none ∨ site.join = stop) ∧ rest = .done ∨
        ∃ j, site.join = some j ∧ some j ≠ stop) →
      (∀ j, site.join = some j → some j ≠ stop → Follows r (site.block :: active) j stop rest) →
      Follows r active site.block stop (.fork site arm rest)

variable {r : Route} {active : List BlockId} {block : BlockId} {stop : Option BlockId}

theorem successors_jump {target : BlockId} (ht : r.func.terminator? block = some (.jump target)) :
    r.func.successors block = [target] := by
  simp [Function.successors, ht, Terminator.successors]

variable {site : BranchSite} {w : BlockId} {room : Nat}

theorem Branches.mem_successors (h : r.Branches stop site) :
    w ∈ r.func.successors site.block ↔ w = site.ifTrue ∨ w = site.ifFalse := by
  simp [Function.successors, h.terminator, Terminator.successors]

theorem Branches.mem_exitSuccessors (h : r.Branches stop site) :
    w ∈ r.func.exitSuccessors site.block ↔ w = site.ifTrue ∨ w = site.ifFalse := by
  simp [Function.exitSuccessors, Function.returns, h.terminator, h.mem_successors]

theorem Branches.lt (h : r.Branches stop site) :
    site.block < r.func.numBlocks :=
  r.func.mem_exitSuccessors_lt (h.mem_exitSuccessors.mpr (.inl rfl))

/-- An itinerary that lacks nothing is one that a walk follows. -/
theorem follows_of_found (h : (r.itineraryWithin room active block stop).Found) :
    r.Follows active block stop (r.itineraryWithin room active block stop) := by
  induction room generalizing active block stop with
  | zero => exact h.elim
  | succ room ih =>
    simp only [itineraryWithin] at h ⊢
    split at h
    · next hs =>
      rw [if_pos hs]
      exact .join hs
    · next hs =>
      rw [if_neg hs]
      cases hb : r.func.blocks[block]? with
      | none =>
        rw [hb] at h
        exact h.elim
      | some body =>
        rw [hb] at h
        have hte : r.func.terminator? block = body.terminator := by
          simp [Function.terminator?, hb]
        simp only at h ⊢
        split at h
        · next hm =>
          rw [if_pos hm]
          exact .loop hs hm
        · next hm =>
          rw [if_neg hm]
          cases ht : body.terminator with
          | none =>
            refine .ret hs (Array.getElem?_eq_some_iff.mp hb).1 hm ?_
            simp [Function.successors, hte, ht]
          | some term =>
            rw [ht] at h hte
            cases term with
            | ret =>
              refine .ret hs (Array.getElem?_eq_some_iff.mp hb).1 hm ?_
              simp [Function.successors, hte, Terminator.successors]
            | jump target => exact .jump hs hm hte (ih h)
            | branch cond ifTrue ifFalse =>
              obtain ⟨hT, hF, hR⟩ := h
              have hbr : r.Branches stop (r.siteOf block cond ifTrue ifFalse stop) :=
                ⟨hs, hte, rfl, rfl⟩
              refine .fork hbr hm (ih hT) (ih hF) ?_ ?_
              · cases hj : (r.siteOf block cond ifTrue ifFalse stop).join with
                | none => simp
                | some j =>
                  by_cases hjs : some j = stop
                  · simp [hjs]
                  · exact .inr ⟨j, rfl, hjs⟩
              · intro join hj hne
                simp only [hj, if_neg hne] at hR ⊢
                exact ih hR

/-- With room for all blocks that a walk is not inside of, its itinerary lacks nothing. -/
theorem found_itineraryWithin (hr : r.func.TargetsInRange) (ht : r.postDominators.Exact r.func)
    (hbl : block < r.func.numBlocks) (hnd : active.Nodup) (ha : ∀ b ∈ active, b < r.func.numBlocks)
    (hro : active.length + room = r.func.numBlocks + 1) :
    (r.itineraryWithin room active block stop).Found := by
  induction room generalizing active block stop with
  | zero =>
    have hsu : active ⊆ List.range r.func.numBlocks := fun b hb => by simpa using ha b hb
    have := (hnd.subperm hsu).length_le
    simp at this
    omega
  | succ room ih =>
    obtain ⟨body, hbo⟩ : ∃ body, r.func.blocks[block]? = some body :=
      ⟨_, Array.getElem?_eq_getElem hbl⟩
    have hs : r.func.successors block = body.terminator.elim [] Terminator.successors := by
      simp [Function.successors, Function.terminator?, hbo]
    simp only [itineraryWithin, hbo]
    split
    · trivial
    · split
      · trivial
      · next hm =>
        have hn : ∀ {w stop}, w < r.func.numBlocks →
            (r.itineraryWithin room (block :: active) w stop).Found := by
          intro w stop hw
          refine ih hw (List.nodup_cons.mpr ⟨hm, hnd⟩) (fun b hb => ?_) ?_
          · rcases List.mem_cons.mp hb with rfl | hb
            · exact hbl
            · exact ha b hb
          · rw [List.length_cons]
            omega
        have hta : ∀ w ∈ body.terminator.elim [] Terminator.successors, w < r.func.numBlocks :=
          fun w hw => hr block w (hs ▸ hw)
        split
        · next target hju => exact hn (hta target (by simp [hju, Terminator.successors]))
        · next cond ifTrue ifFalse hbr =>
          refine ⟨hn (hta _ ?_), hn (hta _ ?_), ?_⟩
          · simp [hbr, siteOf, Terminator.successors]
          · simp [hbr, siteOf, Terminator.successors]
          · split
            · trivial
            · next join hj =>
              split
              · trivial
              · exact hn (ht.nearestCommon?_eq_some hr hj).2.2.1
        · trivial

theorem found_itinerary (hr : r.func.TargetsInRange) (ht : r.postDominators.Exact r.func)
    (he : r.func.entry < r.func.numBlocks) : r.itinerary.Found :=
  found_itineraryWithin hr ht he List.nodup_nil (by simp) (by simp)

theorem follows_itinerary (hr : r.func.TargetsInRange) (ht : r.postDominators.Exact r.func)
    (he : r.func.entry < r.func.numBlocks) : r.Follows [] r.func.entry none r.itinerary :=
  follows_of_found (found_itinerary hr ht he)

end Route

end Stagewise
