import Stagewise.Proofs.Replay.Unfolding

namespace Stagewise

open Relation

namespace PostDominators

structure Climbs (t : PostDominators) (f : Function) : Prop where
  size : t.parent.size = f.numBlocks + 1
  way : ∀ {v u}, t.parent? v = some u → ReflTransGen (fun v w => w ∈ f.exitSuccessors v) v u

variable {f : Function} {t : PostDominators} {a b j v m : Nat}

theorem climbs_initial (order : List Nat) : (initial f order).Climbs f := by
  refine ⟨by simp [initial], fun {v u} hu => ?_⟩
  rw [parent?_initial] at hu
  split at hu
  · next hv => rw [hv, ← Option.some.inj hu]
  · cases hu

namespace Climbs

section

variable (h : t.Climbs f)
include h

theorem meetWithin (fuel a b : Nat) :
    ReflTransGen (fun v w => w ∈ f.exitSuccessors v) a (t.meetWithin fuel a b) ∨
      ReflTransGen (fun v w => w ∈ f.exitSuccessors v) b (t.meetWithin fuel a b) := by
  induction fuel generalizing a b with
  | zero => exact .inl .refl
  | succ fuel ih =>
    simp only [PostDominators.meetWithin]
    split
    · exact .inl .refl
    · split
      · cases hup : t.parent? a with
        | none => exact .inl .refl
        | some up => exact (ih up b).imp_left (h.way hup).trans
      · cases hup : t.parent? b with
        | none => exact .inr .refl
        | some up => exact (ih a up).imp_right (h.way hup).trans

theorem meetAll {nodes : List Nat} (hm : t.meetAll nodes = some m) :
    ∃ w ∈ nodes, ReflTransGen (fun v w => w ∈ f.exitSuccessors v) w m := by
  have key : ∀ (ws : List Nat) (found : Option Nat), (∀ w ∈ ws, w ∈ nodes) →
      (∀ y, found = some y →
        ∃ w ∈ nodes, ReflTransGen (fun v w => w ∈ f.exitSuccessors v) w y) →
      ws.foldl (fun found v => some (found.elim v (t.meet v))) found = some m →
      ∃ w ∈ nodes, ReflTransGen (fun v w => w ∈ f.exitSuccessors v) w m := by
    intro ws
    induction ws with
    | nil => exact fun found _ hf hm => hf m hm
    | cons w ws ih =>
      intro found hws hf hm
      refine ih _ (fun x hx => hws x (List.mem_cons_of_mem _ hx)) (fun y hy => ?_) hm
      obtain rfl := Option.some.inj hy
      have hw : w ∈ nodes := hws w List.mem_cons_self
      cases found with
      | none => exact ⟨w, hw, .refl⟩
      | some y =>
        rcases h.meetWithin _ w y with hwa | hwa
        · exact ⟨w, hw, hwa⟩
        · obtain ⟨x, hx, hxy⟩ := hf y rfl
          exact ⟨x, hx, hxy.trans hwa⟩
  exact key _ none (fun w hw => (List.mem_filter.mp hw).1) (by simp) hm

theorem refine (v : Nat) : (refine f t v).Climbs f := by
  unfold PostDominators.refine
  split
  · next up hup =>
    refine ⟨by simp [h.size], fun {x u} hu => ?_⟩
    simp only [parent?, Array.getElem?_setIfInBounds] at hu
    split at hu
    · next hx =>
      subst hx
      split at hu
      · obtain rfl := Option.some.inj hu
        obtain ⟨w, hw, hwa⟩ := h.meetAll hup
        exact .head hw hwa
      · cases hu
    · exact h.way hu
  · exact h

theorem round (order : List Nat) : (round f order t).Climbs f := by
  unfold PostDominators.round
  generalize order.tail = rest
  induction rest generalizing t with
  | nil => exact h
  | cons v rest ih => exact ih (h.refine v)

theorem settle (order : List Nat) (fuel : Nat) : (settle f order fuel t).Climbs f := by
  induction fuel generalizing t with
  | zero => exact h
  | succ fuel ih =>
    simp only [PostDominators.settle]
    split
    · exact h
    · exact ih (h.round order)

theorem reaches_nearestCommon? (hj : t.nearestCommon? a b = some j) :
    f.Reaches a j ∨ f.Reaches b j := by
  unfold nearestCommon? block? at hj
  split at hj
  · split at hj
    · cases hj
    · next he =>
      obtain rfl := Option.some.inj hj
      have hne : t.meet a b ≠ f.exitNode := by
        rwa [exitNode, h.size] at he
      -- A way that ends at a block never goes through the virtual exit.
      have hb : ∀ {v u}, ReflTransGen (fun v w => w ∈ f.exitSuccessors v) v u →
          u ≠ f.exitNode → f.Reaches v u := by
        intro v u hwa
        induction hwa with
        | refl => exact fun _ => .refl
        | @tail w u _ hs ih =>
          intro hu
          have hw : w ≠ f.exitNode := Nat.ne_of_lt (f.mem_exitSuccessors_lt hs)
          exact (ih hw).tail (f.mem_successors_of_mem_exitSuccessors hu hs)
      exact (h.meetWithin _ a b).imp (hb · hne) (hb · hne)
  · cases hj

end

end Climbs

theorem climbs_of_ofFunction (h : ofFunction f = .ok t) : t.Climbs f := by
  unfold ofFunction at h
  simp only at h
  split at h
  · rw [← Except.ok.inj h]
    exact (climbs_initial f.returnOrder).settle _ _
  · cases h

end PostDominators

namespace Itinerary

def sites : Itinerary → List BranchSite
  | .jump _ next => next.sites
  | .fork site arm rest =>
    site :: ((arm site.ifTrue).sites ++ (arm site.ifFalse).sites ++ rest.sites)
  | _ => []

end Itinerary

namespace Route

variable {r : Route} {active : List BlockId} {block b : BlockId} {stop : Option BlockId}
  {it : Itinerary}

/-- What a walk's blocks lead to is entered too, unless the walk is inside of it or ends there. -/
theorem Follows.covers (h : r.Follows active block stop it) :
    (block ∈ it.entered ∨ block ∈ active ∨ some block = stop) ∧
      ∀ v ∈ it.entered, ∀ w ∈ r.func.successors v,
        w ∈ it.entered ∨ w ∈ active ∨ some w = stop := by
  induction h with
  | join hs => exact ⟨.inr (.inr hs), by simp [Itinerary.entered]⟩
  | loop _ hm => exact ⟨.inr (.inl hm), by simp [Itinerary.entered]⟩
  | ret _ _ _ hsu => simp [Itinerary.entered, hsu]
  | @jump active block stop target next _ _ ht _ ih =>
    obtain ⟨hh, hr⟩ := ih
    refine ⟨by simp [Itinerary.entered], fun v hv w hw => ?_⟩
    simp only [Itinerary.entered, List.mem_cons] at hv hh hr ⊢
    rcases hv with rfl | hv
    · obtain rfl : w = target := by simpa [successors_jump ht] using hw
      tauto
    · have := hr v hv w hw
      tauto
  | @fork active stop site arm rest hbr _ hT hF he hr ihT ihF ihRest =>
    have hi : ∀ w, w ∈ site.block :: active →
        w ∈ (Itinerary.fork site arm rest).entered ∨ w ∈ active ∨ some w = stop := by
      intro w hw
      rcases List.mem_cons.mp hw with rfl | hw
      · exact .inl (Itinerary.mem_entered_fork.mpr (.inl rfl))
      · exact .inr (.inl hw)
    have haf : ∀ w, w ∈ rest.entered ∨ w ∈ site.block :: active ∨ some w = stop →
        w ∈ (Itinerary.fork site arm rest).entered ∨ w ∈ active ∨ some w = stop := by
      rintro w (hw | hw | hw)
      · exact .inl (Itinerary.mem_entered_fork.mpr (.inr (.inr hw)))
      · exact hi w hw
      · exact .inr (.inr hw)
    -- Where an arm ends, the walk goes on after the arms or ends as well.
    have hen : ∀ w, some w = site.stop →
        w ∈ (Itinerary.fork site arm rest).entered ∨ w ∈ active ∨ some w = stop := by
      intro w hw
      rw [hbr.stop_eq] at hw
      rcases he with ⟨hj | hj, -⟩ | ⟨j, hj, hjs⟩
      · rw [hj] at hw
        exact .inr (.inr hw)
      · rw [hj] at hw
        exact .inr (.inr (by cases stop <;> exact hw))
      · rw [hj] at hw
        obtain rfl := Option.some.inj hw
        exact haf w (ihRest w hj hjs).1
    have har : ∀ a, a = site.ifTrue ∨ a = site.ifFalse → ∀ w,
        w ∈ (arm a).entered ∨ w ∈ site.block :: active ∨ some w = site.stop →
        w ∈ (Itinerary.fork site arm rest).entered ∨ w ∈ active ∨ some w = stop := by
      rintro a ha w (hw | hw | hw)
      · refine .inl (Itinerary.mem_entered_fork.mpr (.inr (.inl ?_)))
        rcases ha with rfl | rfl
        · exact .inl hw
        · exact .inr hw
      · exact hi w hw
      · exact hen w hw
    refine ⟨.inl (Itinerary.mem_entered_fork.mpr (.inl rfl)), fun v hv w hw => ?_⟩
    rcases Itinerary.mem_entered_fork.mp hv with rfl | (hv | hv) | hv
    · rcases hbr.mem_successors.mp hw with rfl | rfl
      · exact har _ (.inl rfl) _ ihT.1
      · exact har _ (.inr rfl) _ ihF.1
    · exact har _ (.inl rfl) w (ihT.2 v hv w hw)
    · exact har _ (.inr rfl) w (ihF.2 v hv w hw)
    · rcases he with ⟨-, rfl⟩ | ⟨j, hj, hjs⟩
      · simp [Itinerary.entered] at hv
      · exact haf w ((ihRest j hj hjs).2 v hv w hw)

theorem Follows.reaches (ht : r.postDominators.Climbs r.func) (h : r.Follows active block stop it)
    (hb : b ∈ it.entered) : r.func.Reaches block b := by
  induction h with
  | join | loop => simp [Itinerary.entered] at hb
  | ret =>
    obtain rfl : b = _ := by simpa [Itinerary.entered] using hb
    exact .refl
  | @jump active block stop target next _ _ hte _ ih =>
    rcases List.mem_cons.mp hb with rfl | hb
    · exact .refl
    · exact .head (by simp [successors_jump hte]) (ih hb)
  | @fork active stop site arm rest hbr _ _ _ he _ ihT ihF ihRest =>
    have hT : site.ifTrue ∈ r.func.successors site.block := hbr.mem_successors.mpr (.inl rfl)
    have hF : site.ifFalse ∈ r.func.successors site.block := hbr.mem_successors.mpr (.inr rfl)
    rcases Itinerary.mem_entered_fork.mp hb with rfl | (hb | hb) | hb
    · exact .refl
    · exact .head hT (ihT hb)
    · exact .head hF (ihF hb)
    · rcases he with ⟨-, rfl⟩ | ⟨j, hj, hjs⟩
      · simp [Itinerary.entered] at hb
      · have hto : r.func.Reaches site.block j := by
          rcases ht.reaches_nearestCommon? (hbr.join_eq.symm.trans hj) with hw | hw
          · exact .head hT hw
          · exact .head hF hw
        exact hto.trans (ihRest j hj hjs hb)

/-- An itinerary branches at just the blocks that it enters and that end in a branch. -/
theorem Follows.mem_sites_iff (h : r.Follows active block stop it) (b : BlockId) :
    (∃ site ∈ it.sites, site.block = b) ↔ b ∈ it.entered ∧
      ∃ cond ifTrue ifFalse, r.func.terminator? b = some (.branch cond ifTrue ifFalse) := by
  induction h with
  | join | loop => simp [Itinerary.sites, Itinerary.entered]
  | ret _ _ _ hs =>
    simp only [Itinerary.sites, Itinerary.entered, List.not_mem_nil, false_and, exists_false,
      false_iff, List.mem_singleton]
    rintro ⟨rfl, cond, ifTrue, ifFalse, ht⟩
    simp [Function.successors, ht, Terminator.successors] at hs
  | @jump active block stop target next _ _ ht _ ih =>
    have hn : b = block → ¬∃ cond ifTrue ifFalse,
        r.func.terminator? b = some (.branch cond ifTrue ifFalse) := by
      rintro rfl ⟨cond, ifTrue, ifFalse, hbra⟩
      rw [ht] at hbra
      cases hbra
    simp only [Itinerary.sites, Itinerary.entered, List.mem_cons, ih]
    refine and_congr_left fun hbra => ?_
    exact ⟨.inr, fun hb => hb.resolve_left fun heq => hn heq hbra⟩
  | @fork active stop site arm rest hbr _ _ _ he _ ihT ihF ihRest =>
    have hr : (∃ site ∈ rest.sites, site.block = b) ↔ b ∈ rest.entered ∧
        ∃ cond ifTrue ifFalse, r.func.terminator? b = some (.branch cond ifTrue ifFalse) := by
      rcases he with ⟨-, rfl⟩ | ⟨j, hj, hjs⟩
      · simp [Itinerary.sites, Itinerary.entered]
      · exact ihRest j hj hjs
    simp only [Itinerary.sites, Itinerary.entered, List.mem_cons, List.mem_append, or_and_right,
      exists_or, ihT, ihF, hr, exists_eq_left]
    refine or_congr_left ⟨?_, fun hb => hb.1.symm⟩
    rintro rfl
    exact ⟨rfl, _, _, _, hbr.terminator⟩

theorem Follows.site_eq (h : r.Follows active block stop it) {site : BranchSite}
    (hs : site ∈ it.sites) :
    r.func.terminator? site.block = some (.branch site.cond site.ifTrue site.ifFalse) ∧
      site.join = r.postDominators.nearestCommon? site.ifTrue site.ifFalse := by
  induction h with
  | join | loop | ret => simp [Itinerary.sites] at hs
  | jump _ _ _ _ ih => exact ih hs
  | @fork active stop here arm rest hbr _ _ _ he _ ihT ihF ihRest =>
    simp only [Itinerary.sites, List.mem_cons, List.mem_append] at hs
    rcases hs with rfl | (hs | hs) | hs
    · exact ⟨hbr.terminator, hbr.join_eq⟩
    · exact ihT hs
    · exact ihF hs
    · rcases he with ⟨-, rfl⟩ | ⟨j, hj, hjs⟩
      · simp [Itinerary.sites] at hs
      · exact ihRest j hj hjs hs

theorem mem_entered_itinerary (ht : PostDominators.ofFunction r.func = .ok r.postDominators)
    (hfo : r.itinerary.Found) : b ∈ r.itinerary.entered ↔ r.func.Reaches r.func.entry b := by
  have hf : r.Follows [] r.func.entry none r.itinerary := follows_of_found hfo
  obtain ⟨he, hc⟩ := hf.covers
  have he : r.func.entry ∈ r.itinerary.entered := by simpa using he
  refine ⟨hf.reaches (PostDominators.climbs_of_ofFunction ht), fun hr => ?_⟩
  induction hr with
  | refl => exact he
  | @tail v w _ hed ih => simpa using hc v ih w hed

end Route

end Stagewise
