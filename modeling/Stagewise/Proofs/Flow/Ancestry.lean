import Stagewise.Proofs.Flow.ReturnOrder

namespace Stagewise

namespace Function

def place (f : Function) (v : Nat) : Nat := f.returnOrder.idxOf v

/-- There is a way to `u` on which all nodes before `u` have a property. -/
inductive Leads (f : Function) (p : Nat → Prop) (u : Nat) : Nat → Prop
  | here : Leads f p u u
  | step {v w : Nat} : p v → w ∈ f.exitSuccessors v → Leads f p u w → Leads f p u v

variable {f : Function} {p q : Nat → Prop} {a b u v w k : Nat}

theorem Leads.imp (h : f.Leads p u v) (hpq : ∀ x, p x → q x) : f.Leads q u v := by
  induction h with
  | here => exact .here
  | step hv hw _ ih => exact .step (hpq _ hv) hw ih

theorem Leads.trans (h : f.Leads p w v) (h' : f.Leads p u w) : f.Leads p u v := by
  induction h with
  | here => exact h'
  | step hv hw _ ih => exact .step hv hw ih

theorem Leads.escapes (h : f.Leads p u v) (hp : ¬p a) (hu : f.Escapes {a} u) :
    f.Escapes {a} v := by
  induction h with
  | here => exact hu
  | step hv hw _ ih =>
    refine .step ?_ hw ih
    rw [Finset.mem_singleton]
    rintro rfl
    exact hp hv

theorem EscapesIn.through (h : f.EscapesIn {a} k v) (b : Nat) :
    f.EscapesIn {b} k v ∨ f.EscapesIn {a} k b := by
  induction h with
  | exit hn =>
    by_cases hb : f.exitNode = b
    · exact .inr (hb ▸ .exit hn)
    · exact .inl (.exit (by simpa using hb))
  | @step k v w hv hw hw' ih =>
    by_cases hb : v = b
    · exact .inr (hb ▸ .step hv hw hw')
    · rcases ih with ih | ih
      · exact .inl (.step (by simpa using hb) hw ih)
      · exact .inr ih.succ

section

variable (hr : f.TargetsInRange)
include hr

theorem place_exitNode : f.place f.exitNode = 0 := by
  rw [place, returnOrder_eq_cons hr]
  simp

theorem place_inj (hv : f.CanReturn v) (h : f.place v = f.place w) : v = w := by
  exact (List.idxOf_inj ((mem_returnOrder hr).mpr hv)).mp h

theorem length_returnOrder_le : f.returnOrder.length ≤ f.numBlocks + 1 := by
  have hs : f.returnOrder ⊆ List.range (f.numBlocks + 1) := by
    intro x hx
    have := ((mem_returnOrder hr).mp hx).le_exitNode
    simp only [exitNode] at this
    simp
    omega
  have := ((nodup_returnOrder hr).subperm hs).length_le
  simpa using this

theorem place_le (hv : f.CanReturn v) : f.place v ≤ f.numBlocks := by
  have hlt := List.idxOf_lt_length_of_mem ((mem_returnOrder hr).mpr hv)
  have hle := length_returnOrder_le hr
  unfold place
  omega

end

end Function

namespace PostDominators

/-- The node `a` is `v` or lies above it in the tree. -/
inductive Above (t : PostDominators) (a : Nat) : Nat → Prop
  | here : Above t a a
  | up {v u : Nat} : t.parent? v = some u → Above t a u → Above t a v

/-- A tree over the nodes of a function that can return, ordered as in the search. -/
structure Spans (t : PostDominators) (f : Function) : Prop where
  size : t.parent.size = f.numBlocks + 1
  position : ∀ v ≤ f.exitNode, t.positionOf v = f.place v
  root : t.parent? f.exitNode = some f.exitNode
  canReturn : ∀ {v u}, t.parent? v = some u → f.CanReturn v
  parent_placed : ∀ {v u}, t.parent? v = some u → (t.parent? u).isSome
  earlier : ∀ {v u}, t.parent? v = some u → v ≠ f.exitNode → f.place u < f.place v
  way : ∀ {v u}, t.parent? v = some u → v ≠ f.exitNode →
    f.Leads (fun x => f.place u < f.place x) u v

variable {f : Function} {t : PostDominators} {a b u v w x m k : Nat}

/-- Two climbs come together at a node. Each step is made from the node that is later in the order,
to its parent. -/
inductive Meets (t : PostDominators) : Nat → Nat → Nat → Prop
  | here {a : Nat} : Meets t a a a
  | left {a b up m : Nat} : t.positionOf b < t.positionOf a → t.parent? a = some up →
      Meets t up b m → Meets t a b m
  | right {a b up m : Nat} : t.positionOf a < t.positionOf b → t.parent? b = some up →
      Meets t a up m → Meets t a b m

theorem Above.trans (h : t.Above b v) (h' : t.Above a b) : t.Above a v := by
  induction h with
  | here => exact h'
  | up hu _ ih => exact .up hu ih

namespace Spans

theorem canReturn_of_isSome (hs : t.Spans f) (hv : (t.parent? v).isSome) : f.CanReturn v := by
  obtain ⟨u, hu⟩ := Option.isSome_iff_exists.mp hv
  exact hs.canReturn hu

theorem placed_of_above (hs : t.Spans f) (h : t.Above a v) (hv : (t.parent? v).isSome) :
    (t.parent? a).isSome := by
  induction h with
  | here => exact hv
  | up hu _ ih => exact ih (hs.parent_placed hu)

theorem above_exitNode (hs : t.Spans f) (h : t.Above a f.exitNode) : a = f.exitNode := by
  generalize he : f.exitNode = e at h
  induction h with
  | here => rfl
  | up hu _ ih =>
    subst he
    rw [hs.root] at hu
    have hu := Option.some.inj hu
    exact (ih hu).trans hu.symm

theorem place_le_of_above (hs : t.Spans f) (h : t.Above a v) : f.place a ≤ f.place v := by
  induction h with
  | here => exact le_rfl
  | @up v u hu hau ih =>
    by_cases hv : v = f.exitNode
    · have := hs.above_exitNode (hv ▸ Above.up hu hau)
      simp [this, hv]
    · exact ih.trans (hs.earlier hu hv).le

theorem above_antisymm (hr : f.TargetsInRange) (hs : t.Spans f) (hv : (t.parent? v).isSome)
    (h : t.Above a v) (h' : t.Above v a) : a = v :=
  (f.place_inj hr (hs.canReturn_of_isSome hv)
    (le_antisymm (hs.place_le_of_above h') (hs.place_le_of_above h))).symm

theorem leads_of_above (hs : t.Spans f) (h : t.Above a v) :
    f.Leads (fun x => f.place a < f.place x) a v := by
  induction h with
  | here => exact .here
  | @up v u hu hau ih =>
    by_cases hv : v = f.exitNode
    · have ha : a = f.exitNode := hs.above_exitNode (hv ▸ Above.up hu hau)
      rw [ha, hv]
      exact .here
    · have hle := hs.place_le_of_above hau
      exact ((hs.way hu hv).imp fun x hx => lt_of_le_of_lt hle hx).trans ih

/-- Two climbs come together with enough fuel, since each step goes to an earlier place. -/
theorem meets_meetWithin (hr : f.TargetsInRange) (hs : t.Spans f) {fuel : Nat}
    (ha : (t.parent? a).isSome) (hb : (t.parent? b).isSome)
    (hf : f.place a + f.place b < fuel) : t.Meets a b (t.meetWithin fuel a b) := by
  induction fuel generalizing a b with
  | zero => omega
  | succ fuel ih =>
    have hca := hs.canReturn_of_isSome ha
    have hcb := hs.canReturn_of_isSome hb
    have hpa := hs.position a hca.le_exitNode
    have hpb := hs.position b hcb.le_exitNode
    have he := f.place_exitNode hr
    obtain ⟨ua, hua⟩ := Option.isSome_iff_exists.mp ha
    obtain ⟨ub, hub⟩ := Option.isSome_iff_exists.mp hb
    simp only [meetWithin, hua, hub]
    split
    · next hab =>
      subst hab
      exact .here
    · next hab =>
      split
      · next hlt =>
        have hne : a ≠ f.exitNode := by
          rintro rfl
          omega
        have hup := hs.earlier hua hne
        exact .left hlt hua (ih (hs.parent_placed hua) hb (by omega))
      · next hle =>
        -- two different nodes of the order are not at the same place
        have hp : f.place a ≠ f.place b := fun h => hab (f.place_inj hr hca h)
        have hlt : t.positionOf a < t.positionOf b := by omega
        have hne : b ≠ f.exitNode := by
          rintro rfl
          omega
        have hup := hs.earlier hub hne
        exact .right hlt hub (ih ha (hs.parent_placed hub) (by omega))

theorem above_of_meets (hs : t.Spans f) (h : t.Meets a b m) (ha : (t.parent? a).isSome)
    (hb : (t.parent? b).isSome) :
    (t.parent? m).isSome ∧ ∀ x, t.Above x m ↔ t.Above x a ∧ t.Above x b := by
  have hpl : ∀ {v : Nat}, (t.parent? v).isSome → t.positionOf v = f.place v := fun hv =>
    hs.position _ (hs.canReturn_of_isSome hv).le_exitNode
  induction h with
  | here => exact ⟨ha, fun x => by simp⟩
  | left hlt hu _ ih =>
    obtain ⟨hse, hi⟩ := ih (hs.parent_placed hu) hb
    refine ⟨hse, fun x => (hi x).trans ⟨fun h => ⟨.up hu h.1, h.2⟩, fun h => ⟨?_, h.2⟩⟩⟩
    have hx := hs.place_le_of_above h.2
    rw [hpl ha, hpl hb] at hlt
    cases h.1 with
    | here => omega
    | up hu' h => exact Option.mem_unique hu hu' ▸ h
  | right hlt hu _ ih =>
    obtain ⟨hse, hi⟩ := ih ha (hs.parent_placed hu)
    refine ⟨hse, fun x => (hi x).trans ⟨fun h => ⟨h.1, .up hu h.2⟩, fun h => ⟨h.1, ?_⟩⟩⟩
    have hx := hs.place_le_of_above h.1
    rw [hpl ha, hpl hb] at hlt
    cases h.2 with
    | here => omega
    | up hu' h => exact Option.mem_unique hu hu' ▸ h

theorem meetWithin_above (hr : f.TargetsInRange) (hs : t.Spans f) {fuel : Nat}
    (ha : (t.parent? a).isSome) (hb : (t.parent? b).isSome)
    (hf : f.place a + f.place b < fuel) :
    (t.parent? (t.meetWithin fuel a b)).isSome ∧
      ∀ x, t.Above x (t.meetWithin fuel a b) ↔ t.Above x a ∧ t.Above x b :=
  hs.above_of_meets (hs.meets_meetWithin hr ha hb hf) ha hb

theorem meet_above (hr : f.TargetsInRange) (hs : t.Spans f)
    (ha : (t.parent? a).isSome) (hb : (t.parent? b).isSome) :
    (t.parent? (t.meet a b)).isSome ∧
      ∀ x, t.Above x (t.meet a b) ↔ t.Above x a ∧ t.Above x b := by
  refine hs.meetWithin_above hr ha hb ?_
  have := f.place_le hr (hs.canReturn_of_isSome ha)
  have := f.place_le hr (hs.canReturn_of_isSome hb)
  rw [hs.size]
  omega

/-- Above the meet of some nodes stands what stands above all of them that are placed. -/
theorem meetAll_above (hr : f.TargetsInRange) (hs : t.Spans f) {nodes : List Nat}
    (h : t.meetAll nodes = some m) :
    (t.parent? m).isSome ∧
      ∀ x, t.Above x m ↔ ∀ w ∈ nodes, (t.parent? w).isSome → t.Above x w := by
  have key : ∀ (ws : List Nat) (found : Option Nat),
      (∀ w ∈ ws, (t.parent? w).isSome) → (∀ y, found = some y → (t.parent? y).isSome) →
      ws.foldl (fun found v => some (found.elim v (t.meet v))) found = some m →
      (t.parent? m).isSome ∧ ∀ x, t.Above x m ↔
        (∀ y, found = some y → t.Above x y) ∧ ∀ w ∈ ws, t.Above x w := by
    intro ws
    induction ws with
    | nil =>
      rintro found - hf rfl
      exact ⟨hf m rfl, fun x => by simp⟩
    | cons w ws ih =>
      intro found hws hf hm
      rw [List.foldl_cons] at hm
      have hw := hws w (by simp)
      cases found with
      | none =>
        obtain ⟨hse, hi⟩ := ih _ (fun y hy => hws y (by simp [hy])) (by simpa using hw) hm
        refine ⟨hse, fun x => (hi x).trans ?_⟩
        simp
      | some y =>
        obtain ⟨hms, hmi⟩ := hs.meet_above hr hw (hf y rfl)
        obtain ⟨hse, hi⟩ := ih _ (fun y hy => hws y (by simp [hy])) (by simpa using hms) hm
        refine ⟨hse, fun x => (hi x).trans ?_⟩
        simp [hmi]
        tauto
  obtain ⟨hse, hi⟩ := key _ none (by simp) (by simp) h
  refine ⟨hse, fun x => (hi x).trans ?_⟩
  simp

theorem meetAll_isSome {nodes : List Nat} (hw : w ∈ nodes) (hs : (t.parent? w).isSome) :
    (t.meetAll nodes).isSome := by
  have key : ∀ (ws : List Nat) (found : Option Nat), found.isSome ∨ ws ≠ [] →
      (ws.foldl (fun found v => some (found.elim v (t.meet v))) found).isSome := by
    intro ws
    induction ws with
    | nil => simp
    | cons w ws ih => exact fun _ _ => ih _ (.inl rfl)
  refine key _ none (.inr ?_)
  exact List.ne_nil_of_mem (List.mem_filter.mpr ⟨hw, hs⟩)

end Spans

def Complete (t : PostDominators) (f : Function) : Prop :=
  ∀ a v, (t.parent? v).isSome → f.PostDominates a v → t.Above a v

def Sharp (t : PostDominators) (f : Function) (k v : Nat) : Prop :=
  ∀ a, t.Above a v → ¬f.EscapesIn {a} k v

/-- A tree and the one with a new parent `m` of the block `v`, where the successors of `v` meet. -/
structure Raised (f : Function) (t t' : PostDominators) (v m : Nat) : Prop where
  lt : v < f.numBlocks
  canReturn : f.CanReturn v
  meets : t.meetAll (f.exitSuccessors v) = some m
  via : ∃ w ∈ f.exitSuccessors v, (t.parent? w).isSome ∧ f.place w < f.place v
  size : t'.parent.size = t.parent.size
  position : t'.position = t.position
  parent : ∀ x, t'.parent? x = if x = v then some m else t.parent? x

theorem refine_raised (hs : t.Spans f) (hv : v < f.numBlocks) (hc : f.CanReturn v)
    (hw : ∃ w ∈ f.exitSuccessors v, (t.parent? w).isSome ∧ f.place w < f.place v) :
    ∃ m, Raised f t (refine f t v) v m := by
  obtain ⟨w, hw, hse, -⟩ := id hw
  obtain ⟨m, hm⟩ := Option.isSome_iff_exists.mp (Spans.meetAll_isSome hw hse)
  have hr : refine f t v = { t with parent := t.parent.setIfInBounds v (some m) } := by
    simp [refine, hm]
  refine ⟨m, hv, hc, hm, by assumption, by simp [hr], by simp [hr], fun x => ?_⟩
  have hlt : v < t.parent.size := by rw [hs.size]; omega
  rw [hr]
  simp only [parent?, Array.getElem?_setIfInBounds]
  by_cases hx : v = x
  · subst hx
    simp [hlt]
  · have hx' : x ≠ v := fun h => hx h.symm
    simp [hx, hx']

namespace Raised

variable {t' : PostDominators}

theorem target (hr : f.TargetsInRange) (hs : t.Spans f) (h : Raised f t t' v m) :
    (t.parent? m).isSome ∧ f.place m < f.place v ∧
      ∀ x, t.Above x m ↔ ∀ w ∈ f.exitSuccessors v, (t.parent? w).isSome → t.Above x w := by
  obtain ⟨hse, hi⟩ := hs.meetAll_above hr h.meets
  obtain ⟨w, hw, hws, hlt⟩ := h.via
  have := hs.place_le_of_above ((hi m).mp .here w hw hws)
  exact ⟨hse, by omega, hi⟩

theorem placed_iff (h : Raised f t t' v m) :
    (t'.parent? x).isSome ↔ x = v ∨ (t.parent? x).isSome := by
  rw [h.parent]
  by_cases hx : x = v <;> simp [hx]

theorem above_of_place_lt (hs : t.Spans f) (h : Raised f t t' v m) (hx : f.place x < f.place v) :
    t'.Above a x ↔ t.Above a x := by
  have hle : ∀ {y u}, t.parent? y = some u → f.place u ≤ f.place y := fun hu =>
    hs.place_le_of_above (.up hu .here)
  constructor
  · intro ha
    induction ha with
    | here => exact .here
    | @up y u hu _ ih =>
      have hy : y ≠ v := by rintro rfl; omega
      rw [h.parent, if_neg hy] at hu
      exact .up hu (ih (lt_of_le_of_lt (hle hu) hx))
  · intro ha
    induction ha with
    | here => exact .here
    | @up y u hu _ ih =>
      have hy : y ≠ v := by rintro rfl; omega
      have hu' : t'.parent? y = some u := by rw [h.parent, if_neg hy, hu]
      exact .up hu' (ih (lt_of_le_of_lt (hle hu) hx))

theorem above_self (hr : f.TargetsInRange) (hs : t.Spans f) (h : Raised f t t' v m) :
    t'.Above a v ↔ a = v ∨ t.Above a m := by
  have hm := (h.target hr hs).2.1
  constructor
  · intro ha
    cases ha with
    | here => exact .inl rfl
    | up hu ha =>
      rw [h.parent, if_pos rfl] at hu
      obtain rfl := Option.some.inj hu
      exact .inr ((h.above_of_place_lt hs hm).mp ha)
  · rintro (rfl | ha)
    · exact .here
    · exact .up (by rw [h.parent, if_pos rfl]) ((h.above_of_place_lt hs hm).mpr ha)

theorem above_cases (h : Raised f t t' v m) (ha : t'.Above a x) :
    t.Above a x ∨ t.Above v x ∧ t'.Above a v := by
  induction ha with
  | here => exact .inl .here
  | @up y u hu ha ih =>
    by_cases hy : y = v
    · subst hy
      exact .inr ⟨.here, .up hu ha⟩
    · rw [h.parent, if_neg hy] at hu
      exact ih.imp (fun ih => .up hu ih) (fun ih => ⟨.up hu ih.1, ih.2⟩)

theorem above_keeps (h : Raised f t t' v m) (ha : t.Above a x) :
    t'.Above a x ∨ t.Above v x ∧ t'.Above v x ∧ t.Above a v := by
  induction ha with
  | here => exact .inl .here
  | @up y u hu ha ih =>
    by_cases hy : y = v
    · subst hy
      exact .inr ⟨.here, .here, .up hu ha⟩
    · have hu' : t'.parent? y = some u := by rw [h.parent, if_neg hy, hu]
      exact ih.imp (fun ih => .up hu' ih) (fun ih => ⟨.up hu ih.1, .up hu' ih.2.1, ih.2.2⟩)

/-- Raising a block to where its successors meet leaves a tree that spans the function. -/
theorem spans (hr : f.TargetsInRange) (hs : t.Spans f) (h : Raised f t t' v m) : t'.Spans f := by
  obtain ⟨hm, hml, hmi⟩ := h.target hr hs
  have hne : f.exitNode ≠ v := by
    have := h.lt
    simp only [Function.exitNode]
    omega
  refine ⟨h.size.trans hs.size, ?_, ?_, ?_, ?_, ?_, ?_⟩
  · intro x hx
    rw [← hs.position x hx]
    simp [positionOf, h.position]
  · rw [h.parent, if_neg hne, hs.root]
  · intro x u hu
    rw [h.parent] at hu
    split at hu
    · next hx => exact hx ▸ h.canReturn
    · exact hs.canReturn hu
  · intro x u hu
    rw [h.placed_iff]
    rw [h.parent] at hu
    split at hu
    · exact .inr (Option.some.inj hu ▸ hm)
    · exact .inr (hs.parent_placed hu)
  · intro x u hu hx
    rw [h.parent] at hu
    split at hu
    · next hxv =>
      rw [hxv, ← Option.some.inj hu]
      exact hml
    · exact hs.earlier hu hx
  · intro x u hu hx
    rw [h.parent] at hu
    split at hu
    · next hxv =>
      obtain ⟨w, hw, hws, -⟩ := h.via
      rw [hxv, ← Option.some.inj hu]
      exact .step hml hw (hs.leads_of_above ((hmi m).mp .here w hw hws))
    · exact hs.way hu hx

theorem complete (hr : f.TargetsInRange) (hs : t.Spans f) (h : Raised f t t' v m)
    (hc : t.Complete f) : t'.Complete f := by
  obtain ⟨-, hml, hm⟩ := h.target hr hs
  have hse : ∀ a, f.PostDominates a v → t'.Above a v := by
    intro a ha
    rw [h.above_self hr hs]
    by_cases hav : a = v
    · exact .inl hav
    · refine .inr ((hm a).mpr fun w hw hset => hc a w hset ?_)
      exact ha.next hav hw (hs.canReturn_of_isSome hset)
  intro a x hx ha
  by_cases hxv : x = v
  · exact hxv ▸ hse a (hxv ▸ ha)
  · have hset : (t.parent? x).isSome := (h.placed_iff.mp hx).resolve_left hxv
    rcases h.above_keeps (hc a x hset ha) with hax | ⟨hvx, hvx', hav⟩
    · exact hax
    · -- A way from `x` to `v` stays after `v` in the order, so it avoids `a`.
      refine hvx'.trans (hse a ⟨h.canReturn, fun he => ha.2 ?_⟩)
      have hle := hs.place_le_of_above hav
      exact (hs.leads_of_above hvx).escapes (by omega) he

theorem sharp_self (hr : f.TargetsInRange) (hs : t.Spans f) (h : Raised f t t' v m)
    (hsh : ∀ x, (t.parent? x).isSome → t.Sharp f k x)
    (hf : ∀ a w, f.EscapesIn {a} k w → (t.parent? w).isSome) : t'.Sharp f (k + 1) v := by
  intro a ha he
  cases he with
  | exit _ => exact absurd h.lt (lt_irrefl _)
  | @step _ _ w hva hw he =>
    rw [h.above_self hr hs] at ha
    have ham : t.Above a m := ha.resolve_left fun hav => hva (by simp [hav])
    have hse := hf a w he
    exact hsh w hse a (((h.target hr hs).2.2 a).mp ham w hw hse) he

theorem sharp_other (h : Raised f t t' v m) {j : Nat} (hj : j ≤ k + 1)
    (hv : t'.Sharp f (k + 1) v) (hx : t.Sharp f j x) : t'.Sharp f j x := by
  intro a ha he
  rcases h.above_cases ha with ha | ⟨hvx, hav⟩
  · exact hx a ha he
  · rcases he.through v with he | he
    · exact hx v hvx he
    · exact hv a hav (he.le hj)

end Raised

end PostDominators

end Stagewise
