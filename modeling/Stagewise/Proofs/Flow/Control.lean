import Stagewise.Proofs.Flow.PostDominance
import Stagewise.Proofs.Splitting

namespace Stagewise

namespace PostDominators

variable {f : Function} {t : PostDominators} {b p u arm : BlockId}

theorem Exact.mem_chainWithin (ht : t.Exact f) {stop : Option BlockId} {fuel : Nat}
    (h : t.Above u b) (hb : f.CanReturn b) (hu : u ≠ f.exitNode) (hf : f.place b < fuel)
    (hs : ∀ s, stop = some s → ¬t.Above u s) : u ∈ t.chainWithin stop fuel b := by
  induction fuel generalizing b with
  | zero => omega
  | succ fuel ih =>
    have hne : some b ≠ stop := fun he => hs b he.symm h
    simp only [chainWithin, if_neg hne]
    cases h with
    | here => simp
    | @up _ v hv ha =>
      have hbe : b ≠ f.exitNode := by
        rintro rfl
        exact hu (ht.spans.above_exitNode (.up hv ha))
      have hve : v ≠ f.exitNode := by
        rintro rfl
        exact hu (ht.spans.above_exitNode ha)
      have hi : t.immediate? b = some v := by
        rw [immediate?, hv]
        exact ht.block?_eq_some_iff.mpr ⟨rfl, hve⟩
      have hp := ht.spans.earlier hv hbe
      have hc := ht.spans.canReturn_of_isSome (ht.spans.parent_placed hv)
      have hm := ih ha hc (by omega)
      simp only [hi, Option.elim_some, List.mem_cons]
      exact .inr hm

theorem Exact.mem_decided (hr : f.TargetsInRange) (ht : t.Exact f)
    (har : arm ∈ f.exitSuccessors p) (h : f.PostDominates u arm) (hu : u ≠ f.exitNode)
    (hn : u ≠ p → ¬f.PostDominates u p) : u ∈ t.decided p arm := by
  have hc : f.CanReturn arm := h.1
  have hp : f.CanReturn p := .step (by simp) har hc
  have hpe : p ≠ f.exitNode := by
    rintro rfl
    simp [Function.exitSuccessors_exitNode] at har
  have hpl := f.place_le hr hc
  have hsi := ht.spans.size
  refine ht.mem_chainWithin ((ht.above_iff u arm hc).mpr h) hc hu (by omega) ?_
  intro s hs ha
  obtain ⟨hpa, -⟩ := ht.parent?_of_immediate? hs
  have hup : t.Above u p := .up hpa ha
  have he := ht.spans.earlier hpa hpe
  have hle := ht.spans.place_le_of_above ha
  have hne : u ≠ p := by
    rintro rfl
    omega
  exact hn hne ((ht.above_iff u p hp).mp hup)

end PostDominators

namespace Function

variable {f : Function} {b p u : BlockId}

def LoopFree (f : Function) : Prop :=
  ∀ b, ¬Relation.TransGen (fun v w => w ∈ f.successors v) b b

def Terminated (f : Function) : Prop := ∀ b < f.numBlocks, f.isTerminated b = true

instance (f : Function) : Decidable f.Terminated :=
  inferInstanceAs (Decidable (∀ b < f.numBlocks, f.isTerminated b = true))

theorem mem_successors_lt (h : u ∈ f.successors b) : b < f.numBlocks :=
  mem_exitSuccessors_lt (mem_exitSuccessors_of_mem_successors h)

theorem loopFree_of_forward (h : ∀ b < f.numBlocks, ∀ w ∈ f.successors b, b < w) : f.LoopFree := by
  have key : ∀ v w, Relation.TransGen (fun v w => w ∈ f.successors v) v w → v < w := by
    intro v w hvw
    induction hvw with
    | single hw => exact h v (mem_successors_lt hw) _ hw
    | tail _ hw ih => exact Nat.lt_trans ih (h _ (mem_successors_lt hw) _ hw)
  intro b hb
  exact absurd (key b b hb) (Nat.lt_irrefl _)

theorem LoopFree.exists_rank (hf : f.LoopFree) (hr : f.TargetsInRange) :
    ∃ rank : BlockId → Nat, ∀ v, ∀ w ∈ f.successors v, rank w < rank v := by
  classical
  let below (v : BlockId) : Finset BlockId := (Finset.range f.numBlocks).filter fun w =>
    Relation.TransGen (fun v w => w ∈ f.successors v) v w
  refine ⟨fun v => (below v).card, fun v w hw => Finset.card_lt_card ?_⟩
  refine ⟨fun x hx => ?_, fun hs => ?_⟩
  · obtain ⟨hlt, hx⟩ := Finset.mem_filter.mp hx
    exact Finset.mem_filter.mpr ⟨hlt, .head hw hx⟩
  · have hm : w ∈ below v :=
      Finset.mem_filter.mpr ⟨Finset.mem_range.mpr (hr v w hw), .single hw⟩
    exact hf w (Finset.mem_filter.mp (hs hm)).2

theorem LoopFree.canReturn (hf : f.LoopFree) (hr : f.TargetsInRange) (ht : f.Terminated)
    (hb : b < f.numBlocks) : f.CanReturn b := by
  obtain ⟨rank, hra⟩ := hf.exists_rank hr
  induction hn : rank b using Nat.strong_induction_on generalizing b with
  | _ n ih =>
    have hte := ht b hb
    obtain ⟨term, hte⟩ := Option.isSome_iff_exists.mp hte
    have hs : ∀ w ∈ f.successors b, f.CanReturn b := by
      intro w hw
      have hlt := hra b w hw
      have hc := ih (rank w) (by omega) (hr b w hw) rfl
      exact .step (by simp) (mem_exitSuccessors_of_mem_successors hw) hc
    cases term with
    | ret =>
      have he : f.exitSuccessors b = [f.exitNode] := by
        simp [exitSuccessors, returns, hte]
      exact .step (by simp) (by simp [he]) (.exit (by simp))
    | jump target => exact hs target (by simp [successors, hte, Terminator.successors])
    | branch cond ifTrue ifFalse =>
      exact hs ifTrue (by simp [successors, hte, Terminator.successors])

end Function

namespace Classifier

variable {p : Program} {f : Function} {strategy : Strategy} {t : PostDominators} {b q : BlockId}

theorem mem_parents_of_postDominates (hr : f.TargetsInRange) (ht : t.Exact f) {cond : Value}
    {ifTrue ifFalse arm : BlockId} (hte : f.terminator? q = some (.branch cond ifTrue ifFalse))
    (ha : arm = ifTrue ∨ arm = ifFalse) (hb : b < f.numBlocks) (h : f.PostDominates b arm)
    (hn : b ≠ q → ¬f.PostDominates b q) : q ∈ (classifierOf p f strategy t).parents b := by
  have hex : f.exitSuccessors q = [ifTrue, ifFalse] := by
    simp [Function.exitSuccessors, Function.returns, Function.successors, hte,
      Terminator.successors]
  have he : arm ∈ f.exitSuccessors q := by
    rw [hex]
    simpa using ha
  have hne : b ≠ f.exitNode := Nat.ne_of_lt hb
  have hm := ht.mem_decided hr he h hne hn
  refine mem_parents.mpr ⟨hb, Function.mem_exitSuccessors_lt he, ?_⟩
  simp only [Function.decidedBy, hte, List.mem_append]
  rcases ha with rfl | rfl
  · exact .inl hm
  · exact .inr hm

end Classifier

end Stagewise
