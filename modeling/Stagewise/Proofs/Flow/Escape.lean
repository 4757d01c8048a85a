import Mathlib.Data.Finset.Card
import Mathlib.Tactic.Common
import Stagewise.Flow.PostDominators

namespace Stagewise

namespace Function

def TargetsInRange (f : Function) : Prop :=
  ∀ b c, c ∈ f.successors b → c < f.numBlocks

/-- There is a way from a node to the virtual exit that avoids a set of nodes. -/
inductive Escapes (f : Function) (A : Finset Nat) : Nat → Prop
  | exit : f.exitNode ∉ A → Escapes f A f.exitNode
  | step {v w : Nat} : v ∉ A → w ∈ f.exitSuccessors v → Escapes f A w → Escapes f A v

/-- There is a way of at most `k` edges that avoids a set of nodes. -/
inductive EscapesIn (f : Function) (A : Finset Nat) : Nat → Nat → Prop
  | exit {k : Nat} : f.exitNode ∉ A → EscapesIn f A k f.exitNode
  | step {k v w : Nat} : v ∉ A → w ∈ f.exitSuccessors v → EscapesIn f A k w →
      EscapesIn f A (k + 1) v

def CanReturn (f : Function) (v : Nat) : Prop := f.Escapes ∅ v

/-- Every way from `v` to the virtual exit goes through `a`, and there is one. -/
def PostDominates (f : Function) (a v : Nat) : Prop := f.CanReturn v ∧ ¬f.Escapes {a} v

variable {f : Function} {A B : Finset Nat} {a b v w k : Nat}

theorem exitSuccessors_exitNode : f.exitSuccessors f.exitNode = [] := by
  have h : f.terminator? f.exitNode = none := by simp [terminator?, exitNode, numBlocks]
  simp [exitSuccessors, returns, successors, h]

theorem mem_exitSuccessors_lt (h : w ∈ f.exitSuccessors v) : v < f.numBlocks := by
  by_contra hv
  have hn : f.terminator? v = none := by
    simp only [terminator?, numBlocks] at *
    simp [Array.getElem?_eq_none (by omega : f.blocks.size ≤ v)]
  simp [exitSuccessors, returns, successors, hn] at h

theorem mem_exitSuccessors_le (hr : f.TargetsInRange) (h : w ∈ f.exitSuccessors v) :
    w ≤ f.exitNode := by
  unfold exitSuccessors at h
  split at h
  · simp only [List.mem_singleton] at h
    omega
  · exact Nat.le_of_lt (hr v w h)

theorem mem_exitSuccessors_of_mem_successors (h : w ∈ f.successors v) :
    w ∈ f.exitSuccessors v := by
  unfold exitSuccessors
  split
  · next hr =>
    have ht : f.terminator? v = some .ret := by simpa [returns] using hr
    simp [successors, ht, Terminator.successors] at h
  · exact h

theorem mem_successors_of_mem_exitSuccessors (hw : w ≠ f.exitNode)
    (h : w ∈ f.exitSuccessors v) : w ∈ f.successors v := by
  unfold exitSuccessors at h
  split at h
  · exact absurd (by simpa using h) hw
  · exact h

section

variable (h : f.Escapes A v)
include h

theorem Escapes.mono (hB : B ⊆ A) : f.Escapes B v := by
  induction h with
  | exit hn => exact .exit fun hm => hn (hB hm)
  | step hv hw _ ih => exact .step (fun hm => hv (hB hm)) hw ih

theorem Escapes.canReturn : f.CanReturn v := h.mono (Finset.empty_subset A)

theorem Escapes.notMem : v ∉ A := by
  cases h with
  | exit hn => exact hn
  | step hv _ _ => exact hv

theorem Escapes.le_exitNode : v ≤ f.exitNode := by
  cases h with
  | exit _ => exact le_rfl
  | step _ hw _ => exact Nat.le_of_lt (mem_exitSuccessors_lt hw)

theorem Escapes.cut (b : Nat) :
    f.Escapes (insert b A) v ∨ b = f.exitNode ∨
      ∃ w ∈ f.exitSuccessors b, f.Escapes (insert b A) w := by
  induction h with
  | exit hn =>
    by_cases hb : b = f.exitNode
    · exact .inr (.inl hb)
    · refine .inl (.exit ?_)
      simp only [Finset.mem_insert, not_or]
      exact ⟨fun h => hb h.symm, hn⟩
  | @step v w hv hw _ ih =>
    rcases ih with ih | ih | ih
    · by_cases hb : v = b
      · subst hb
        exact .inr (.inr ⟨w, hw, ih⟩)
      · exact .inl (.step (by simp [hb, hv]) hw ih)
    · exact .inr (.inl ih)
    · exact .inr (.inr ih)

theorem Escapes.through (b : Nat) : f.Escapes (insert b A) v ∨ f.Escapes A b := by
  induction h with
  | exit hn =>
    by_cases hb : b = f.exitNode
    · subst hb
      exact .inr (.exit hn)
    · refine .inl (.exit ?_)
      simp only [Finset.mem_insert, not_or]
      exact ⟨fun h => hb h.symm, hn⟩
  | @step v w hv hw hw' ih =>
    rcases ih with ih | ih
    · by_cases hb : v = b
      · subst hb
        exact .inr (.step hv hw hw')
      · exact .inl (.step (by simp [hb, hv]) hw ih)
    · exact .inr ih

end

section

variable (h : f.EscapesIn A k v)
include h

theorem EscapesIn.mono (hB : B ⊆ A) : f.EscapesIn B k v := by
  induction h with
  | exit hn => exact .exit fun hm => hn (hB hm)
  | step hv hw _ ih => exact .step (fun hm => hv (hB hm)) hw ih

theorem EscapesIn.succ : f.EscapesIn A (k + 1) v := by
  induction h with
  | exit hn => exact .exit hn
  | step hv hw _ ih => exact .step hv hw ih

theorem EscapesIn.le {l : Nat} (hl : k ≤ l) : f.EscapesIn A l v := by
  induction hl with
  | refl => exact h
  | step _ ih => exact ih.succ

theorem EscapesIn.escapes : f.Escapes A v := by
  induction h with
  | exit hn => exact .exit hn
  | step hv hw _ ih => exact .step hv hw ih

end

/-- A way around a set need not be longer than there are nodes outside of the set. -/
theorem Escapes.bounded (hA : A ⊆ Finset.range (f.numBlocks + 1))
    (h : f.Escapes A v) : f.EscapesIn A (f.numBlocks + 1 - A.card) v := by
  generalize hm : f.numBlocks + 1 - A.card = m
  induction m generalizing A v with
  | zero =>
    have hv : v ∈ Finset.range (f.numBlocks + 1) := by
      have := h.le_exitNode
      simp only [exitNode] at this
      simp
      omega
    have hc : (insert v A).card ≤ (Finset.range (f.numBlocks + 1)).card :=
      Finset.card_le_card (Finset.insert_subset hv hA)
    rw [Finset.card_insert_of_notMem h.notMem, Finset.card_range] at hc
    omega
  | succ m ih =>
    have hv : v ∈ Finset.range (f.numBlocks + 1) := by
      have := h.le_exitNode
      simp only [exitNode] at this
      simp
      omega
    have hs : insert v A ⊆ Finset.range (f.numBlocks + 1) := Finset.insert_subset hv hA
    have hc := Finset.card_insert_of_notMem h.notMem
    cases h with
    | exit hn => exact .exit hn
    | @step _ w hn hw hw' =>
      have hne : ∃ w ∈ f.exitSuccessors v, f.Escapes (insert v A) w := by
        rcases hw'.cut v with h' | h' | h'
        · exact ⟨w, hw, h'⟩
        · rw [h', exitSuccessors_exitNode] at hw
          simp at hw
        · exact h'
      obtain ⟨w, hw, hw'⟩ := hne
      have := ih hs hw' (by omega)
      exact .step hn hw (this.mono (Finset.subset_insert v A))

theorem Escapes.inAll (ha : a ≤ f.exitNode) (h : f.Escapes {a} v) :
    f.EscapesIn {a} f.numBlocks v := by
  have := h.bounded (by simp only [exitNode] at ha; simp; omega)
  simpa using this

namespace PostDominates

theorem refl (h : f.CanReturn v) : f.PostDominates v v :=
  ⟨h, fun he => he.notMem (by simp)⟩

theorem trans {c : Nat} (h : f.PostDominates a b) (h' : f.PostDominates b c) :
    f.PostDominates a c := by
  refine ⟨h'.1, fun he => ?_⟩
  rcases he.through b with he | he
  · exact h'.2 (he.mono (by simp))
  · exact h.2 he

theorem next (h : f.PostDominates a v) (hne : a ≠ v) (hw : w ∈ f.exitSuccessors v)
    (hc : f.CanReturn w) : f.PostDominates a w :=
  ⟨hc, fun he => h.2 (.step (by simp; exact fun h => hne h.symm) hw he)⟩

theorem of_next (hv : f.CanReturn v) (hne : v ≠ f.exitNode)
    (h : ∀ w ∈ f.exitSuccessors v, f.CanReturn w → f.PostDominates a w) :
    f.PostDominates a v := by
  refine ⟨hv, fun he => ?_⟩
  cases he with
  | exit _ => exact hne rfl
  | step _ hw hw' => exact (h _ hw hw'.canReturn).2 hw'

theorem antisymm (h : f.PostDominates a b) (h' : f.PostDominates b a) : a = b := by
  by_contra hne
  have key : ∀ w, f.CanReturn w → f.Escapes {a} w ∨ f.Escapes {b} w := by
    intro w hw
    induction hw with
    | exit _ =>
      by_cases he : f.exitNode = a
      · exact .inr (.exit (by simp; omega))
      · exact .inl (.exit (by simpa using he))
    | @step w u _ hu _ ih =>
      rcases ih with ih | ih
      · by_cases he : w = a
        · rcases ih.through b with hb | hb
          · exact .inr (.step (by simp; omega) hu (hb.mono (by simp)))
          · exact absurd hb h.2
        · exact .inl (.step (by simpa using he) hu ih)
      · by_cases he : w = b
        · rcases ih.through a with ha | ha
          · exact .inl (.step (by simp; omega) hu (ha.mono (by simp)))
          · exact absurd ha h'.2
        · exact .inr (.step (by simpa using he) hu ih)
  rcases key b h.1 with h1 | h1
  · exact h.2 h1
  · exact h1.notMem (by simp)

end PostDominates

end Function

end Stagewise
