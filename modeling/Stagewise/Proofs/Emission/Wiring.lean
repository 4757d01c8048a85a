import Stagewise.Proofs.Emission.Coverage
import Stagewise.Proofs.Emission.Laying

namespace Stagewise

namespace Emission

variable {src : Source} {n : Nat} {s t : Emission} {scope : Scope}

/-- All slots are from and to one of the first `n` scopes, and carry what is there. -/
structure Backed (src : Source) (n : Nat) (s : Emission) : Prop where
  size : s.drafts.size = n
  values : ∀ slot ∈ s.ledger.values, slot.dst.val < n ∧ s.Has slot.src slot.source
  arrays : ∀ slot ∈ s.ledger.arrays,
    slot.src.val < n ∧ slot.dst.val < n ∧ slot.global < src.program.numGlobals

theorem Has.lt {i : InstId} (h : s.Has scope i) : scope.val < s.drafts.size := by
  obtain ⟨d, v, hd, -⟩ := h
  exact (Array.getElem?_eq_some_iff.mp hd).1

theorem Sound.backed {blocks : List BlockId} (hsr : src.Classified n) (hs : s.Sound src n blocks)
    (hst : s.Stocked src) (hv : ∀ x : Scope, x.val < n → (s.log x).Visited src x blocks) :
    s.Backed src n := by
  refine ⟨hs.size, fun slot hsl => ?_, hs.arrays⟩
  obtain ⟨hd, hlt, ⟨b, hb, hi⟩, hsc | hra⟩ := hs.values slot hsl
  · exact ⟨hd, (hst _ _ ((hv slot.src hlt).made b hb _ hi hsc)).1⟩
  · obtain ⟨_, _, _, x, _, _, _, hsc, _⟩ := id hra
    have hx := hsr.within.scope_lt (.inst _) x (Classification.usedScope_eq_some hsc)
    exact ⟨hd, (hst _ _ ((hv x hx).made b hb _ hi hsc)).2 _ hra⟩

theorem Backed.lays (h : s.Backed src n) (hl : s.Lays t) : t.Backed src n := by
  obtain ⟨hv, ha⟩ := hl.slots
  refine ⟨hl.grows.size.trans h.size, fun slot hs => ?_, ha ▸ h.arrays⟩
  obtain ⟨hlt, hh⟩ := h.values slot (hv ▸ hs)
  exact ⟨hlt, hl.grows.has _ _ hh⟩

theorem Backed.backs (h : s.Backed src n) {l : TransferLayout}
    (hne : ¬(s.ledger.valuesOf s.types l.key = [] ∧ s.ledger.arraysOf s.types l.key = [])) :
    src.Backs l (s.ledger.valuesOf s.types l.key) (s.ledger.arraysOf s.types l.key) s := by
  have hva : ∀ slot ∈ s.ledger.valuesOf s.types l.key,
      l.dst.val < s.drafts.size ∧ s.Has l.src slot.source := by
    intro slot hsl
    obtain ⟨hm, hk⟩ := List.mem_filter.mp hsl
    obtain ⟨hd, hh⟩ := h.values slot hm
    rw [h.size, ← show slot.dst = l.dst from congrArg RecordKey.dst (beq_iff_eq.mp hk),
      ← show slot.src = l.src from congrArg RecordKey.src (beq_iff_eq.mp hk)]
    exact ⟨hd, hh⟩
  have har : ∀ slot ∈ s.ledger.arraysOf s.types l.key, l.src.val < s.drafts.size ∧
      l.dst.val < s.drafts.size ∧ slot.global < src.program.numGlobals := by
    intro slot hsl
    obtain ⟨hm, hk⟩ := List.mem_filter.mp hsl
    rw [h.size, ← show slot.dst = l.dst from congrArg RecordKey.dst (beq_iff_eq.mp hk),
      ← show slot.src = l.src from congrArg RecordKey.src (beq_iff_eq.mp hk)]
    exact h.arrays slot hm
  have hlt : l.src.val < s.drafts.size ∧ l.dst.val < s.drafts.size := by
    rcases hv : s.ledger.valuesOf s.types l.key with _ | ⟨slot, rest⟩
    · rcases ha : s.ledger.arraysOf s.types l.key with _ | ⟨slot, rest⟩
      · exact absurd ⟨hv, ha⟩ hne
      · exact ⟨(har slot (by simp [ha])).1, (har slot (by simp [ha])).2.1⟩
    · exact ⟨(hva slot (by simp [hv])).2.lt, (hva slot (by simp [hv])).1⟩
  exact ⟨hlt.1, hlt.2, fun slot hs => (hva slot hs).2, fun slot hs => (har slot hs).2.2⟩

end Emission

namespace Source

open Emission

variable {src : Source} {n : Nat} {s : Emission}

theorem sat_layOutAll (hs : s.Backed src n) (records : List (RecordKey × String)) :
    Act.Sat Act.Never (src.layOutAll records) s fun _ t => t.Backed src n := by
  unfold layOutAll
  simp only [Act.sat_bind, Act.sat_pure]
  refine (Act.sat_mapM (R := fun _ _ => True) (P := fun t => t.Backed src n) hs
    fun r _ t ht => ?_).mono fun _ _ h => h.1
  refine (sat_layOut (.inr fun hne l hl => ?_)).mono fun _ _ h => ⟨ht.lays h.lays, trivial⟩
  rw [← hl] at hne ⊢
  exact ht.backs hne

end Source

end Stagewise
