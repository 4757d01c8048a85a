import Stagewise.Proofs.Classification.Totality

namespace Stagewise

open Relation

theorem Problem.nodup_note {problems : List Problem} (h : problems.Nodup) (p : Problem) :
    (note problems p).Nodup := by
  unfold note
  split
  · exact h
  · next hn =>
    rw [← List.concat_eq_append]
    exact List.Nodup.concat (by simpa using hn) h

namespace Classifier

variable {c : Classifier} {s s' : State} {t t' : Classification} {w w' : Work}
  {work stack : List Work} {n m : Node} {i : InstId} {x : Scope}

section Leads

def LedFrom (c : Classifier) (work : List Work) (n : Node) : Prop :=
  ∃ w ∈ work, ReflTransGen (fun n m => m ∈ c.leads n) w.node n

theorem LedFrom.visit (h : c.Visits t w work t') (hn : c.LedFrom (work.reverse ++ stack) n) :
    c.LedFrom (w :: stack) n := by
  obtain ⟨w', hw', hp⟩ := hn
  rcases List.mem_append.mp hw' with hw' | hw'
  · have hl := h.node_mem_leads (List.mem_reverse.mp hw')
    exact ⟨w, List.mem_cons_self, .head hl hp⟩
  · exact ⟨w', List.mem_cons_of_mem _ hw', hp⟩

theorem Advances.used {rest : List Work} (hl : c.strategy.Lively)
    (h : c.Advances (stack, t) (rest, t')) (hf : c.Flowing t stack)
    (hn : (t'.info n).isUsed = true) : (t.info n).isUsed = true ∨ c.LedFrom stack n := by
  have key : c.Flowing t' rest ∧
      (∀ n, (t'.info n).isUsed = true → (t.info n).isUsed = true ∨ c.LedFrom stack n) ∧
      ∀ n, c.LedFrom rest n → c.LedFrom stack n := by
    refine h.invariant (P := fun rest t' => c.Flowing t' rest ∧
      (∀ n, (t'.info n).isUsed = true → (t.info n).isUsed = true ∨ c.LedFrom stack n) ∧
      ∀ n, c.LedFrom rest n → c.LedFrom stack n) ?_ ⟨hf, fun _ => .inl, fun _ => id⟩
    intro t1 t2 w work rest hv ⟨hfl, hu, hle⟩
    have hs := hv.used_iff (hfl.flags w List.mem_cons_self) hfl.pinned
    refine ⟨hv.flowing hl hfl, fun n hn => ?_, fun n hn => hle n (hn.visit hv)⟩
    rcases (hs n).mp hn with hn | rfl
    · exact hu n hn
    · exact .inr (hle _ ⟨w, List.mem_cons_self, .refl⟩)
  exact key.2.1 n hn

end Leads

section Failure

theorem exists_broken_of_propagate {e : Fault} (hf : s.table.Fits c.program c.func)
    (h : c.propagate work s = .error e) : ∃ n, c.LedFrom work n ∧ c.Broken n := by
  have hr := propagate_invariant (c := c) (s := s)
    (P := fun stack s => s.table.Fits c.program c.func ∧ ∀ n, c.LedFrom stack n → c.LedFrom work n)
    (fun s w work stack s' hs hv => ⟨(visits_of_visit hv).fits hs.1,
      fun n hn => hs.2 n (hn.visit (visits_of_visit hv))⟩) work
    ⟨hf, fun n ⟨w, hw, hp⟩ => ⟨w, List.mem_reverse.mp hw, hp⟩⟩
  rw [h] at hr
  obtain ⟨s1, w, stack, ⟨hf, hl⟩, hv⟩ := hr
  refine ⟨w.node, hl _ ⟨w, List.mem_cons_self, .refl⟩, ?_⟩
  refine (visit_eq_error hv).2.elim (fun hnot => ?_) id
  rw [hf.has_iff] at hnot
  cases hno : w.node with
  | inst i =>
    intro inst hi
    rw [hno] at hnot
    exact absurd (Array.getElem?_eq_some_iff.mp hi).1 hnot
  | global g | block b | terminator b =>
    rw [hno] at hnot
    exact Nat.not_lt.mp hnot

theorem Flowing.not_broken (hfi : t.Fits c.program c.func) (hf : c.Flowing t [])
    (hu : (t.info n).isUsed = true) (hfr : t.fixes n = false) :
    ¬c.Broken n := by
  intro hb
  have hin := (hfi.has_iff n).mp (Classification.has_of_isUsed hu)
  cases n with
  | global g | block b | terminator b => exact Nat.not_lt.mpr hb hin
  | inst i =>
    have hi := Array.getElem?_eq_getElem hin
    obtain ⟨callee, args, hop, hd⟩ := hb _ hi
    obtain ⟨flags, r, hl⟩ := hf.looked i _ hi hu hfr
    obtain ⟨rule, hr⟩ := exists_callRule hop hl flags
    simp [callRule?, hd] at hr

end Failure

section Noting

theorem trouble?_ne_sinkNotFound {name : String} : c.trouble? i ≠ some (.sinkNotFound name) := by
  unfold trouble?
  cases c.func.insts[i]? with
  | none => simp
  | some inst =>
    simp only [Option.bind_some]
    split <;> simp

theorem trouble?_of_mem_sinkSites {name : String} {site : SinkSite} (h : site ∈ c.sinkSites name) :
    c.trouble? site.inst = none := by
  obtain ⟨inst, hi, -, -, ⟨v, addr, hop, -⟩ | ⟨callee, args, hop, -⟩⟩ := mem_sinkSites h
  · simp [trouble?, hi, hop]
  · simp [trouble?, hi, hop]

/-- The problems of a classification: some of them, and one for each used instruction that cannot be
looked into. -/
structure Noted (c : Classifier) (B : Problem → Prop) (s : State) : Prop where
  nodup : s.problems.Nodup
  mem : ∀ p, p ∈ s.problems ↔ B p ∨ ∃ i, (s.table.inst i).isUsed = true ∧ c.trouble? i = some p

variable {B : Problem → Prop}

theorem Noted.of_used (h : c.Noted B s) (hpr : s'.problems = s.problems)
    (hu : ∀ i, c.trouble? i ≠ none →
      ((s'.table.inst i).isUsed = true ↔ (s.table.inst i).isUsed = true)) : c.Noted B s' := by
  refine ⟨hpr ▸ h.nodup, fun p => ?_⟩
  rw [hpr, h.mem]
  refine or_congr_right (exists_congr fun i => and_congr_left fun hp => ?_)
  exact (hu i (by simp [hp])).symm

/-- The trouble of an instruction is noted when it becomes used. -/
theorem Noted.visit (h : c.Noted B s) (hv : c.visit s w = .ok (work, s')) : c.Noted B s' := by
  rcases visit_eq_ok hv with ⟨-, -, -, rfl⟩ | ⟨hne, hl, hp⟩
  · exact h
  have ho : ∀ j, w.node ≠ .inst j → s'.table.inst j = s.table.inst j := fun j hj =>
    (hl.info (.inst j)).trans (if_neg fun heq => hj heq.symm)
  cases hn : w.node with
  | inst i =>
    -- uses that are not known yet are not none
    have hf : w.flags.isEmpty = false := by
      refine Bool.eq_false_iff.mpr fun he => ?_
      obtain ⟨g, hg⟩ := hne (.inr ⟨UsageFlags.contains_of_isEmpty _ he, by simp [hn]⟩)
      rw [hn] at hg
      cases hg
    have hu : ∀ j, (s'.table.inst j).isUsed = true ↔ (s.table.inst j).isUsed = true ∨ j = i := by
      intro j
      by_cases hj : j = i
      · subst hj
        have hs := hl.info w.node
        rw [if_pos rfl, hn] at hs
        rw [show s'.table.inst j = _ from hs, ValueInfo.isUsed_union _ hf]
        simp
      · rw [ho j (by rw [hn]; exact fun heq => hj (Node.inst.inj heq).symm)]
        simp [hj]
    simp only [hn] at hp
    cases ht : c.trouble? i with
    | none =>
      rw [ht] at hp
      refine h.of_used hp fun j hj => (hu j).trans ⟨?_, .inl⟩
      rintro (hol | rfl)
      · exact hol
      · exact absurd ht hj
    | some p =>
      rw [ht] at hp
      refine ⟨hp ▸ Problem.nodup_note h.nodup p, fun q => ?_⟩
      rw [hp, Option.elim_some, Problem.mem_note, h.mem]
      simp only [hu]
      constructor
      · rintro ((hB | ⟨j, hj, hq⟩) | rfl)
        · exact .inl hB
        · exact .inr ⟨j, .inl hj, hq⟩
        · exact .inr ⟨i, .inr rfl, ht⟩
      · rintro (hB | ⟨j, hj | rfl, hq⟩)
        · exact .inl (.inl hB)
        · exact .inl (.inr ⟨j, hj, hq⟩)
        · exact .inr (Option.mem_unique hq ht)
  | global _ | block _ | terminator _ =>
    rw [hn] at hp
    exact h.of_used hp fun j _ => by rw [ho j (by simp [hn])]

theorem Noted.propagate (h : c.Noted B s) (hp : c.propagate work s = .ok s') : c.Noted B s' :=
  propagate_keeps (fun _ _ _ _ hs hv => hs.visit hv) h hp

end Noting

end Classifier

end Stagewise
