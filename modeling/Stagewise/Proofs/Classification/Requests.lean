import Stagewise.Classification.Session
import Stagewise.Proofs.Classification.Progress

namespace Stagewise

namespace Classifier

variable {c : Classifier} {r : Request} {s s' : Session} {requests : List Request}
  {flags : UsageFlags} {scope : Scope} {name : String} {t : Classification}
  {P : Classification → Prop} {α : Type} {work : List Work} {a : Act State α}

def settled (c : Classifier) (s : State) : State := { s with table := (c.resolve s.table).2 }

def pinSites (c : Classifier) (name : String) (scope : Scope) (flags : UsageFlags)
    (t : Classification) : Classification :=
  (c.sinkSites name).foldl (fun t w => t.pin w.inst ⟨some scope, flags⟩) t

theorem pinSites_invariant
    (step : ∀ site ∈ c.sinkSites name, ∀ t, P t → P (t.pin site.inst ⟨some scope, flags⟩))
    (h : P t) : P (c.pinSites name scope flags t) := by
  unfold pinSites
  generalize c.sinkSites name = sites at step
  induction sites generalizing t with
  | nil => exact h
  | cons site sites ih =>
    exact ih (step site List.mem_cons_self t h) fun s hs => step s (List.mem_cons_of_mem _ hs)

theorem fits_pinSites (hf : t.Fits c.program c.func) :
    (c.pinSites name scope flags t).Fits c.program c.func :=
  pinSites_invariant (P := fun t => t.Fits c.program c.func) (fun site _ _ h => h.pin site.inst _) hf

theorem pinSites_of_mem {site : SinkSite} (hs : site ∈ c.sinkSites name)
    (keep : ∀ (w : SinkSite) t, P t → P (t.pin w.inst ⟨some scope, flags⟩))
    (make : ∀ t : Classification, t.Fits c.program c.func → P (t.pin site.inst ⟨some scope, flags⟩))
    (hf : t.Fits c.program c.func) : P (c.pinSites name scope flags t) := by
  obtain ⟨before, after, heq⟩ := List.append_of_mem hs
  unfold pinSites
  rw [heq, List.foldl_append, List.foldl_cons]
  have hb : (before.foldl (fun t w => t.pin w.inst ⟨some scope, flags⟩) t).Fits c.program c.func :=
    List.foldlRecOn (motive := fun t : Classification => t.Fits c.program c.func) before _ hf
      fun _ h w _ => h.pin w.inst _
  exact List.foldlRecOn (motive := P) after _ (make _ hb) fun t h w _ => keep w t h

/-- What a request does to the classification and to the snapshots, answered or failed. -/
inductive Responds (c : Classifier) : Request → Session → Session → Prop
  | root {g scope flags s snaps} : g < s.table.globals.size →
      Responds c (.root g scope flags) ⟨s, snaps⟩
        ⟨{ s with table := s.table.setGlobal g ⟨some scope, flags⟩ }, snaps⟩
  | rootNamed {name g scope flags s snaps} : c.program.globalNamed? name = some g →
      g < s.table.globals.size →
      Responds c (.rootNamed name scope flags) ⟨s, snaps⟩
        ⟨{ s with table := s.table.setGlobal g ⟨some scope, flags⟩ }, snaps⟩
  | rootUnknown {name scope flags s snaps} : c.program.globalNamed? name = none →
      Responds c (.rootNamed name scope flags) ⟨s, snaps⟩ ⟨s, snaps⟩
  | sink {name scope flags s s₁ snaps} :
      c.propagate ((c.sinkSites name).flatMap (sinkWork scope flags))
        { s with table := c.pinSites name scope flags s.table } = .ok s₁ →
      Responds c (.sink name scope flags) ⟨s, snaps⟩ ⟨c.settled s₁, snaps⟩
  | sinkUnknown {name scope flags s snaps} : c.sinkSites name = [] →
      Responds c (.sink name scope flags) ⟨s, snaps⟩
        ⟨{ s with problems := s.problems ++ [.sinkNotFound name] }, snaps⟩
  | value {v flags s s₁ snaps} : c.propagate (Work.ofValue flags v) s = .ok s₁ →
      Responds c (.value v flags) ⟨s, snaps⟩ ⟨c.settled s₁, snaps⟩
  | block {b flags force s s₁ snaps} :
      c.propagate [⟨.block b, flags, force.elim .empty .single⟩] s = .ok s₁ →
      Responds c (.block b flags force) ⟨s, snaps⟩ ⟨c.settled s₁, snaps⟩
  | snapshot {s snaps} :
      Responds c .snapshot ⟨s, snaps⟩ ⟨s, snaps ++ [⟨s.table, s.problems.length⟩]⟩
  | restore {k s snap snaps} : snaps[k]? = some snap →
      Responds c (.restore k) ⟨s, snaps⟩
        ⟨⟨snap.table, s.problems.take snap.numProblems⟩, snaps⟩
  | scopeOf {v s snaps} : Responds c (.scopeOf v) ⟨s, snaps⟩ ⟨s, snaps⟩

def Intact {α : Type} (r : Except Fault α) : Prop := r ≠ .error .dangling

theorem ends_classify {s : State} :
    Act.Ends (c.classify work) s fun r s' => Intact r →
      ∃ s1, c.propagate work s = .ok s1 ∧ s' = c.settled s1 := by
  simp only [classify, Act.ends_bind, Act.ends_get, Act.ends_ofExcept]
  cases hp : c.propagate work s with
  | error e =>
    obtain rfl := propagate_eq_error hp
    exact fun h => absurd rfl h
  | ok s1 => exact fun _ => ⟨s1, rfl, rfl⟩

theorem ends_classify_get {s : State} {f : State → α} :
    Act.Ends (do c.classify work; return f (← get)) s fun r s' => Intact r →
      ∃ s1, c.propagate work s = .ok s1 ∧ s' = c.settled s1 := by
  rw [Act.ends_bind]
  refine ends_classify.mono fun r t h => ?_
  cases r with
  | error e => exact fun hr => h fun he => hr (congrArg _ (Except.error.inj he))
  | ok _ => exact fun _ => h (by simp [Intact])

theorem ends_declareRoot {s : State} {g : GlobalId} :
    Act.Ends (c.declareRoot g scope flags) s fun r s' => Intact r →
      g < s.table.globals.size ∧ s' = { s with table := s.table.setGlobal g ⟨some scope, flags⟩ } := by
  simp only [declareRoot, Act.ends_bind, Act.ends_get]
  split
  · next hlt => exact fun _ => ⟨hlt, rfl⟩
  · exact fun h => absurd rfl h

theorem ends_classifySink {s : State} :
    Act.Ends (c.classifySink name scope flags) s fun r s' => Intact r →
      (c.sinkSites name = [] ∧ s' = { s with problems := s.problems ++ [.sinkNotFound name] }) ∨
      ∃ s1, c.propagate ((c.sinkSites name).flatMap (sinkWork scope flags))
        { s with table := c.pinSites name scope flags s.table } = .ok s1 ∧ s' = c.settled s1 := by
  unfold classifySink
  simp only
  cases hl : (c.sinkSites name).getLast? with
  | none => exact fun _ => .inl ⟨List.getLast?_eq_none_iff.mp hl, rfl⟩
  | some last =>
    simp only [Act.ends_bind, Act.ends_modify, Act.ends_get]
    refine ends_classify.mono fun r s' h => ?_
    cases r with
    | error e => exact fun hr => .inr (h fun he => hr (congrArg Except.error (Except.error.inj he)))
    | ok a =>
      have h := h (by simp [Intact])
      cases last.value <;> exact fun _ => .inr h

theorem ends_inSession_iff {Q : Except Fault α → Session → Prop} :
    Act.Ends (inSession a) s Q ↔ Act.Ends a s.state fun r t => Q r ⟨t, s.snapshots⟩ := Iff.rfl

theorem ends_inSession {answer : α → Answer} {P : State → Prop}
    (h : Act.Ends a s.state fun r t => Intact r → P t) :
    Act.Ends (do return answer (← inSession a)) s fun r s' => Intact r →
      ∃ t, P t ∧ s' = ⟨t, s.snapshots⟩ := by
  rw [Act.ends_bind, ends_inSession_iff]
  refine h.mono fun r t ht => ?_
  cases r with
  | error e => exact fun hr => ⟨t, ht fun he => hr (congrArg _ (Except.error.inj he)), rfl⟩
  | ok x => exact fun _ => ⟨t, ht (by simp [Intact]), rfl⟩

/-- An answer is one of the responses, unless the function lacks what it names. -/
theorem ends_answer : Act.Ends (c.answer r) s fun result s' => Intact result →
    c.Responds r s s' := by
  obtain ⟨state, snaps⟩ := s
  cases r with
  | root g scope flags =>
    refine (ends_inSession ends_declareRoot).mono fun _ _ h hr => ?_
    obtain ⟨_, ⟨hlt, rfl⟩, rfl⟩ := h hr
    exact .root hlt
  | rootNamed name scope flags =>
    simp only [answer, declareRootNamed]
    cases hg : c.program.globalNamed? name with
    | none => exact fun _ => .rootUnknown hg
    | some g =>
      refine (ends_inSession ends_declareRoot).mono fun _ _ h hr => ?_
      obtain ⟨_, ⟨hlt, rfl⟩, rfl⟩ := h hr
      exact .rootNamed hg hlt
  | sink name scope flags =>
    refine (ends_inSession ends_classifySink).mono fun _ _ h hr => ?_
    obtain ⟨_, ⟨hn, rfl⟩ | ⟨s1, hp, rfl⟩, rfl⟩ := h hr
    · exact .sinkUnknown hn
    · exact .sink hp
  | value v flags =>
    refine (ends_inSession ends_classify_get).mono fun _ _ h hr => ?_
    obtain ⟨_, ⟨s1, hp, rfl⟩, rfl⟩ := h hr
    exact .value hp
  | block b flags force =>
    refine (ends_inSession ends_classify_get).mono fun _ _ h hr => ?_
    obtain ⟨_, ⟨s1, hp, rfl⟩, rfl⟩ := h hr
    exact .block hp
  | snapshot => exact fun _ => .snapshot
  | restore k =>
    simp only [answer, Act.ends_bind, Act.ends_get, Act.ends_ofOption]
    cases hk : snaps[k]? with
    | none => exact fun h => absurd rfl h
    | some snap => exact fun _ => .restore hk
  | scopeOf v =>
    simp only [answer, Act.ends_bind, Act.ends_get]
    split
    · exact fun _ => .scopeOf
    · exact fun h => absurd rfl h

inductive Responses (c : Classifier) : List Request → Session → Session → Prop
  | nil {a : Session} : Responses c [] a a
  | cons {r : Request} {rest : List Request} {a b d : Session} : c.Responds r a b →
      Responses c rest b d → Responses c (r :: rest) a d

theorem Responses.append {rest : List Request} {s1 : Session} (h : c.Responses requests s s1)
    (h' : c.Responses rest s1 s') : c.Responses (requests ++ rest) s s' := by
  induction h with
  | nil => exact h'
  | cons hr _ ih => exact .cons hr (ih h')

theorem responses_of_transcript {k : Nat} {result : Except Fault Answer}
    (h : (c.transcript requests s)[k]? = some (result, s')) (hre : Intact result) :
    c.Responses (requests.take (k + 1)) s s' := by
  induction requests generalizing s k with
  | nil => simp [transcript] at h
  | cons r rest ih =>
    unfold transcript at h
    have hr : Act.Ends (c.answer r) s fun result s' => Intact result → c.Responds r s s' := ends_answer
    unfold Act.Ends at hr
    generalize (c.answer r).run s = answered at h hr
    obtain ⟨first, s1⟩ := answered
    cases k with
    | zero =>
      obtain ⟨rfl, rfl⟩ := Prod.mk.inj (Option.some.inj h)
      exact .cons (hr hre) .nil
    | succ k =>
      rw [List.getElem?_cons_succ] at h
      by_cases hf : first = .error .dangling
      · subst hf
        simp at h
      · rw [List.take_succ_cons]
        refine .cons (hr hf) (ih ?_)
        rcases first with e | a
        · cases e <;> first | exact h | exact absurd rfl hf
        · exact h

theorem responses_of_answerAll {answers : List Answer}
    (h : (c.answerAll requests).run s = (.ok answers, s')) : c.Responses requests s s' := by
  have key : Act.Sat Act.Any (c.answerAll requests) s fun _ s' => c.Responses requests s s' := by
    clear h
    unfold answerAll
    induction requests generalizing s with
    | nil => exact .nil
    | cons r rest ih =>
      simp only [List.mapM_cons, Act.sat_bind, Act.sat_pure]
      have hr : Act.Ends (c.answer r) s fun result s' => Intact result → c.Responds r s s' :=
        ends_answer
      rw [Act.sat_any_iff]
      intro a s1 hru
      unfold Act.Ends at hr
      rw [hru] at hr
      exact ih.mono fun _ _ hre => .cons (hr (by simp [Intact])) hre
  exact key.of_run h

end Classifier

end Stagewise
