import Stagewise.Proofs.Classification.Charting
import Stagewise.Proofs.Classification.ForcedClosure

namespace Stagewise

def Request.renumber (ρ : Nat → Nat) : Request → Request
  | .restore k => .restore (ρ k)
  | r => r

def Answer.renumber (ρ : Nat → Nat) : Answer → Answer
  | .snapshot k => .snapshot (ρ k)
  | a => a

theorem Problem.prefix_note (problems : List Problem) (p : Problem) :
    problems <+: note problems p := by
  unfold note
  split
  · exact List.prefix_rfl
  · exact List.prefix_append ..

namespace Classifier

variable {c : Classifier} {requests : List Request} {taken s s' : Session} {r : Request} {k : Nat}

section Problems

theorem propagate_problems_grow {s s' : State} {work : List Work}
    (h : c.propagate work s = .ok s') : s.problems <+: s'.problems := by
  refine propagate_keeps (P := fun u => s.problems <+: u.problems) (fun u w work u' hs hv => ?_)
    List.prefix_rfl h
  rcases problems_of_visit hv with heq | ⟨_, p, -, heq⟩ <;> rw [heq]
  · exact hs
  · exact hs.trans (Problem.prefix_note u.problems p)

end Problems

section Returning

/-- A session that goes on from another one and has kept its problems: they are still the first ones,
and no snapshot since then has fewer. -/
structure Since (taken s : Session) : Prop where
  problems : taken.state.problems <+: s.state.problems
  snapshots : taken.snapshots <+: s.snapshots
  later : ∀ i snap, taken.snapshots.length ≤ i → s.snapshots[i]? = some snap →
    taken.state.problems.length ≤ snap.numProblems

theorem Since.refl (s : Session) : Since s s := by
  refine ⟨List.prefix_rfl, List.prefix_rfl, fun i snap hi hs => ?_⟩
  have := (List.getElem?_eq_some_iff.mp hs).1
  omega

theorem Since.grow {state : State} (h : Since taken s)
    (hp : s.state.problems <+: state.problems) : Since taken ⟨state, s.snapshots⟩ :=
  ⟨h.problems.trans hp, h.snapshots, h.later⟩

theorem Responds.since (hr : c.Responds r s s') (h : Since taken s)
    (hk : ∀ i snap, r = .restore i → taken.snapshots[i]? = some snap →
      taken.state.problems.length ≤ snap.numProblems) : Since taken s' := by
  cases hr with
  | root _ | rootNamed _ _ => exact h.grow List.prefix_rfl
  | rootUnknown _ => exact h
  | sink hp => exact h.grow (propagate_problems_grow hp :)
  | sinkUnknown _ => exact h.grow (List.prefix_append ..)
  | value hp | block hp => exact h.grow (propagate_problems_grow hp :)
  | @snapshot state snaps =>
    refine ⟨h.problems, h.snapshots.trans (List.prefix_append ..), fun i snap hi hs => ?_⟩
    by_cases hlt : i < snaps.length
    · rw [List.getElem?_append_left hlt] at hs
      exact h.later i snap hi hs
    · rw [List.getElem?_append_right (Nat.not_lt.mp hlt)] at hs
      obtain rfl := List.mem_singleton.mp (List.mem_of_getElem? hs)
      exact h.problems.length_le
  | @restore i state snap snaps hs =>
    have hm : taken.state.problems.length ≤ snap.numProblems := by
      by_cases ho : i < taken.snapshots.length
      · refine hk i snap rfl ?_
        rw [← hs]
        exact (List.prefix_iff_getElem?.mp h.snapshots i ho).symm ▸ List.getElem?_eq_getElem ho
      · exact h.later i snap (Nat.not_lt.mp ho) hs
    exact ⟨List.prefix_take_iff.mpr ⟨h.problems, hm⟩, h.snapshots, h.later⟩
  | scopeOf => exact h

theorem Responds.snapshots_grow (hr : c.Responds r s s') : s.snapshots <+: s'.snapshots := by
  cases hr with
  | snapshot => exact List.prefix_append ..
  | _ => exact List.prefix_rfl

theorem Responses.snapshots_grow (h : c.Responses requests s s') :
    s.snapshots <+: s'.snapshots := by
  induction h with
  | nil => exact List.prefix_rfl
  | cons hr _ ih => exact hr.snapshots_grow.trans ih

theorem Responses.since (h : c.Responses requests s s') (hs : Since taken s)
    (hk : ∀ i snap, .restore i ∈ requests → taken.snapshots[i]? = some snap →
      taken.state.problems.length ≤ snap.numProblems) : Since taken s' := by
  induction h with
  | nil => exact hs
  | cons hr _ ih =>
    refine ih (hr.since hs fun i snap heq => hk i snap ?_) fun i snap hi => ?_
    · exact heq ▸ List.mem_cons_self
    · exact hk i snap (List.mem_cons_of_mem _ hi)

end Returning

section Transcripts

variable {result : Except Fault Answer} {e : Except Fault Answer × Session} {m : Nat}
  {rest : List Request}

theorem transcript_cons (hr : (c.answer r).run s = (result, s')) (hi : Intact result) :
    c.transcript (r :: rest) s = (result, s') :: c.transcript rest s' := by
  rw [transcript, hr]
  simp only
  split
  · exact absurd rfl hi
  · rfl

theorem transcript_cons_dangling (hr : (c.answer r).run s = (.error .dangling, s')) :
    c.transcript (r :: rest) s = [(.error .dangling, s')] := by
  rw [transcript, hr]

theorem exists_answer_of_transcript (h : (c.transcript requests s)[m]? = some e) :
    ∃ r s0, requests[m]? = some r ∧ (c.answer r).run s0 = e := by
  induction requests generalizing s m with
  | nil => simp [transcript] at h
  | cons r rest ih =>
    rcases hr : (c.answer r).run s with ⟨first, s1⟩
    by_cases hi : Intact first
    · rw [transcript_cons hr hi] at h
      cases m with
      | zero => exact ⟨r, s, rfl, hr.trans (Option.some.inj h)⟩
      | succ m => exact ih h
    · obtain rfl := not_not.mp hi
      rw [transcript_cons_dangling hr] at h
      cases m with
      | zero => exact ⟨r, s, rfl, hr.trans (Option.some.inj h)⟩
      | succ m => simp at h

theorem transcript_drop (h : (c.transcript requests s)[m]? = some (result, s')) (hi : Intact result) :
    (c.transcript requests s).drop (m + 1) = c.transcript (requests.drop (m + 1)) s' := by
  induction requests generalizing s m with
  | nil => simp [transcript] at h
  | cons r rest ih =>
    rcases hr : (c.answer r).run s with ⟨first, s1⟩
    by_cases hf : Intact first
    · rw [transcript_cons hr hf] at h ⊢
      cases m with
      | zero =>
        obtain ⟨rfl, rfl⟩ := Prod.mk.inj (Option.some.inj h)
        rfl
      | succ m => exact ih h
    · obtain rfl := not_not.mp hf
      rw [transcript_cons_dangling hr] at h
      cases m with
      | zero =>
        obtain ⟨rfl, -⟩ := Prod.mk.inj (Option.some.inj h)
        exact absurd rfl hi
      | succ m => simp at h

/-- Only a request for a snapshot answers with one, and it has the last number. -/
theorem snapshot_of_answer (h : (c.answer r).run s = (.ok (.snapshot k), taken)) :
    taken.snapshots.length = k + 1 ∧
      taken.snapshots[k]? = some ⟨taken.state.table, taken.state.problems.length⟩ := by
  have key : Act.Sat Act.Any (c.answer r) s fun a t => ∀ k, a = .snapshot k →
      t.snapshots.length = k + 1 ∧
        t.snapshots[k]? = some ⟨t.state.table, t.state.problems.length⟩ := by
    have ho : ∀ {α : Type} (x : Act State α) (g : α → Answer),
        (∀ a k, g a ≠ .snapshot k) → Act.Sat Act.Any (do return g (← inSession x)) s
          fun a t => ∀ k, a = .snapshot k → t.snapshots.length = k + 1 ∧
            t.snapshots[k]? = some ⟨t.state.table, t.state.problems.length⟩ := by
      intro α x g hg
      rw [Act.sat_bind]
      refine Act.sat_any_iff.mpr fun a t _ k hk => absurd hk (hg a k)
    cases r with
    | root g scope flags => exact ho (c.declareRoot g scope flags) (fun _ => .done) (by simp)
    | rootNamed name scope flags =>
      exact ho (c.declareRootNamed name scope flags) (fun _ => .done) (by simp)
    | sink name scope flags => exact ho (c.classifySink name scope flags) .write (by simp)
    | value v flags => exact ho (c.classifyValue v flags) .scope (by simp)
    | block b flags force => exact ho (c.classifyBlock b flags force) .scope (by simp)
    | snapshot =>
      rintro k ⟨⟩
      exact ⟨List.length_append, List.getElem?_concat_length⟩
    | restore i =>
      simp only [answer, Act.sat_bind, Act.sat_get, Act.sat_ofOption]
      exact ⟨fun snap _ => by rintro k ⟨⟩, fun _ => trivial⟩
    | scopeOf v =>
      simp only [answer, Act.sat_bind, Act.sat_get]
      split
      · rintro k ⟨⟩
      · trivial
  exact key.of_run h k rfl

end Transcripts

section Renumbering

variable {a d : Nat}

def shiftFrom (a d i : Nat) : Nat := if i < a then i else i + d

/-- A session in the same state, with `d` more snapshots before number `a`. -/
structure Widened (a d : Nat) (s s' : Session) : Prop where
  state : s'.state = s.state
  snapshots : ∃ first extra rest, s.snapshots = first ++ rest ∧
    s'.snapshots = first ++ (extra ++ rest) ∧ first.length = a ∧ extra.length = d

theorem Widened.getElem? (h : Widened a d s s') (i : Nat) :
    s'.snapshots[shiftFrom a d i]? = s.snapshots[i]? := by
  obtain ⟨first, extra, rest, hs, hs', rfl, rfl⟩ := h.snapshots
  rw [hs, hs', shiftFrom]
  split
  · next hlt => rw [List.getElem?_append_left hlt, List.getElem?_append_left hlt]
  · next hge =>
    rw [List.getElem?_append_right (by omega), List.getElem?_append_right (by omega),
      List.getElem?_append_right (by omega)]
    congr 1
    omega

theorem Widened.length (h : Widened a d s s') :
    s'.snapshots.length = shiftFrom a d s.snapshots.length := by
  obtain ⟨first, extra, rest, hs, hs', rfl, rfl⟩ := h.snapshots
  rw [hs, hs', shiftFrom, if_neg (by simp)]
  simp only [List.length_append]
  omega

theorem Widened.set {state : State} (h : Widened a d s s') :
    Widened a d ⟨state, s.snapshots⟩ ⟨state, s'.snapshots⟩ := ⟨rfl, h.snapshots⟩

/-- A computation comes to what another one comes to without the additional snapshots. -/
def Renumbers (a d : Nat) (x y : Act Session Answer) : Prop :=
  ∀ s s', Widened a d s s' →
    (y.run s').1 = (x.run s).1.map (Answer.renumber (shiftFrom a d)) ∧
      Widened a d (x.run s).2 (y.run s').2

theorem renumbers_inSession {α : Type} (x : Act State α) {f : α → Answer}
    (hf : ∀ y, (f y).renumber (shiftFrom a d) = f y) :
    Renumbers a d (do return f (← inSession x)) (do return f (← inSession x)) := by
  intro s s' h
  have hr : ∀ s : Session, (inSession x).run s
      = ((x.run s.state).1, ⟨(x.run s.state).2, s.snapshots⟩) := fun _ => rfl
  rw [Act.run_bind, Act.run_bind, hr s, hr s', h.state]
  cases (x.run s.state).1 with
  | error e => exact ⟨rfl, h.set⟩
  | ok y => exact ⟨congrArg Except.ok (hf y).symm, h.set⟩

/-- With additional snapshots, a renumbered request comes to the same answer, renumbered. -/
theorem renumbers_answer (c : Classifier) (a d : Nat) (r : Request) :
    Renumbers a d (c.answer r) (c.answer (r.renumber (shiftFrom a d))) := by
  cases r with
  | root g scope flags =>
    exact renumbers_inSession (c.declareRoot g scope flags) (f := fun _ => .done) fun _ => rfl
  | rootNamed name scope flags =>
    exact renumbers_inSession (c.declareRootNamed name scope flags) (f := fun _ => .done)
      fun _ => rfl
  | sink name scope flags => exact renumbers_inSession (c.classifySink name scope flags) fun _ => rfl
  | value v flags => exact renumbers_inSession (c.classifyValue v flags) fun _ => rfl
  | block b flags force => exact renumbers_inSession (c.classifyBlock b flags force) fun _ => rfl
  | snapshot =>
    intro s s' h
    refine ⟨congrArg (fun n => Except.ok (Answer.snapshot n)) h.length, ?_⟩
    obtain ⟨first, extra, rest, hs, hs', ha, hd⟩ := h.snapshots
    refine ⟨h.state, first, extra, rest ++ [⟨s.state.table, s.state.problems.length⟩], ?_, ?_, ha, hd⟩
    · show s.snapshots ++ _ = _
      rw [hs, List.append_assoc]
    · show s'.snapshots ++ [⟨s'.state.table, s'.state.problems.length⟩] = _
      rw [hs', h.state, List.append_assoc, List.append_assoc]
  | restore k =>
    intro s s' h
    have hr : ∀ (s : Session) k, (c.answer (.restore k)).run s = match s.snapshots[k]? with
        | some snap => (.ok .done, ⟨⟨snap.table, s.state.problems.take snap.numProblems⟩, s.snapshots⟩)
        | none => (.error .dangling, s) := by
      intro s k
      have hg : (get : Act Session Session).run s = (.ok s, s) := rfl
      simp only [answer, Act.run_bind, hg]
      cases s.snapshots[k]? <;> rfl
    rw [show Request.renumber (shiftFrom a d) (.restore k) = .restore (shiftFrom a d k) from rfl,
      hr, hr, h.getElem?, h.state]
    cases s.snapshots[k]? with
    | none => exact ⟨rfl, h⟩
    | some snap => exact ⟨rfl, h.set⟩
  | scopeOf v =>
    intro s s' h
    have hr : ∀ s : Session, (c.answer (.scopeOf v)).run s = if s.state.table.hasValue v
        then (.ok (.scope (s.state.table.valueScope v)), s) else (.error .dangling, s) := by
      intro s
      have hg : (get : Act Session Session).run s = (.ok s, s) := rfl
      simp only [answer, Act.run_bind, hg]
      split <;> rfl
    rw [show Request.renumber (shiftFrom a d) (.scopeOf v) = .scopeOf v from rfl, hr, hr, h.state]
    split
    · exact ⟨rfl, h⟩
    · exact ⟨rfl, h⟩

theorem transcript_renumber (h : Widened a d s s') (requests : List Request) :
    (c.transcript (requests.map (Request.renumber (shiftFrom a d))) s').map
        (fun e => (e.1, e.2.state))
      = (c.transcript requests s).map
        fun e => (e.1.map (Answer.renumber (shiftFrom a d)), e.2.state) := by
  induction requests generalizing s s' with
  | nil => rfl
  | cons r rest ih =>
    obtain ⟨hre, hn⟩ := renumbers_answer c a d r s s' h
    rcases hr : (c.answer r).run s with ⟨result, s1⟩
    rcases hr' : (c.answer (r.renumber (shiftFrom a d))).run s' with ⟨result', s1'⟩
    rw [hr, hr'] at hre hn
    obtain rfl : result' = result.map (Answer.renumber (shiftFrom a d)) := hre
    by_cases hi : Intact result
    · have hi' : Intact (result.map (Answer.renumber (shiftFrom a d))) := by
        cases result with
        | error e => exact fun he => hi (congrArg Except.error (Except.error.inj he))
        | ok _ => simp [Intact, Except.map]
      rw [List.map_cons, transcript_cons hr hi, transcript_cons hr' hi', List.map_cons,
        List.map_cons, ih hn]
      rw [show s1'.state = s1.state from hn.state]
    · obtain rfl := not_not.mp hi
      have hs : s1'.state = s1.state := hn.state
      rw [List.map_cons, transcript_cons_dangling hr, transcript_cons_dangling hr']
      simp [Except.map, hs]

end Renumbering

/-- Returning to a snapshot brings back its table. If no older snapshot with fewer problems was
returned to since it was taken, it also brings back the problems, and further requests come to what
they would have come to when it was taken, the snapshots since then being numbered in between. -/
theorem restore_returns {k m n : Nat} {restored : Session}
    (htaken : (c.transcript requests c.openSession)[m]? = some (.ok (.snapshot k), taken))
    (hrestored : (c.transcript requests c.openSession)[n]? = some (.ok .done, restored))
    (hn : requests[n]? = some (.restore k)) (hmn : m < n) :
    restored.state.table = taken.state.table ∧
    ((∀ j i snap, m < j → j < n → requests[j]? = some (.restore i) →
        taken.snapshots[i]? = some snap → taken.state.problems.length ≤ snap.numProblems) →
      restored.state = taken.state ∧
      ∀ further, (c.transcript (further.map (Request.renumber (shiftFrom (k + 1)
          (restored.snapshots.length - taken.snapshots.length)))) restored).map
          (fun e => (e.1, e.2.state))
        = (c.transcript further taken).map fun e =>
          (e.1.map (Answer.renumber (shiftFrom (k + 1)
            (restored.snapshots.length - taken.snapshots.length))), e.2.state)) := by
  obtain ⟨_, _, -, hanswer⟩ := exists_answer_of_transcript htaken
  obtain ⟨hlength, hsnap⟩ := snapshot_of_answer hanswer
  -- the requests since the snapshot was taken, up to the one that returns to it
  have hlater : (c.transcript (requests.drop (m + 1)) taken)[n - (m + 1)]?
      = some (.ok .done, restored) := by
    rw [← transcript_drop htaken (by simp [Intact]), List.getElem?_drop, ← hrestored]
    congr 1
    omega
  have hresponses := responses_of_transcript hlater (by simp [Intact])
  have hlast : (requests.drop (m + 1))[n - (m + 1)]? = some (.restore k) := by
    rw [List.getElem?_drop, ← hn]
    congr 1
    omega
  rw [List.take_add_one, hlast] at hresponses
  obtain ⟨before, hbetween, hreturn⟩ := hresponses.split
  obtain ⟨snap, hkept, rfl⟩ : ∃ snap, before.snapshots[k]? = some snap ∧
      restored = ⟨⟨snap.table, before.state.problems.take snap.numProblems⟩, before.snapshots⟩ := by
    cases hreturn with
    | cons hr hnil =>
      cases hnil
      cases hr with
      | restore hkept => exact ⟨_, hkept, rfl⟩
  have hgrow : taken.snapshots <+: before.snapshots := hbetween.snapshots_grow
  obtain rfl : snap = ⟨taken.state.table, taken.state.problems.length⟩ := by
    obtain ⟨extra, hextra⟩ := hgrow
    rw [← hextra, List.getElem?_append_left (by omega), hsnap] at hkept
    exact (Option.some.inj hkept).symm
  refine ⟨rfl, fun hmany => ?_⟩
  have hsince : Since taken before := by
    refine hbetween.since (.refl taken) fun i snap hi hsnap => ?_
    obtain ⟨j, hget⟩ := List.mem_iff_getElem?.mp hi
    rw [List.getElem?_take] at hget
    split at hget
    · rw [List.getElem?_drop] at hget
      exact hmany (m + 1 + j) i snap (by omega) (by omega) hget hsnap
    · cases hget
  have hstate : (⟨taken.state.table, before.state.problems.take taken.state.problems.length⟩ : State)
      = taken.state :=
    congrArg (State.mk taken.state.table) (List.prefix_iff_eq_take.mp hsince.problems).symm
  refine ⟨hstate, transcript_renumber ⟨hstate, ?_⟩⟩
  obtain ⟨extra, hextra⟩ := hgrow
  refine ⟨taken.snapshots, extra, [], by simp, by simp [hextra], hlength, ?_⟩
  simp [← hextra]

end Classifier

/-- Two snapshots with one problem, a third one with two, and returns to all of them. -/
def tentativeRequests : List Request :=
  [.sink "lost" (.ofNat 0) (.ofNat 1), .snapshot, .snapshot, .sink "gone" (.ofNat 0) (.ofNat 1),
    .snapshot, .restore 2, .restore 0, .sink "out" (.ofNat 1) (.ofNat 1), .restore 1]

theorem restore_tentative : ∃ taken restored,
    (nestedClassifier.transcript tentativeRequests nestedClassifier.openSession)[2]?
      = some (.ok (.snapshot 1), taken) ∧
    (nestedClassifier.transcript tentativeRequests nestedClassifier.openSession)[8]?
      = some (.ok .done, restored) ∧
    taken.state.problems = [.sinkNotFound "lost"] ∧ restored.state = taken.state ∧
    ∀ further, (nestedClassifier.transcript (further.map (Request.renumber
        (Classifier.shiftFrom 2 (restored.snapshots.length - taken.snapshots.length)))) restored).map
        (fun e => (e.1, e.2.state))
      = (nestedClassifier.transcript further taken).map fun e => (e.1.map (Answer.renumber
        (Classifier.shiftFrom 2 (restored.snapshots.length - taken.snapshots.length))), e.2.state) := by
  have hdone : ((nestedClassifier.transcript tentativeRequests nestedClassifier.openSession)[8]?.any
      fun e => match e.1 with | .ok .done => true | _ => false) = true := by decide +kernel
  obtain ⟨⟨result, restored⟩, hrestored, hresult⟩ := (Option.any_eq_true _ _).mp hdone
  obtain rfl : result = .ok .done := by
    simp only at hresult
    split at hresult
    · rfl
    · cases hresult
  obtain ⟨taken, htaken, hone, hmany⟩ : ∃ taken,
      (nestedClassifier.transcript tentativeRequests nestedClassifier.openSession)[2]?
        = some (.ok (.snapshot 1), taken) ∧ taken.state.problems = [.sinkNotFound "lost"] ∧
      ∀ snap ∈ taken.snapshots, 1 ≤ snap.numProblems := ⟨_, rfl, rfl, by decide⟩
  refine ⟨taken, restored, htaken, hrestored, hone,
    (Classifier.restore_returns htaken hrestored rfl (by decide)).2 fun _ _ snap _ _ _ hsnap => ?_⟩
  rw [hone]
  exact hmany snap (List.mem_of_getElem? hsnap)

def idle : Function := ⟨"main", 0, #[⟨[], some .ret⟩], #[], [0]⟩

def idleClassifier : Classifier :=
  classifierOf ⟨"idle", [], [], [idle]⟩ idle .plain ⟨#[some 1, some 1], #[1, 0]⟩

/-- A snapshot with a problem, the return to an older one, and another problem. -/
def crossedRequests : List Request :=
  [.snapshot, .sink "first" (.ofNat 0) (.ofNat 1), .snapshot, .restore 0,
    .sink "second" (.ofNat 0) (.ofNat 1), .restore 1]

/-- A snapshot does not bring back its problems if an older one was returned to and other problems
took their place. -/
theorem restore_crossed :
    PostDominators.ofFunction idle = .ok idleClassifier.postDominators ∧
    ∃ taken restored,
      (idleClassifier.transcript crossedRequests idleClassifier.openSession)[2]?
        = some (.ok (.snapshot 1), taken) ∧
      (idleClassifier.transcript crossedRequests idleClassifier.openSession)[5]?
        = some (.ok .done, restored) ∧
      taken.state.problems = [.sinkNotFound "first"] ∧
      restored.state.problems = [.sinkNotFound "second"] :=
  ⟨by decide +kernel, _, _, rfl, rfl, rfl, rfl⟩

end Stagewise
