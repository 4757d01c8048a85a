import Stagewise.Proofs.Classification.Liveness

namespace Stagewise

open Relation

theorem no_endless_run {α : Type} {step : α → α → Prop} {P : α → Prop} (size : α → Nat)
    (hs : ∀ a b, P a → step a b → P b ∧ size b < size a) {a : α} (ha : P a) :
    ¬∃ run : Nat → α, run 0 = a ∧ ∀ k, step (run k) (run (k + 1)) := by
  rintro ⟨run, rfl, hr⟩
  have hsi : ∀ k, P (run k) ∧ size (run k) + k ≤ size (run 0) := by
    intro k
    induction k with
    | zero => exact ⟨ha, le_rfl⟩
    | succ k ih =>
      obtain ⟨hn, hl⟩ := hs _ _ ih.1 (hr k)
      exact ⟨hn, by omega⟩
  have hla := (hsi (size (run 0) + 1)).2
  omega

namespace Classifier

variable {c : Classifier} {s s' : State} {t t' : Classification} {work stack : List Work}

section Work

def pending (c : Classifier) (r : List Work × State) : Nat :=
  r.1.length + r.2.table.gaps c.func * c.fanIn

theorem Looks.pending_lt {r r' : List Work × State} (h : c.Looks r r')
    (hf : r.2.table.Fits c.program c.func) :
    r'.2.table.Fits c.program c.func ∧ c.pending r' < c.pending r := by
  cases h with
  | @visit s s' w work stack hv =>
    have hvi := visits_of_visit hv
    refine ⟨hvi.fits hf, ?_⟩
    simp only [pending, List.length_append, List.length_reverse, List.length_cons]
    rcases hvi.progress hf with ⟨rfl, hg⟩ | ⟨hw, hg⟩
    · have hl := Nat.mul_le_mul_right c.fanIn hg
      rw [List.length_nil]
      omega
    · have hl := Nat.mul_le_mul_right c.fanIn hg
      rw [Nat.succ_mul] at hl
      omega

theorem looks_of_propagate (hf : s.table.Fits c.program c.func)
    (h : c.propagate work s = .ok s') : ReflTransGen c.Looks (work.reverse, s) ([], s') := by
  obtain ⟨_, hr⟩ := exists_propagateWithin hf h
  exact looks_of_propagateWithin hr

end Work

section Rounds

def Changes (c : Classifier) (t t' : Classification) : Prop :=
  c.resolveRound t = (.ok (), t') ∧ t' ≠ t

theorem raises_of_resolveRound {r : Except Fault Unit} (h : c.resolveRound t = (r, t')) :
    Raises t t' := by
  have hr := raises_resolveRound c t
  rw [h] at hr
  exact hr

theorem Changes.weight_lt (h : c.Changes t t') (hf : t.Fits c.program c.func) :
    t'.Fits c.program c.func ∧ c.raises - weight t' < c.raises - weight t := by
  have hr := raises_of_resolveRound h.1
  have hf' := hr.fits hf
  have hle := weight_le_raises hf'
  have hlt : weight t < weight t' := by
    by_contra hn
    exact h.2 (hr.eq_of_weight_le (Nat.le_of_not_lt hn))
  exact ⟨hf', by omega⟩

theorem settle_ends {fuel : Nat} (hf : t.Fits c.program c.func)
    (hfu : c.raises < weight t + fuel) :
    ∃ t1, ReflTransGen c.Changes t t1 ∧
      (c.resolveRound t1 = (.ok (), t1) ∧ c.settle fuel t = (.ok (), t1) ∨
        ∃ e t2, c.resolveRound t1 = (.error e, t2) ∧ c.settle fuel t = (.error e, t2)) := by
  induction fuel generalizing t with
  | zero =>
    have hle := weight_le_raises hf
    omega
  | succ fuel ih =>
    unfold settle
    rcases hr : c.resolveRound t with ⟨e | _, next⟩
    · exact ⟨t, .refl, .inr ⟨e, next, hr, rfl⟩⟩
    · have hro := raises_of_resolveRound hr
      by_cases hs : weight next = weight t
      · obtain rfl := hro.eq_of_weight_le hs.le
        exact ⟨next, .refl, .inl ⟨hr, by simp⟩⟩
      · have hle := hro.weight_le
        have hne : next ≠ t := fun heq => hs (heq ▸ rfl)
        obtain ⟨t1, hru, he⟩ := ih (hro.fits hf) (by omega)
        refine ⟨t1, .head ⟨hr, hne⟩ hru, ?_⟩
        simpa [hs] using he

theorem resolveInst_eq_error {i : InstId} {e : Fault} (h : c.resolveInst t i = .error e) :
    ∃ before after, e = .scopeLowered i before after := by
  unfold resolveInst at h
  simp only at h
  split at h
  · split at h
    · split at h
      · exact ⟨_, _, (Except.error.inj h).symm⟩
      · cases h
    · cases h
  · cases h

theorem resolveInsts_eq_error {is : List InstId} {e : Fault}
    (h : c.resolveInsts is t = (.error e, t')) : ∃ i before after, e = .scopeLowered i before after := by
  induction is generalizing t with
  | nil => simp [resolveInsts] at h
  | cons i is ih =>
    unfold resolveInsts at h
    cases hi : c.resolveInst t i with
    | error e' =>
      obtain rfl : e' = e := by simpa [hi] using congrArg Prod.fst h
      exact ⟨i, resolveInst_eq_error hi⟩
    | ok t1 =>
      rw [hi] at h
      exact ih h

end Rounds

/-- Whatever the strategy, no work goes on for ever, and neither do rounds that change something.
Looking at work ends with an empty list, unless the work leads to something that does not exist;
rounds end in one that changes nothing, unless one lowers a placement. Then every used instruction
that is not fixed is where the strategy puts it, and no earlier than its operands. -/
theorem classification_ends (c : Classifier) (s : State) (hfits : s.table.Fits c.program c.func)
    (work : List Work) :
    (¬∃ run : Nat → List Work × State,
      run 0 = (work.reverse, s) ∧ ∀ k, c.Looks (run k) (run (k + 1))) ∧
    ((∃ s', c.propagate work s = .ok s' ∧ ReflTransGen c.Looks (work.reverse, s) ([], s')) ∨
      c.propagate work s = .error .dangling ∧ ∃ n, c.LedFrom work n ∧ c.Broken n) ∧
    (¬∃ run : Nat → Classification,
      run 0 = c.absorb s.table ∧ ∀ k, c.Changes (run k) (run (k + 1))) ∧
    ∃ t, ReflTransGen c.Changes (c.absorb s.table) t ∧
      (c.resolveRound t = (.ok (), t) ∧ c.resolve s.table = (.ok (), t) ∧
          (∀ i inst, c.func.insts[i]? = some inst → (t.inst i).isUsed = true →
            t.isPinned i = false →
            c.strategy.placeValue (t.inst i) (c.operandScope t i inst.op (t.inst i).flags)
              = (t.inst i).scope ∧
            Scope.rank (c.operandScope t i inst.op (t.inst i).flags)
              ≤ Scope.rank (t.inst i).scope) ∨
        ∃ i before after t', c.resolveRound t = (.error (.scopeLowered i before after), t') ∧
          c.resolve s.table = (.error (.scopeLowered i before after), t')) := by
  have hfits' := fits_absorb (c := c) hfits
  refine ⟨?_, ?_, ?_, ?_⟩
  · exact no_endless_run (P := fun r => r.2.table.Fits c.program c.func) c.pending
      (fun r r' hr hlooks => hlooks.pending_lt hr) hfits
  · cases hprop : c.propagate work s with
    | ok s' => exact .inl ⟨s', rfl, looks_of_propagate hfits hprop⟩
    | error e =>
      obtain rfl := propagate_eq_error hprop
      exact .inr ⟨rfl, exists_broken_of_propagate hfits hprop⟩
  · exact no_endless_run (P := fun t => t.Fits c.program c.func) (fun t => c.raises - weight t)
      (fun t t' ht hchanges => hchanges.weight_lt ht) hfits'
  · obtain ⟨t, hruns, hend⟩ := settle_ends hfits'
      (show c.raises < weight (c.absorb s.table) + (c.raises + 1) by omega)
    refine ⟨t, hruns, hend.imp (fun h => ⟨h.1, h.2, fun i inst hinst hused hfree => ?_⟩) ?_⟩
    · have hsettled : c.Settled t := by
        have hdone := settled_resolve (c := c) hfits (congrArg Prod.fst h.2)
        rwa [show (c.resolve s.table).2 = t from congrArg Prod.snd h.2] at hdone
      exact ⟨hsettled.placed i inst hinst hused hfree, hsettled.inst i inst hinst hused hfree⟩
    · rintro ⟨e, t', hround, hsettle⟩
      obtain ⟨i, before, after, rfl⟩ := resolveInsts_eq_error hround
      exact ⟨i, before, after, t', hround, hsettle⟩

end Classifier

/-- Two phis of a loop that take their values from each other, one of them through a call. -/
def loopedPhis : Function where
  name := "main"
  entry := 0
  blocks := #[⟨[0], some (.jump 1)⟩, ⟨[1], some (.branch (.inst 0) 2 3)⟩, ⟨[2, 3], some (.jump 1)⟩,
    ⟨[4], some .ret⟩]
  insts := #[⟨.load (.member 0 []), .bool, 0⟩, ⟨.phi [(0, .inst 0), (2, .inst 3)], .bool, 1⟩,
    ⟨.phi [(1, .inst 1)], .bool, 2⟩, ⟨.call (.direct 0) [.inst 2], .bool, 2⟩,
    ⟨.store (.inst 1) (.member 1 []), .void, 3⟩]
  layout := [0, 1, 2, 3]

/-- Calls change the uses of their arguments, and each round raises a value up to the third scope. -/
def restless : Strategy where
  classifyCall _ flags := ⟨(flags.diff (.ofNat 1)).union (.ofNat 2), none⟩
  placeValue info scope :=
    let placed := Scope.later info.scope scope
    if Scope.rank placed < 3 then some (.ofNat (Scope.rank placed)) else placed

def loopedClassifier : Classifier :=
  classifierOf ⟨"looped", [.plain "a" .bool, .plain "out" .bool], [⟨"f", [.bool], .bool⟩],
    [loopedPhis]⟩ loopedPhis restless ⟨#[some 1, some 3, some 1, some 4, some 4], #[3, 2, 4, 1, 0]⟩

/-- A loop through phis comes to rest under a strategy that raises values round by round. -/
theorem ends_loopedPhis :
    loopedClassifier.initial.table.Fits loopedClassifier.program loopedClassifier.func ∧
    ∃ s, loopedClassifier.propagate [.reach (.inst 1) (.ofNat 1)] loopedClassifier.initial = .ok s ∧
      ReflTransGen loopedClassifier.Looks ([.reach (.inst 1) (.ofNat 1)], loopedClassifier.initial)
        ([], s) ∧
      s.table.Fits loopedClassifier.program loopedClassifier.func ∧
      ∃ t, loopedClassifier.resolve s.table = (.ok (), t) ∧
        ReflTransGen loopedClassifier.Changes (loopedClassifier.absorb s.table) t ∧
        (t.inst 1).scope = some (.ofNat 2) ∧
        restless.placeValue (t.inst 1) (loopedClassifier.operandScope t 1
          (.phi [(0, .inst 0), (2, .inst 3)]) (t.inst 1).flags) = some (.ofNat 2) := by
  have hfits : loopedClassifier.initial.table.Fits loopedClassifier.program loopedClassifier.func :=
    ⟨rfl, rfl, rfl, rfl, rfl, rfl, rfl⟩
  have hfound : (loopedClassifier.propagate [.reach (.inst 1) (.ofNat 1)]
      loopedClassifier.initial).toOption.any (fun s =>
        (loopedClassifier.resolve s.table).1.toBool &&
        ((loopedClassifier.resolve s.table).2.inst 1).isUsed &&
        !(loopedClassifier.resolve s.table).2.isPinned 1 &&
        ((loopedClassifier.resolve s.table).2.inst 1).scope == some (.ofNat 2)) = true := by
    decide +kernel
  obtain ⟨-, hwork, -, -⟩ := Classifier.classification_ends loopedClassifier loopedClassifier.initial
    hfits [.reach (.inst 1) (.ofNat 1)]
  rcases hwork with ⟨s, hprop, hlooks⟩ | ⟨hprop, -⟩
  · have hfits' := Classifier.propagate_keeps
      (P := fun s => s.table.Fits loopedClassifier.program loopedClassifier.func)
      (fun _ _ _ _ hs hv => (Classifier.visits_of_visit hv).fits hs) hfits hprop
    obtain ⟨-, -, -, t, hruns, hend⟩ := Classifier.classification_ends loopedClassifier s hfits' []
    refine ⟨hfits, s, hprop, hlooks, hfits', t, ?_⟩
    rcases hend with ⟨-, hresolve, hplaced⟩ | ⟨i, before, after, t', -, hresolve⟩
    · simp only [hprop, hresolve, Except.toOption, Option.any_some, Bool.and_eq_true,
        Bool.not_eq_true', beq_iff_eq] at hfound
      obtain ⟨⟨⟨-, hused⟩, hfree⟩, hscope⟩ := hfound
      have hplace := (hplaced 1 _ rfl hused hfree).1
      exact ⟨hresolve, hruns, hscope, hplace.trans hscope⟩
    · simp [hprop, hresolve, Except.toOption, Except.toBool] at hfound
  · simp [hprop, Except.toOption] at hfound

end Stagewise
