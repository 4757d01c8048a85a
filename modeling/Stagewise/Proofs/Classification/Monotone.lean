import Stagewise.Proofs.Classification.ForcedClosure

namespace Stagewise

namespace UsageFlags

variable {x y z : UsageFlags}

theorem contains_refl (x : UsageFlags) : x.contains x = true := contains_iff.mpr (BitVec.or_self ..)

theorem contains_trans (h : x.contains y = true) (h' : y.contains z = true) : x.contains z = true := by
  have hxy := contains_iff.mp h
  have hyz := contains_iff.mp h'
  rw [contains_iff, ← hxy, BitVec.or_assoc, hyz]

theorem contains_union_left (x y : UsageFlags) : (x.union y).contains x = true := by
  rw [contains_iff]
  show (x.bits ||| y.bits) ||| x.bits = x.bits ||| y.bits
  rw [BitVec.or_comm, ← BitVec.or_assoc, BitVec.or_self]

end UsageFlags

namespace ValueInfo

variable {x y z : ValueInfo}

def Below (x y : ValueInfo) : Prop :=
  y.flags.contains x.flags = true ∧ Scope.rank x.scope ≤ Scope.rank y.scope

theorem Below.refl (x : ValueInfo) : x.Below x :=
  ⟨UsageFlags.contains_refl _, le_refl _⟩

theorem Below.trans (h : x.Below y) (h' : y.Below z) : x.Below z :=
  ⟨UsageFlags.contains_trans h'.1 h.1, h.2.trans h'.2⟩

theorem below_union (x : ValueInfo) (flags : UsageFlags) :
    x.Below { x with flags := x.flags.union flags } :=
  ⟨UsageFlags.contains_union_left .., le_refl _⟩

theorem Higher.below (h : x.Higher y) : x.Below y :=
  ⟨h.1 ▸ (Below.refl x).1, h.2⟩

end ValueInfo

namespace Classification

variable {free : InstId → Prop} {t t' t'' : Classification}

/-- The second table has all that the first one has, but for the entries of some instructions. -/
structure Keeps (free : InstId → Prop) (t t' : Classification) : Prop where
  entry : ∀ n, (∀ i, n = .inst i → ¬free i) → (t.info n).Below (t'.info n)
  forced : ∀ b x, (t.forcedAt b).contains x = true → (t'.forcedAt b).contains x = true
  guards : ∀ q x, (t.guardsAt q).contains x = true → (t'.guardsAt q).contains x = true

theorem Keeps.refl (t : Classification) : Keeps free t t :=
  ⟨fun n _ => .refl (t.info n), fun _ _ => id, fun _ _ => id⟩

theorem Keeps.trans (h : Keeps free t t') (h' : Keeps free t' t'') : Keeps free t t'' :=
  ⟨fun n hn => (h.entry n hn).trans (h'.entry n hn), fun b x hb => h'.forced b x (h.forced b x hb),
    fun q x hq => h'.guards q x (h.guards q x hq)⟩

theorem keeps_pin {i : InstId} (t : Classification) (info : ValueInfo) (hi : free i) :
    Keeps free t (t.pin i info) := by
  refine ⟨fun n hn => ?_, fun _ _ => id, fun _ _ => id⟩
  rw [info_pin, if_neg fun h => hn i h.1 hi]
  exact .refl _

end Classification

namespace Classifier

open Classification

variable {c : Classifier} {free : InstId → Prop} {s s' : State} {t t' : Classification} {w : Work}
  {work : List Work} {name : String} {required : Scope} {flags : UsageFlags} {i : InstId}

theorem Visits.keeps (h : c.Visits t w work t') : Keeps free t t' := by
  cases h with
  | known _ _ => exact .refl t
  | learn _ hl =>
    refine ⟨fun n _ => ?_, fun b x hb => ?_, fun q x hq => (hl.guards q x).mpr (.inl hq)⟩
    · rw [hl.info]
      split
      · exact ValueInfo.below_union ..
      · exact .refl _
    · rw [hl.forced]
      split
      · rw [ScopeSet.contains_union, hb, Bool.true_or]
      · exact hb

theorem keeps_absorb (c : Classifier) (t : Classification) : Keeps free t (c.absorb t) := by
  refine ⟨fun n _ => ?_, fun _ _ => id, fun _ _ => id⟩
  cases n with
  | inst i =>
    show (t.inst i).Below ((c.absorb t).inst i)
    rw [inst_absorb, absorbInst]
    split
    · split
      · exact ValueInfo.below_union ..
      · exact .refl _
    · exact .refl _
  | global _ | block _ | terminator _ => exact .refl _

theorem Raises.keeps (h : Raises t t') : Keeps free t t' := by
  refine ⟨fun n _ => (h.higher n).below, fun b x hb => ?_, fun q x hq => ?_⟩
  · rwa [forcedAt, h.forced]
  · rwa [guardsAt, h.guards]

theorem keeps_resolve (c : Classifier) (t : Classification) : Keeps free t (c.resolve t).2 :=
  (keeps_absorb c t).trans (raises_settle c _ _).keeps

theorem keeps_propagate (h : c.propagate work s = .ok s') : Keeps free s.table s'.table :=
  propagate_keeps (P := fun u => Keeps free s.table u.table)
    (fun _ _ _ _ hu hv => hu.trans (visits_of_visit hv).keeps) (.refl _) h

theorem fixed_propagate {info : ValueInfo} (h : c.propagate work s = .ok s')
    (hf : c.Fixed s.table i info) : c.Fixed s'.table i info :=
  propagate_keeps (P := fun u => c.Fixed u.table i info)
    (fun _ _ _ _ hu hv => (visits_of_visit hv).fixed hu) hf h

/-- Classifying keeps what there is, and fixed entries as they are; it changes nothing if some work
goes to what does not exist. -/
theorem ends_classify_keeps (free : InstId → Prop) (c : Classifier) (work : List Work) (s : State) :
    Act.Ends (c.classify work) s fun _ s' => Keeps free s.table s'.table ∧
      ∀ i info, c.Fixed s.table i info → c.Fixed s'.table i info := by
  simp only [classify, Act.ends_bind, Act.ends_get, Act.ends_ofExcept]
  cases hp : c.propagate work s with
  | error e => exact ⟨.refl _, fun _ _ => id⟩
  | ok s1 =>
    exact ⟨(keeps_propagate hp).trans (keeps_resolve c s1.table), fun i info hf =>
      (resolve_steady c s1.table).fixed i info (fixed_propagate hp hf)⟩

/-- An instruction writes a sink: it stores to the binding of its name, or calls the function of its
name. -/
def WritesSink (c : Classifier) (name : String) (i : InstId) : Prop :=
  ∃ inst, c.func.insts[i]? = some inst ∧
    ((∃ v addr g, inst.op = .store v addr ∧ addr.global? = some g ∧
        c.program.globalNamed? name = some g) ∨
      ∃ callee args, inst.op = .call (.direct callee) args ∧ c.program.declNamed? name = some callee)

theorem exists_site_iff : (∃ site ∈ c.sinkSites name, site.inst = i) ↔ c.WritesSink name i := by
  constructor
  · rintro ⟨site, hs, rfl⟩
    obtain ⟨inst, hi, -, -, ⟨v, addr, hop, hso, hg⟩ | ⟨callee, args, hop, hc⟩⟩ :=
      mem_sinkSites hs
    · obtain ⟨g, hn⟩ := Option.isSome_iff_exists.mp hso
      exact ⟨inst, hi, .inl ⟨v, addr, g, hop, hg.trans hn, hn⟩⟩
    · exact ⟨inst, hi, .inr ⟨callee, args, hop, hc⟩⟩
  · rintro ⟨⟨op, ty, block⟩, hi, hw⟩
    have hm : i ∈ c.func.instIds := List.mem_range.mpr (Array.getElem?_eq_some_iff.mp hi).1
    have hs : ∃ site, c.sinkSite? (c.program.globalNamed? name) (c.program.declNamed? name) i
        = some site := by
      rcases hw with ⟨v, addr, g, rfl, ha, hg⟩ | ⟨callee, args, rfl, hc⟩
      · simp [sinkSite?, hi, ha, hg]
      · simp [sinkSite?, hi, hc]
    obtain ⟨site, hs⟩ := hs
    exact ⟨site, List.mem_filterMap.mpr ⟨i, hm, hs⟩, (sinkSite?_eq_some hs).1⟩

theorem keeps_pinSites (t : Classification) :
    Keeps (c.WritesSink name) t (c.pinSites name required flags t) :=
  pinSites_invariant (P := fun u => Keeps (c.WritesSink name) t u)
    (fun site hs u hu => hu.trans (keeps_pin u _ (exists_site_iff.mp ⟨site, hs, rfl⟩))) (.refl t)

theorem ends_classifySink_keeps (c : Classifier) (name : String) (required : Scope)
    (flags : UsageFlags) (s : State) :
    Act.Ends (c.classifySink name required flags) s fun _ s' =>
      Keeps (c.WritesSink name) s.table s'.table ∧ (s.table.Fits c.program c.func →
        ∀ i, c.WritesSink name i → s'.table.inst i = ⟨some required, flags⟩) := by
  unfold classifySink
  simp only
  cases hl : (c.sinkSites name).getLast? with
  | none =>
    refine ⟨.refl _, fun _ i hi => ?_⟩
    obtain ⟨site, hsi, -⟩ := exists_site_iff.mpr hi
    rw [List.getLast?_eq_none_iff.mp hl] at hsi
    cases hsi
  | some last =>
    simp only [Act.ends_bind, Act.ends_modify, Act.ends_get]
    refine (ends_classify_keeps (c.WritesSink name) c _ _).mono fun r s' h => ?_
    have hk : Keeps (c.WritesSink name) s.table s'.table ∧ (s.table.Fits c.program c.func →
        ∀ i, c.WritesSink name i → s'.table.inst i = ⟨some required, flags⟩) := by
      refine ⟨(keeps_pinSites s.table).trans h.1, fun hf i hi => ?_⟩
      obtain ⟨site, hsi, rfl⟩ := exists_site_iff.mpr hi
      exact (h.2 _ _ (fixed_pins hf (fun _ hs => hs) hsi)).inst_eq
    cases r with
    | error e => exact hk
    | ok a => cases last.value <;> exact hk

/-- Classifying an operand, and so an instruction, or a block keeps all that a table has, answered or
failed. Classifying a sink keeps all but the entries of its writes; these become what is asked for. -/
theorem classification_keeps (c : Classifier) (s : State) :
    (∀ v flags, Keeps (fun _ => False) s.table ((c.classifyValue v flags).run s).2.table) ∧
    (∀ b flags force, Keeps (fun _ => False) s.table ((c.classifyBlock b flags force).run s).2.table) ∧
    ∀ name required flags,
      Keeps (c.WritesSink name) s.table ((c.classifySink name required flags).run s).2.table ∧
      (s.table.Fits c.program c.func → ∀ i, c.WritesSink name i →
        ((c.classifySink name required flags).run s).2.table.inst i = ⟨some required, flags⟩) := by
  have hclassify : ∀ {α : Type} (work : List Work) (answer : Act State α),
      (∀ s, Act.Ends answer s fun _ s' => s' = s) →
      Act.Ends (do c.classify work; answer) s fun _ s' => Keeps (fun _ => False) s.table s'.table := by
    intro α work answer hanswer
    rw [Act.ends_bind]
    refine (ends_classify_keeps (fun _ => False) c work s).mono fun r s₁ h => ?_
    cases r with
    | error e => exact h.1
    | ok _ => exact (hanswer s₁).mono fun _ s' heq => heq ▸ h.1
  refine ⟨fun v flags => hclassify _ _ fun _ => rfl, fun b flags force => hclassify _ _ fun _ => rfl,
    fun name required flags => ends_classifySink_keeps c name required flags s⟩

end Classifier

def clampedClassifier : Classifier :=
  { nestedClassifier with strategy := .adjusted ⟨none, .ofNat 0, .ofNat 0, some (.ofNat 0), .ofNat 0,
    none, .ofNat 1, some (.ofNat 0)⟩ }

def clampedState : Classifier.State :=
  ((clampedClassifier.declareRoot 0 (.ofNat 1) (.ofNat 2)).run clampedClassifier.initial).2

/-- The write is put where the sink asks for it, though placing what it reads fails. -/
theorem keeps_clamped : clampedState.table.Fits clampedClassifier.program clampedClassifier.func ∧
    ((clampedClassifier.classifySink "out" (.ofNat 2) (.ofNat 1)).run clampedState).1
      = .error (.scopeLowered 0 (some (.ofNat 1)) (some (.ofNat 0))) ∧
    Classification.Keeps (clampedClassifier.WritesSink "out") clampedState.table
      ((clampedClassifier.classifySink "out" (.ofNat 2) (.ofNat 1)).run clampedState).2.table ∧
    ((clampedClassifier.classifySink "out" (.ofNat 2) (.ofNat 1)).run clampedState).2.table.inst 2
      = ⟨some (.ofNat 2), .ofNat 1⟩ := by
  have hfits : clampedState.table.Fits clampedClassifier.program clampedClassifier.func :=
    ⟨rfl, rfl, rfl, rfl, rfl, rfl, rfl⟩
  have hsink := (Classifier.classification_keeps clampedClassifier clampedState).2.2 "out" (.ofNat 2)
    (.ofNat 1)
  refine ⟨hfits, ?_, hsink.1, hsink.2 hfits 2 ?_⟩
  · decide +kernel
  · exact ⟨_, rfl, .inl ⟨_, _, 2, rfl, rfl, rfl⟩⟩

end Stagewise
