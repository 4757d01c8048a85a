import Stagewise.Proofs.Classification.Forcing
import Stagewise.Proofs.Classification.Liveness

namespace Stagewise

open Relation

def Endpoint.demand (e : Endpoint) : Request := .sink e.name e.scope e.flags

namespace Classifier

variable {c : Classifier} {s s' : State} {t t' : Classification} {R : List Request}
  {roots : GlobalId → Option Scope} {U : Node → Prop} {B B' : Problem → Prop} {n m : Node}
  {name : String} {scope : Scope} {flags : UsageFlags} {site : SinkSite}

section Writes

def Free (c : Classifier) (R : List Request) (n : Node) : Prop :=
  ∀ i x, n = .inst i → ¬c.Writes R i x

def Unread (c : Classifier) (R : List Request) : Prop :=
  ∀ i x, c.Writes R i x → i ∉ c.func.readInsts

theorem dependsOn_of_mem_leads {i : InstId} (h : .inst i ∈ c.leads n) : c.DependsOn n (.inst i) := by
  cases n with
  | inst j =>
    simp only [leads] at h
    cases hj : c.func.insts[j]? with
    | none => simp [hj] at h
    | some inst => simpa [hj, DependsOn, dependencies] using h
  | terminator b => simpa [leads, DependsOn, dependencies] using h
  | block b | global g => exact h

theorem Unread.free_of_mem_leads (hr : c.Unread R) (h : m ∈ c.leads n) : c.Free R m := by
  rintro i x rfl hW
  exact hr i x hW (mem_readInsts_of_dependsOn (dependsOn_of_mem_leads h))

theorem Unread.clear (hr : c.Unread R) (hf : c.Free R n) : c.Clear (c.Writes R) n :=
  clear_of_not_read hr hf

theorem Reaches.led (hr : c.Unread R) (h : c.Reaches R n) (hf : c.Free R n)
    (hp : ReflTransGen (fun n m => m ∈ c.leads n) n m) : c.Reaches R m ∧ c.Free R m := by
  induction hp with
  | refl => exact ⟨h, hf⟩
  | tail _ hl ih => exact ⟨.lead ih.1 ih.2 hl, hr.free_of_mem_leads hl⟩

theorem Unread.free_of_mem_reads (hre : c.Unread R) (hs : site ∈ c.sinkSites name) {v : Value}
    (hv : v ∈ site.reads) (hn : v.node? = some n) : c.Free R n := by
  rintro i x rfl hW
  obtain rfl := node?_eq_inst hn
  obtain ⟨inst, hi, -, hr, -⟩ := mem_sinkSites hs
  refine hre i x hW (List.mem_append_left _ (List.mem_flatMap.mpr ⟨inst, ?_, ?_⟩))
  · exact Array.mem_toList_iff.mpr (Array.mem_of_getElem? hi)
  · exact List.mem_filterMap.mpr ⟨_, hr _ hv, rfl⟩

theorem Unread.free_of_mem_sinkWork (hr : c.Unread R) (hs : site ∈ c.sinkSites name) {w : Work}
    (hw : w ∈ sinkWork scope flags site) : c.Free R w.node := by
  unfold sinkWork at hw
  rcases List.mem_append.mp hw with hw | hw
  · obtain ⟨v, hv, hw⟩ := List.mem_flatMap.mp hw
    obtain ⟨n, hn, rfl⟩ := Work.mem_ofValue.mp hw
    exact hr.free_of_mem_reads hs hv hn
  · split at hw
    · obtain rfl := List.mem_singleton.mp hw
      rintro i x heq
      cases heq
    · cases hw

theorem LedFrom.reaches (hre : c.Unread R) (hr : .sink name scope flags ∈ R)
    (h : c.LedFrom ((c.sinkSites name).flatMap (sinkWork scope flags)) n) :
    c.Reaches R n ∧ c.Free R n := by
  obtain ⟨w, hw, hp⟩ := h
  obtain ⟨site, hs, hw⟩ := List.mem_flatMap.mp hw
  have ha : c.Reaches R w.node := .asked hr ⟨site, hs, .inr ⟨w, hw, rfl⟩⟩
  exact ha.led hre (hre.free_of_mem_sinkWork hs hw) hp

theorem isUsed_of_isUsed_pinSites
    (h : ((c.pinSites name scope flags t).info n).isUsed = true) :
    (t.info n).isUsed = true ∨ ∃ site ∈ c.sinkSites name, n = .inst site.inst := by
  refine pinSites_invariant (P := fun u => (u.info n).isUsed = true → (t.info n).isUsed = true ∨
    ∃ site ∈ c.sinkSites name, n = .inst site.inst) (fun site hs u hu h => ?_) .inl h
  rw [Classification.info_pin] at h
  split at h
  · next hn => exact .inr ⟨site, hs, hn.1⟩
  · exact hu h

end Writes

section Bare

def Bare (t : Classification) : Prop :=
  ∀ n, (∀ g, n ≠ .global g) → (t.info n).isUsed = false → (t.info n).scope = none

theorem Bare.update (h : Bare t) (hne : ∀ n, t'.info n = t.info n ∨ (t'.info n).isUsed = true) :
    Bare t' := by
  intro n hn hu
  rcases hne n with heq | hus
  · rw [heq] at hu ⊢
    exact h n hn hu
  · rw [hus] at hu
    cases hu

theorem Bare.of_samePlaces (h : Bare t) (hs : t.SamePlaces t')
    (hus : ∀ n, (t.info n).isUsed = true → (t'.info n).isUsed = true) : Bare t' := by
  intro n hn hu
  rw [hs]
  apply h n hn
  by_contra hc
  rw [hus n (by simpa using hc)] at hu
  cases hu

theorem Bare.resolve (h : Bare t) : Bare (c.resolve t).2 := by
  refine settle_invariant (P := Bare) (fun t m y hl ht => ht.update fun n => ?_) _ ?_
  · rw [hl.info]
    split
    · exact .inr hl.used
    · exact .inl rfl
  · refine h.of_samePlaces (samePlaces_absorb c t) fun n hn => ?_
    exact ((sameUses_absorb c t).isUsed n).trans hn

theorem Bare.pinSites (h : Bare t) (hf : flags.isEmpty = false) :
    Bare (c.pinSites name scope flags t) := by
  have hi : (⟨some scope, flags⟩ : ValueInfo).isUsed = true := by simp [ValueInfo.isUsed, hf]
  refine pinSites_invariant (P := Bare) (fun site _ t h => h.update fun n => ?_) h
  rw [Classification.info_pin]
  split
  · exact .inr hi
  · exact .inl rfl

end Bare

section Answers

/-- What the answer for a sink must be: the value of the last write, with the required scope if the
write is a call, and else with the latest scope that the value depends on. -/
def Answers (c : Classifier) (roots : GlobalId → Option Scope) (e : Endpoint)
    (write : Option SinkWrite) : Prop :=
  match (c.sinkSites e.name).getLast? with
  | none => write = none
  | some last => ∃ scope, write = some ⟨last.value, scope⟩ ∧
      if last.value = .inst last.inst then scope = some e.scope
      else ∀ x, scope = some x ↔ ∃ n, last.value.node? = some n ∧ IsGreatest (c.supply roots n) x

theorem Answers.unique {e : Endpoint} {write write' : Option SinkWrite}
    (h : c.Answers roots e write) (h' : c.Answers roots e write') : write = write' := by
  unfold Answers at h h'
  split at h
  · next hl =>
    rw [hl] at h'
    exact h.trans h'.symm
  · next last hl =>
    rw [hl] at h'
    obtain ⟨scope, rfl, hs⟩ := h
    obtain ⟨scope', rfl, hs'⟩ := h'
    suffices scope = scope' by rw [this]
    split at hs
    · next hc =>
      rw [if_pos hc] at hs'
      exact hs.trans hs'.symm
    · next hc =>
      rw [if_neg hc] at hs'
      exact Option.ext fun x => (hs x).trans (hs' x).symm

theorem value_of_mem_sinkSites (h : site ∈ c.sinkSites name) :
    site.value ∈ site.reads ∨ site.value = .inst site.inst := by
  obtain ⟨i, -, h⟩ := List.mem_filterMap.mp h
  unfold sinkSite? at h
  split at h
  · split at h
    · cases h
      exact .inl List.mem_cons_self
    · cases h
  · split at h
    · cases h
      exact .inr rfl
    · cases h
  · cases h

end Answers

/-- The state of a classification of some sinks, whichever of them are done. -/
structure Standing (c : Classifier) (roots : GlobalId → Option Scope) (R : List Request)
    (U : Node → Prop) (B : Problem → Prop) (s : State) : Prop where
  charted : c.Charted (c.Brings roots) roots (c.Writes R) s.table
  used : ∀ n, (s.table.info n).isUsed = true → U n ∨ c.Reaches R n
  noted : c.Noted B s
  bare : Bare s.table

theorem Standing.congr (h : c.Standing roots R U B s) (hB : ∀ p, B p ↔ B' p) :
    c.Standing roots R U B' s :=
  ⟨h.charted, h.used, ⟨h.noted.nodup, fun p => by rw [h.noted.mem, hB]⟩, h.bare⟩

def Fails (c : Classifier) (R : List Request) (e : Fault) : Prop :=
  e = .dangling ∧ ∃ n, c.Reaches R n ∧ c.Free R n ∧ c.Broken n

theorem sat_resolveAll (hp : c.strategy = .plain) {E : Fault → Prop} {Q : Unit → State → Prop} :
    Act.Sat E c.resolveAll s Q ↔ Q () (c.settled s) := by
  have hr : c.resolveAll.run s = (.ok (), c.settled s) := by
    show ((c.resolve s.table).1, c.settled s) = _
    rw [resolve_ok (.of_plain hp)]
  rw [Act.Sat, hr]

variable {e : Endpoint}

/-- Taking up another of the sinks keeps what holds whichever of them are done. -/
theorem Standing.sink (hp : c.strategy = .plain) (hr : c.Unread R)
    (he : e.demand ∈ R) (hf : e.flags.isEmpty = false) (h : c.Standing roots R U B s) {s1 : State}
    (hpr : c.propagate ((c.sinkSites e.name).flatMap (sinkWork e.scope e.flags))
      { s with table := c.pinSites e.name e.scope e.flags s.table } = .ok s1) :
    c.Standing roots R U B (c.settled s1) := by
  have hwr : ∀ site ∈ c.sinkSites e.name, c.Writes R site.inst e.scope := fun site hs =>
    ⟨e.name, e.flags, he, site, hs, rfl⟩
  have hwo : ∀ w ∈ (c.sinkSites e.name).flatMap (sinkWork e.scope e.flags),
      w.flags.isEmpty = false := by
    intro w hw
    obtain ⟨site, -, hw⟩ := List.mem_flatMap.mp hw
    rw [flags_sinkWork hw, hf]
  obtain ⟨hc, -⟩ := h.charted.toCharts.pinSites hf hwr
  have hfl := (hc.push hwo).flowing
  have ha := advances_of_propagate hc.fits hpr
  have hus := sameUses_resolve c s1.table
  refine ⟨(hc.classify (placesBy_plain hp) hwo hpr).1, fun n hn => ?_, ?_, ?_⟩
  · have hn : (s1.table.info n).isUsed = true := (hus.isUsed n).symm.trans hn
    rcases ha.used (.of_plain hp) hfl hn with hn | ⟨w, hw, hpa⟩
    · rcases isUsed_of_isUsed_pinSites hn with hn | ⟨site, hs, rfl⟩
      · exact h.used n hn
      · exact .inr (.asked he ⟨site, hs, .inl rfl⟩)
    · exact .inr (LedFrom.reaches hr he ⟨w, List.mem_reverse.mp hw, hpa⟩).1
  · have hpi : c.Noted B { s with table := c.pinSites e.name e.scope e.flags s.table } := by
      refine h.noted.of_used rfl fun i hi => ⟨fun hu => ?_, fun hu => ?_⟩
      · rcases isUsed_of_isUsed_pinSites (n := .inst i) hu with hu | ⟨site, hs, heq⟩
        · exact hu
        · obtain rfl := Node.inst.inj heq
          exact absurd (trouble?_of_mem_sinkSites hs) hi
      · exact (h.charted.toCharts.pinSites hf hwr).2 (.inst i) (.inl hu)
    exact (hpi.propagate hpr).of_used rfl fun i _ => by
      rw [show ((c.settled s1).table.inst i).isUsed = (s1.table.inst i).isUsed from
        hus.isUsed (.inst i)]
  · refine Bare.resolve ((h.bare.pinSites hf).of_samePlaces ha.samePlaces fun n hn => ?_)
    exact (ha.reached (.of_plain hp) hfl (.inl hn)).isUsed

theorem Standing.valueScope (hp : c.strategy = .plain) (hr : c.Unread R)
    (h : c.Standing roots R U B s)
    (ha : ∀ n, c.Asks e.demand n → (s.table.info n).isUsed = true)
    (hs : site ∈ c.sinkSites e.name) {v : Value} (hv : v ∈ site.reads) (x : Scope) :
    s.table.valueScope v = some x ↔ ∃ n, v.node? = some n ∧ IsGreatest (c.supply roots n) x := by
  cases hn : v.node? with
  | none =>
    cases v with
    | const _ => simp [Classification.valueScope]
    | inst _ | global _ => cases hn
  | some n =>
    have hu := ha n (asks_of_mem_reads hs hv hn)
    have hc := hr.clear (hr.free_of_mem_reads hs hv hn)
    rw [Classification.valueScope_of_node hn hu, h.charted.scope_eq_some_iff hp hc hu]
    simp

/-- The answer for a sink follows from its writes and the roots, whatever sinks came before. -/
theorem sat_classifySink_standing (hpl : c.strategy = .plain) (hrea : c.Unread R)
    (he : e.demand ∈ R) (hfl : e.flags.isEmpty = false) (h : c.Standing roots R U B s)
    (hB : ¬B (.sinkNotFound e.name)) :
    Act.Sat (c.Fails R) (c.classifySink e.name e.scope e.flags) s fun write s' =>
      c.Standing roots R U
        (fun p => B p ∨ c.sinkSites e.name = [] ∧ p = .sinkNotFound e.name) s' ∧
      c.Answers roots e write := by
  unfold classifySink
  simp only
  cases hl : (c.sinkSites e.name).getLast? with
  | none =>
    have hni := List.getLast?_eq_none_iff.mp hl
    simp only [Act.sat_bind, Act.sat_modify, Act.sat_pure]
    refine ⟨⟨h.charted, h.used, ⟨?_, fun p => ?_⟩, h.bare⟩, by rw [Answers, hl]⟩
    · have hne : .sinkNotFound e.name ∉ s.problems := by
        rw [h.noted.mem]
        rintro (ho | ⟨i, -, hi⟩)
        · exact hB ho
        · exact trouble?_ne_sinkNotFound hi
      rw [← List.concat_eq_append]
      exact List.Nodup.concat hne h.noted.nodup
    · rw [List.mem_append, h.noted.mem, List.mem_singleton, or_right_comm]
      simp [hni]
  | some last =>
    have hm : last ∈ c.sinkSites e.name := List.mem_of_getLast? hl
    have hso : c.sinkSites e.name ≠ [] := List.ne_nil_of_mem hm
    have hon : ∀ i x, c.Writes [e.demand] i x → c.Writes R i x := by
      rintro i x ⟨name, flags, hr, hsi⟩
      exact ⟨name, flags, List.mem_singleton.mp hr ▸ he, hsi⟩
    have hse : e.demand.isSeed = true := by simp [Endpoint.demand, Request.isSeed, hfl]
    simp only [classify, Act.sat_bind, Act.sat_modify, Act.sat_get, Act.sat_ofExcept, Act.sat_set,
      sat_resolveAll hpl]
    refine ⟨fun s1 hpr => ?_, fun fault hpr => ?_⟩
    · have hs := h.sink hpl hrea he hfl hpr
      have hre : c.Responds e.demand ⟨s, []⟩ ⟨c.settled s1, []⟩ := .sink hpr
      obtain ⟨-, ha⟩ := hre.charted (placesBy_plain hpl) hse hon h.charted
      have hpi : (c.settled s1).table.isPinned last.inst = true := hre.isPinned hse
        h.charted.fits (.inr ⟨e.name, e.flags, List.mem_singleton.mpr rfl, last, hm, rfl⟩)
      have hsc := fun hv => hs.valueScope hpl hrea
        (fun n hn => ha n (.inr hn)) hm (v := last.value) hv
      have hs' := hs.congr fun p => (or_iff_left fun hp : c.sinkSites e.name = [] ∧
        p = .sinkNotFound e.name => hso hp.1).symm
      have hread : last.value ≠ .inst last.inst → last.value ∈ last.reads :=
        (value_of_mem_sinkSites hm).resolve_right
      cases hva : last.value with
      | inst i =>
        refine ⟨hs', ?_⟩
        rw [Answers, hl]
        refine ⟨_, by rw [hva], ?_⟩
        split
        · next hc =>
          obtain rfl : i = last.inst := Value.inst.inj (hva.symm.trans hc)
          rw [if_pos hpi]
        · next hc =>
          have hv := hread hc
          have hf : ¬(c.settled s1).table.isPinned i = true := by
            intro hpin
            obtain ⟨x, -, hW⟩ := hs.charted.pinned i hpin
            exact hrea.free_of_mem_reads hm hv (n := .inst i) (by rw [hva]; rfl) i x rfl hW
          have hx := hsc hv
          rw [hva] at hx ⊢
          rw [if_neg hf]
          exact hx
      | global g | const k =>
        refine ⟨hs', ?_⟩
        rw [Answers, hl]
        have hc : last.value ≠ .inst last.inst := by simp [hva]
        exact ⟨_, by rw [hva], by rw [if_neg hc]; simpa [hva] using hsc (hread hc)⟩
    · obtain ⟨n, hle, hb⟩ := exists_broken_of_propagate (fits_pinSites h.charted.fits) hpr
      obtain ⟨hreac, hf⟩ := hle.reaches hrea he
      exact ⟨propagate_eq_error hpr, n, hreac, hf, hb⟩

theorem sat_classifySinks_standing (hp : c.strategy = .plain) (hre : c.Unread R)
    {sinks : List Endpoint} (hs : ∀ e ∈ sinks, e.demand ∈ R)
    (hf : ∀ e ∈ sinks, e.flags.isEmpty = false) (hn : (sinks.map Endpoint.name).Nodup)
    (h : c.Standing roots R U B s) (hB : ∀ e ∈ sinks, ¬B (.sinkNotFound e.name)) :
    Act.Sat (c.Fails R) (c.classifySinks sinks) s fun results s' =>
      c.Standing roots R U
        (fun p => B p ∨ ∃ e ∈ sinks, c.sinkSites e.name = [] ∧ p = .sinkNotFound e.name) s' ∧
      List.Forall₂ (fun e r => r.name = e.name ∧ c.Answers roots e r.write) sinks results := by
  unfold classifySinks
  induction sinks generalizing s B with
  | nil =>
    refine ⟨h.congr fun p => ?_, .nil⟩
    simp
  | cons e rest ih =>
    obtain ⟨hne, hn⟩ := List.nodup_cons.mp hn
    simp only [List.mapM_cons, Act.sat_bind, Act.sat_pure]
    refine (sat_classifySink_standing hp hre (hs e List.mem_cons_self)
      (hf e List.mem_cons_self) h (hB e List.mem_cons_self)).mono fun write s1 ho => ?_
    obtain ⟨hst, ha⟩ := ho
    have hB' : ∀ e' ∈ rest, ¬(B (.sinkNotFound e'.name) ∨
        c.sinkSites e.name = [] ∧ Problem.sinkNotFound e'.name = .sinkNotFound e.name) := by
      rintro e' he' (hol | ⟨-, heq⟩)
      · exact hB e' (List.mem_cons_of_mem _ he') hol
      · exact hne (Problem.sinkNotFound.inj heq ▸ List.mem_map_of_mem he')
    refine (ih (fun e' he' => hs e' (List.mem_cons_of_mem _ he'))
      (fun e' he' => hf e' (List.mem_cons_of_mem _ he')) hn hst hB').mono ?_
    rintro results s' ⟨hs', hr⟩
    refine ⟨hs'.congr fun p => ?_, .cons ⟨rfl, ha⟩ hr⟩
    simp only [List.mem_cons, exists_eq_or_imp, or_assoc]

end Classifier

end Stagewise
