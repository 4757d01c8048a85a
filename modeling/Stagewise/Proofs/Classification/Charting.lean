import Stagewise.Proofs.Classification.Requests
import Stagewise.Proofs.Classification.Spreading

namespace Stagewise

open Relation

namespace Request

def root? (p : Program) : Request → Option (GlobalId × Scope)
  | .root g scope _ => some (g, scope)
  | .rootNamed name scope _ => (p.globalNamed? name).map (·, scope)
  | _ => none

def isRoot : Request → Bool
  | .root .. => true
  | .rootNamed .. => true
  | _ => false

def isSeed : Request → Bool
  | .sink _ _ flags => !flags.isEmpty
  | .value _ flags => !flags.isEmpty
  | .block _ flags _ => !flags.isEmpty
  | _ => false

/-- The scope of a binding after some requests, which is that of its last declaration. -/
def rootScope (p : Program) (requests : List Request) (g : GlobalId) : Option Scope :=
  (requests.filterMap (root? p)).reverse.lookup g

end Request

namespace Classifier

variable {c : Classifier} {t t' : Classification} {work stack : List Work} {n m : Node} {i : InstId}
  {x : Scope} {roots : GlobalId → Option Scope} {B : Node → Scope → Prop} {W : InstId → Scope → Prop}
  {rest : List Work}

/-- The writes of the sinks that are asked for, with the scopes that they are required in. -/
def Writes (c : Classifier) (requests : List Request) (i : InstId) (x : Scope) : Prop :=
  ∃ name flags, .sink name x flags ∈ requests ∧ ∃ site ∈ c.sinkSites name, site.inst = i

/-- The scopes that a node brings of itself: a binding that of its declaration, a call of a declared
function the first. -/
inductive Brings (c : Classifier) (roots : GlobalId → Option Scope) : Node → Scope → Prop
  | root {g x} : roots g = some x → Brings c roots (.global g) x
  | call {i inst callee args} : c.func.insts[i]? = some inst →
      inst.op = .call (.direct callee) args → Brings c roots (.inst i) (.ofNat 0)

/-- Where placements come from: from what nodes bring, and from the scopes of writes. -/
def Origin (c : Classifier) (roots : GlobalId → Option Scope) (W : InstId → Scope → Prop) (n : Node)
    (x : Scope) : Prop :=
  c.Brings roots n x ∨ ∃ i, n = .inst i ∧ W i x

theorem Advances.samePlaces (h : c.Advances (stack, t) (rest, t')) : t.SamePlaces t' :=
  h.invariant (P := fun _ t' => t.SamePlaces t') (fun _ _ _ _ _ hv hs => hs.trans hv.samePlaces)
    (.refl t)

theorem Advances.isPinned (h : c.Advances (stack, t) (rest, t')) (i : InstId) :
    t'.isPinned i = t.isPinned i :=
  h.invariant (P := fun _ t' => t'.isPinned i = t.isPinned i)
    (fun _ _ _ _ _ hv hs => (hv.isPinned i).trans hs) rfl

/-- A table that has its bindings where they were declared, and whose fixed entries are those of
writes. -/
structure Anchored (c : Classifier) (roots : GlobalId → Option Scope) (W : InstId → Scope → Prop)
    (t : Classification) : Prop where
  fits : t.Fits c.program c.func
  roots : ∀ g, (t.global g).scope = roots g
  pinned : ∀ i, t.isPinned i = true → ∃ x, (t.inst i).scope = some x ∧ W i x

theorem Anchored.advances (h : c.Anchored roots W t) (ha : c.Advances (stack, t) (rest, t')) :
    c.Anchored roots W t' := by
  have hs := ha.samePlaces
  refine ⟨ha.fits h.fits, fun g => (hs (.global g)).trans (h.roots g), fun i hi => ?_⟩
  rw [ha.isPinned] at hi
  rw [show (t'.inst i).scope = _ from hs (.inst i)]
  exact h.pinned i hi

theorem Anchored.resolve (h : c.Anchored roots W t) : c.Anchored roots W (c.resolve t).2 := by
  have hr := raises_settle c (c.raises + 1) (c.absorb t)
  refine ⟨fits_resolve h.fits, fun g => (congrArg _ (hr.global g)).trans (h.roots g),
    fun i hi => ?_⟩
  rw [(sameUses_resolve c t).isPinned] at hi
  rw [show (c.resolve t).2.inst i = (c.absorb t).inst i from hr.fixed i hi,
    show ((c.absorb t).inst i).scope = _ from samePlaces_absorb c t (.inst i)]
  exact h.pinned i hi

theorem Anchored.pin (h : c.Anchored roots W t) (hW : W i x) (flags : UsageFlags) :
    c.Anchored roots W (t.pin i ⟨some x, flags⟩) := by
  refine ⟨h.fits.pin i _, h.roots, fun j hj => ?_⟩
  rw [Classification.isPinned_pin, h.fits.pinned, ← h.fits.insts] at hj
  have hin := Classification.info_pin t i ⟨some x, flags⟩ (.inst j)
  simp only [Classification.info, Node.inst.injEq] at hin
  rw [hin]
  split at hj
  · next hji =>
    rw [if_pos hji]
    exact ⟨x, rfl, hji.1 ▸ hW⟩
  · next ho =>
    rw [if_neg ho]
    exact h.pinned j hj

/-- A table that is right up to what some work still does: uses flow, and placements come from what
nodes bring and from the scopes of writes. -/
structure Charts (c : Classifier) (B : Node → Scope → Prop) (roots : GlobalId → Option Scope)
    (W : InstId → Scope → Prop) (t : Classification) (stack : List Work) : Prop
    extends c.Anchored roots W t where
  founded : c.Founded (fun n x => B n x ∨ ∃ i, n = .inst i ∧ W i x) t
  flowing : c.Flowing t stack

theorem Charts.push (h : c.Charts B roots W t []) (hw : ∀ w ∈ work, w.flags.isEmpty = false) :
    c.Charts B roots W t work.reverse :=
  ⟨h.toAnchored, h.founded, h.flowing.push hw⟩

abbrev PlacesBy (c : Classifier) (B : Node → Scope → Prop) (W : InstId → Scope → Prop) : Prop :=
  c.Respects fun n x => B n x ∨ ∃ i, n = .inst i ∧ W i x

theorem placesBy_plain (hp : c.strategy = .plain) : c.PlacesBy (c.Brings roots) W := by
  refine ⟨.of_plain hp, .of_plain hp, fun info computed x hx => ?_,
    fun i inst callee args flags rule x hi hop hr hf => ?_⟩
  · rw [hp] at hx
    exact ⟨x, hx, fun _ => id⟩
  · rw [callRule?_plain hp hr] at hf
    obtain rfl := Option.some.inj hf
    exact .inl (.call hi hop)

theorem Charts.propagate {s s1 : State} (hc : c.PlacesBy B W)
    (h : c.Charts B roots W s.table work.reverse) (hp : c.propagate work s = .ok s1) :
    c.Charts B roots W s1.table [] := by
  have ha := advances_of_propagate h.fits hp
  exact ⟨h.toAnchored.advances ha, h.founded.of_samePlaces ha.samePlaces,
    ha.flowing hc.lively h.flowing⟩

theorem Charts.resolve (hc : c.PlacesBy B W) (h : c.Charts B roots W t []) :
    c.Charts B roots W (c.resolve t).2 [] :=
  ⟨h.toAnchored.resolve, founded_resolve hc h.founded, (sameUses_resolve c t).flowing h.flowing⟩

structure Charted (c : Classifier) (B : Node → Scope → Prop) (roots : GlobalId → Option Scope)
    (W : InstId → Scope → Prop) (t : Classification) : Prop extends c.Charts B roots W t [] where
  settled : c.Settled t

theorem Charts.classify {s s1 : State} (hc : c.PlacesBy B W)
    (h : c.Charts B roots W s.table []) (hw : ∀ w ∈ work, w.flags.isEmpty = false)
    (hp : c.propagate work s = .ok s1) :
    c.Charted B roots W (c.settled s1).table ∧
      ∀ n, Reached s.table work n → ((c.settled s1).table.info n).isUsed = true := by
  have hpu := h.push hw
  have hd := hpu.propagate hc hp
  refine ⟨⟨hd.resolve hc, settled_resolve hd.fits (resolve_ok hc.ascends _)⟩, fun n hn => ?_⟩
  have hr := (advances_of_propagate h.fits hp).reached hc.lively hpu.flowing
    (show Reached s.table work.reverse n by simpa [Reached] using hn)
  exact ((sameUses_resolve c s1.table).isUsed n).trans hr.isUsed

theorem isUsed_pin {info : ValueInfo} (hi : info.isUsed = true) (hn : (t.info n).isUsed = true) :
    ((t.pin i info).info n).isUsed = true := by
  rw [Classification.info_pin]
  split
  · exact hi
  · exact hn

variable {flags : UsageFlags} {name : String} {s' s : Session} {r : Request}
  {requests : List Request} {site : SinkSite}

/-- A fixed instruction passes no uses on, so fixing one keeps their flow. -/
theorem Flowing.pin (h : c.Flowing t []) (hfit : t.Fits c.program c.func)
    (hfl : flags.isEmpty = false) (hi : i < c.func.numInsts) :
    c.Flowing (t.pin i ⟨some x, flags⟩) [] := by
  have hlt : i < t.insts.size := hfit.insts ▸ hi
  have hl : i < t.pinned.size := hfit.pinned ▸ hi
  have hin : (⟨some x, flags⟩ : ValueInfo).isUsed = true := by simp [ValueInfo.isUsed, hfl]
  have hp : ∀ j, (t.pin i ⟨some x, flags⟩).isPinned j = true ↔ j = i ∨ t.isPinned j = true := by
    intro j
    rw [Classification.isPinned_pin]
    by_cases hj : j = i <;> simp [hj, hl]
  have hfi : ∀ n, (t.pin i ⟨some x, flags⟩).fixes n = false →
      n ≠ .inst i ∧ t.fixes n = false := by
    intro n hf
    cases n with
    | inst j =>
      have hno : ¬(j = i ∨ t.isPinned j = true) := fun hj => by
        rw [show (t.pin i ⟨some x, flags⟩).fixes (.inst j) = true from (hp j).mpr hj] at hf
        cases hf
      exact ⟨fun heq => hno (.inl (Node.inst.inj heq)), by
        simpa [Classification.fixes] using fun hj => hno (.inr hj)⟩
    | global _ | block _ | terminator _ => exact ⟨by simp, rfl⟩
  have ho : ∀ n, n ≠ .inst i → (t.pin i ⟨some x, flags⟩).info n = t.info n := by
    intro n hn
    rw [Classification.info_pin, if_neg fun h => hn h.1]
  refine ⟨by simp, fun j hj => ?_, fun j inst hins hu hpi => ?_, fun n hu hf m hm => ?_⟩
  · rcases (hp j).mp hj with rfl | hj
    · have hs := Classification.info_pin t j ⟨some x, flags⟩ (.inst j)
      rw [if_pos ⟨rfl, hlt⟩] at hs
      exact (congrArg ValueInfo.isUsed hs).trans hin
    · exact isUsed_pin (n := .inst j) hin (h.pinned j hj)
  · obtain ⟨hne, hf⟩ := hfi (.inst j) hpi
    exact h.looked j inst hins ((congrArg ValueInfo.isUsed (ho _ hne)).symm.trans hu) hf
  · obtain ⟨hne, hf⟩ := hfi n hf
    rw [ho n hne] at hu
    exact .inl (isUsed_pin hin (h.leads n hu hf m hm).isUsed)

theorem Charts.pin (h : c.Charts B roots W t []) (hf : flags.isEmpty = false)
    (hi : i < c.func.numInsts) (hW : W i x) : c.Charts B roots W (t.pin i ⟨some x, flags⟩) [] := by
  refine ⟨h.toAnchored.pin hW flags, h.founded.update fun n y hy => ?_, h.flowing.pin h.fits hf hi⟩
  rw [Classification.info_pin] at hy
  split at hy
  · next hn =>
    obtain rfl := Option.some.inj hy
    exact .inr (.inl (.inr ⟨i, hn.1, hW⟩))
  · exact .inl hy

theorem isUsed_pinSites (hf : t.Fits c.program c.func)
    (hfl : flags.isEmpty = false)
    (hn : (t.info n).isUsed = true ∨ ∃ site ∈ c.sinkSites name, n = .inst site.inst) :
    ((c.pinSites name x flags t).info n).isUsed = true := by
  have hi : (⟨some x, flags⟩ : ValueInfo).isUsed = true := by simp [ValueInfo.isUsed, hfl]
  rcases hn with hn | ⟨site, hs, rfl⟩
  · exact pinSites_invariant (P := fun u => (u.info n).isUsed = true)
      (fun _ _ _ => isUsed_pin hi) hn
  · obtain ⟨inst, hin, -⟩ := mem_sinkSites hs
    refine pinSites_of_mem (P := fun u => (u.info (.inst site.inst)).isUsed = true) hs
      (fun _ _ => isUsed_pin hi) (fun u hu => ?_) hf
    rw [Classification.info_pin, if_pos ⟨rfl, hu.insts ▸ (Array.getElem?_eq_some_iff.mp hin).1⟩]
    exact hi

theorem Charts.pinSites (h : c.Charts B roots W t [])
    (hf : flags.isEmpty = false) (hW : ∀ site ∈ c.sinkSites name, W site.inst x) :
    c.Charts B roots W (c.pinSites name x flags t) [] ∧
      ∀ n, (t.info n).isUsed = true ∨ (∃ site ∈ c.sinkSites name, n = .inst site.inst) →
        ((c.pinSites name x flags t).info n).isUsed = true := by
  refine ⟨pinSites_invariant (P := fun t => c.Charts B roots W t []) (fun site hs t ht => ?_) h,
    fun n hn => isUsed_pinSites h.fits hf hn⟩
  obtain ⟨inst, hi, -⟩ := mem_sinkSites hs
  exact ht.pin hf (Array.getElem?_eq_some_iff.mp hi).1 (hW site hs)

theorem flags_sinkWork {required : Scope} {w : Work} (h : w ∈ sinkWork required flags site) :
    w.flags = flags := by
  unfold sinkWork at h
  rcases List.mem_append.mp h with h | h
  · obtain ⟨_, -, rfl⟩ := Work.mem_ofValues.mp h
    rfl
  · split at h
    · rw [List.mem_singleton.mp h]
    · cases h

/-- The nodes that a request asks for: a sink for its writes and for all that they read and keep. -/
def Asks (c : Classifier) : Request → Node → Prop
  | .sink name scope flags, n => ∃ site ∈ c.sinkSites name,
      n = .inst site.inst ∨ ∃ w ∈ sinkWork scope flags site, w.node = n
  | .value v _, n => v.node? = some n
  | .block b _ _, n => n = .block b
  | _, _ => False

theorem asks_of_mem_reads {v : Value} (hs : site ∈ c.sinkSites name) (hv : v ∈ site.reads)
    (hn : v.node? = some n) : c.Asks (.sink name x flags) n := by
  have hw := (@Work.mem_ofValues flags site.reads (.reach n flags)).mpr
    ⟨n, List.mem_filterMap.mpr ⟨v, hv, hn⟩, rfl⟩
  exact ⟨site, hs, .inr ⟨_, List.mem_append_left _ hw, rfl⟩⟩

/-- A request for a sink, a value or a block keeps the chart, and what it asks for becomes used. -/
theorem Responds.charted (hc : c.PlacesBy B W)
    (h : c.Responds r s s') (hr : r.isSeed = true) (hW : ∀ i x, c.Writes [r] i x → W i x)
    (hs : c.Charted B roots W s.state.table) :
    c.Charted B roots W s'.state.table ∧
      ∀ n, (s.state.table.info n).isUsed = true ∨ c.Asks r n →
        (s'.state.table.info n).isUsed = true := by
  cases h with
  | @sink name scope flags s s1 snaps hp =>
    have hf : flags.isEmpty = false := by simpa [Request.isSeed] using hr
    have hwr : ∀ site ∈ c.sinkSites name, W site.inst scope := fun site hsi =>
      hW _ _ ⟨name, flags, List.mem_singleton.mpr rfl, site, hsi, rfl⟩
    have hwo : ∀ w ∈ (c.sinkSites name).flatMap (sinkWork scope flags), w.flags.isEmpty = false := by
      intro w hw
      obtain ⟨site, -, hw⟩ := List.mem_flatMap.mp hw
      rw [flags_sinkWork hw, hf]
    obtain ⟨hcha, hu⟩ := hs.toCharts.pinSites hf hwr
    obtain ⟨hch, hre⟩ := hcha.classify hc hwo hp
    refine ⟨hch, fun n hn => hre n ?_⟩
    rcases hn with hn | ⟨site, hsi, rfl | ⟨w, hw, rfl⟩⟩
    · exact .inl (hu n (.inl hn))
    · exact .inl (hu _ (.inr ⟨site, hsi, rfl⟩))
    · exact .inr ⟨w, List.mem_flatMap.mpr ⟨site, hsi, hw⟩, rfl⟩
  | @sinkUnknown name scope flags s snaps hni =>
    refine ⟨hs, fun n hn => ?_⟩
    rcases hn with hn | ⟨site, hsi, -⟩
    · exact hn
    · simp [hni] at hsi
  | @value v flags s s1 snaps hp =>
    have hf : flags.isEmpty = false := by simpa [Request.isSeed] using hr
    obtain ⟨hch, hre⟩ := hs.toCharts.classify hc
      (fun w hw => by obtain ⟨_, -, rfl⟩ := Work.mem_ofValue.mp hw; exact hf) hp
    refine ⟨hch, fun n hn => hre n ?_⟩
    rcases hn with hn | hn
    · exact .inl hn
    · exact .inr ⟨_, Work.mem_ofValue.mpr ⟨n, hn, rfl⟩, rfl⟩
  | @block b flags force s s1 snaps hp =>
    have hf : flags.isEmpty = false := by simpa [Request.isSeed] using hr
    obtain ⟨hch, hre⟩ := hs.toCharts.classify hc
      (fun w hw => by rw [List.mem_singleton.mp hw]; exact hf) hp
    refine ⟨hch, fun n hn => hre n ?_⟩
    rcases hn with hn | hn
    · exact .inl hn
    · exact .inr ⟨_, List.mem_singleton.mpr rfl, hn.symm⟩
  | root _ | rootNamed _ _ | rootUnknown _ | snapshot | restore _ | scopeOf => cases hr

theorem Responses.asked {I : Session → Prop} (h : c.Responses requests s s')
    (step : ∀ r ∈ requests, ∀ s s', c.Responds r s s' → I s → I s' ∧
      ∀ n, (s.state.table.info n).isUsed = true ∨ c.Asks r n →
        (s'.state.table.info n).isUsed = true) (hs : I s) :
    I s' ∧ ∀ n, (s.state.table.info n).isUsed = true ∨ (∃ r ∈ requests, c.Asks r n) →
      (s'.state.table.info n).isUsed = true := by
  induction h with
  | nil => exact ⟨hs, fun n hn => by simpa using hn⟩
  | cons hr _ ih =>
    obtain ⟨hm, hu⟩ := step _ List.mem_cons_self _ _ hr hs
    obtain ⟨he, hu'⟩ := ih (fun r hr => step r (List.mem_cons_of_mem _ hr)) hm
    refine ⟨he, fun n hn => hu' n ?_⟩
    rcases hn with hn | ⟨r, hr, hn⟩
    · exact .inl (hu n (.inl hn))
    · rcases List.mem_cons.mp hr with rfl | hr
      · exact .inl (hu n (.inr hn))
      · exact .inr ⟨r, hr, hn⟩

theorem Responses.charted (hc : c.PlacesBy B W)
    (h : c.Responses requests s s') (hse : ∀ r ∈ requests, r.isSeed = true)
    (hW : ∀ i x, c.Writes requests i x → W i x) (hs : c.Charted B roots W s.state.table) :
    c.Charted B roots W s'.state.table ∧
      ∀ n, (s.state.table.info n).isUsed = true ∨ (∃ r ∈ requests, c.Asks r n) →
        (s'.state.table.info n).isUsed = true :=
  h.asked (I := fun s => c.Charted B roots W s.state.table) (fun r hr _ _ hre => hre.charted hc
    (hse r hr) fun i x ⟨name, flags, hm, hsi⟩ =>
      hW i x ⟨name, flags, List.mem_singleton.mp hm ▸ hr, hsi⟩) hs

theorem isPinned_pinSites (hf : t.Fits c.program c.func)
    (hi : t.isPinned i = true ∨ ∃ site ∈ c.sinkSites name, site.inst = i) :
    (c.pinSites name x flags t).isPinned i = true := by
  have hk : ∀ (w : SinkSite) (u : Classification), u.isPinned i = true →
      (u.pin w.inst ⟨some x, flags⟩).isPinned i = true := by
    intro w u hu
    rw [Classification.isPinned_pin]
    split <;> [rfl; exact hu]
  rcases hi with hi | ⟨site, hs, rfl⟩
  · exact pinSites_invariant (P := fun u => u.isPinned i = true) (fun w _ => hk w) hi
  · obtain ⟨inst, hin, -⟩ := mem_sinkSites hs
    refine pinSites_of_mem (P := fun u => u.isPinned site.inst = true) hs hk (fun u hu => ?_) hf
    rw [Classification.isPinned_pin]
    exact if_pos ⟨rfl, hu.pinned ▸ (Array.getElem?_eq_some_iff.mp hin).1⟩

/-- A write of a sink is fixed once the sink is asked for, and stays so. -/
theorem Responds.isPinned (h : c.Responds r s s')
    (hr : r.isSeed = true) (hf : s.state.table.Fits c.program c.func)
    (hi : s.state.table.isPinned i = true ∨ c.Writes [r] i x) :
    s'.state.table.isPinned i = true := by
  have hc : ∀ {s s1 : State} {work : List Work}, s.table.Fits c.program c.func →
      c.propagate work s = .ok s1 → s.table.isPinned i = true →
      (c.settled s1).table.isPinned i = true := by
    intro s s1 work hf hp hi
    have ha := advances_of_propagate hf hp
    exact ((sameUses_resolve c s1.table).isPinned i).trans ((ha.isPinned i).trans hi)
  have hn : ∀ {r : Request}, (∀ name scope flags, r ≠ .sink name scope flags) →
      ¬c.Writes [r] i x := by
    rintro r hr ⟨name, flags, hm, -⟩
    exact hr name x flags (List.mem_singleton.mp hm).symm
  cases h with
  | @sink name scope flags s s1 snaps hp =>
    have hpi : (c.pinSites name scope flags s.table).isPinned i = true := by
      refine isPinned_pinSites hf (hi.imp_right ?_)
      rintro ⟨name', flags', hm, site, hs, rfl⟩
      obtain ⟨rfl, rfl, rfl⟩ := Request.sink.inj (List.mem_singleton.mp hm)
      exact ⟨site, hs, rfl⟩
    exact hc (s := { s with table := c.pinSites name scope flags s.table })
      (fits_pinSites hf) hp hpi
  | @sinkUnknown name scope flags s snaps hni =>
    rcases hi with hi | ⟨name', flags', hm, site, hs, -⟩
    · exact hi
    · obtain ⟨rfl, rfl, rfl⟩ := Request.sink.inj (List.mem_singleton.mp hm)
      simp [hni] at hs
  | value hp | block hp => exact hc hf hp (hi.resolve_right (hn (by simp)))
  | root _ | rootNamed _ _ | rootUnknown _ | snapshot | restore _ | scopeOf => cases hr

theorem Responses.split {before after : List Request}
    (h : c.Responses (before ++ after) s s') :
    ∃ s1, c.Responses before s s1 ∧ c.Responses after s1 s' := by
  induction before generalizing s with
  | nil => exact ⟨s, .nil, h⟩
  | cons r before ih =>
    cases h with
    | cons hr hre =>
      obtain ⟨s1, hb, ha⟩ := ih hre
      exact ⟨s1, .cons hr hb, ha⟩

theorem Responds.declares (h : c.Responds r s s') (hr : r.isRoot = true)
    (hf : s.state.table.Fits c.program c.func) :
    ∃ globals, s'.state.table = { s.state.table with globals := globals } ∧
      s'.state.table.Fits c.program c.func ∧
      ∀ g, (s'.state.table.global g).scope
        = ((r.root? c.program).toList.lookup g).or (s.state.table.global g).scope := by
  have hs : ∀ {g scope flags} {t : Classification} (g' : GlobalId), g < t.globals.size →
      ((t.setGlobal g ⟨some scope, flags⟩).global g').scope
        = (List.lookup g' [(g, scope)]).or (t.global g').scope := by
    intro g scope flags t g' hlt
    rw [Classification.global_setGlobal]
    by_cases hg : g' = g
    · simp [hg, hlt]
    · simp [hg, List.lookup_cons, beq_false_of_ne hg]
  cases h with
  | @root g scope flags s snaps hlt => exact ⟨_, rfl, hf.setGlobal _ _, fun g' => hs g' hlt⟩
  | @rootNamed name g scope flags s snaps hg hlt =>
    refine ⟨_, rfl, hf.setGlobal _ _, fun g' => ?_⟩
    rw [show Request.root? c.program (.rootNamed name scope flags) = some (g, scope) by
      simp [Request.root?, hg]]
    exact hs g' hlt
  | @rootUnknown name scope flags s snaps hg =>
    refine ⟨_, rfl, hf, fun g' => ?_⟩
    rw [show Request.root? c.program (.rootNamed name scope flags) = none by
      simp [Request.root?, hg]]
    rfl
  | sink _ | sinkUnknown _ | value _ | block _ | snapshot | restore _ | scopeOf => cases hr

theorem Responses.declares
    (h : c.Responses requests s s') (hro : ∀ r ∈ requests, r.isRoot = true)
    (hf : s.state.table.Fits c.program c.func) :
    ∃ globals, s'.state.table = { s.state.table with globals := globals } ∧
      s'.state.table.Fits c.program c.func ∧
      ∀ g, (s'.state.table.global g).scope
        = (Request.rootScope c.program requests g).or (s.state.table.global g).scope := by
  induction h with
  | nil => exact ⟨_, rfl, hf, fun _ => rfl⟩
  | @cons r rest a b d hr _ ih =>
    obtain ⟨globals, ht, hf', hs⟩ := hr.declares (hro _ (by simp)) hf
    obtain ⟨globals', ht', hf'', hs'⟩ := ih (fun r hr => hro r (by simp [hr])) hf'
    refine ⟨globals', by rw [ht', ht], hf'', fun g => ?_⟩
    rw [hs', hs, ← Option.or_assoc]
    congr 1
    unfold Request.rootScope
    cases hroo : r.root? c.program with
    | none => simp [hroo]
    | some e => simp [hroo, List.lookup_append]

theorem isPinned_initial (c : Classifier) (i : InstId) : c.initial.table.isPinned i = false := by
  simp only [initial, Classification.unknown, Classification.isPinned, Array.getElem?_replicate]
  split <;> rfl

theorem info_of_declares
    (h : c.Responses requests c.openSession s) (hr : ∀ r ∈ requests, r.isRoot = true)
    (hn : ∀ g, n ≠ .global g) : s.state.table.info n = .unknown := by
  obtain ⟨globals, ht, -, -⟩ := h.declares hr (initial_sound (n := 0)).fits
  rw [← info_initial c n, ht]
  cases n with
  | global g => exact absurd rfl (hn g)
  | inst _ | block _ | terminator _ => rfl

/-- After declarations of roots alone, nothing but bindings is used or placed. -/
theorem charted_of_declares
    (h : c.Responses requests c.openSession s) (hr : ∀ r ∈ requests, r.isRoot = true)
    (hB : ∀ g x, Request.rootScope c.program requests g = some x → B (.global g) x) :
    c.Charted B (Request.rootScope c.program requests) W s.state.table := by
  obtain ⟨globals, ht, hf, hs⟩ := h.declares hr (initial_sound (n := 0)).fits
  have hgl : ∀ g, (s.state.table.global g).scope = Request.rootScope c.program requests g := by
    intro g
    have hno : (c.openSession.state.table.global g).scope = none :=
      congrArg ValueInfo.scope (info_initial c (.global g))
    rw [hs g, hno, Option.or_none]
  have hp : ∀ i, s.state.table.isPinned i = false := by
    intro i
    rw [ht]
    exact isPinned_initial c i
  have hun : ∀ {n}, (s.state.table.info n).isUsed = true → ∃ g, n = .global g := by
    intro n hn
    by_contra hc
    rw [info_of_declares h hr fun g hg => hc ⟨g, hg⟩] at hn
    cases hn
  refine ⟨⟨⟨hf, hgl, fun i hi => ?_⟩, fun n x hx => ?_, ⟨by simp, fun i hi => ?_,
    fun i _ _ hu => ?_, fun n hu _ m hm => ?_⟩⟩, fun b hu => ?_, fun b hu => ?_,
    fun b hu => ?_, fun i _ _ hu => ?_, fun i _ _ hu => ?_⟩
  · rw [hp] at hi
    cases hi
  · by_cases hn : ∃ g, n = .global g
    · obtain ⟨g, rfl⟩ := hn
      exact ⟨.global g, .refl, .inl (hB g x ((hgl g).symm.trans hx))⟩
    · rw [info_of_declares h hr fun g hg => hn ⟨g, hg⟩] at hx
      cases hx
  · rw [hp] at hi
    cases hi
  · obtain ⟨g, hg⟩ := hun (n := .inst i) hu
    cases hg
  · obtain ⟨g, rfl⟩ := hun hu
    cases hm
  · obtain ⟨g, hg⟩ := hun (n := .block b) hu
    cases hg
  · obtain ⟨g, hg⟩ := hun (n := .block b) hu
    cases hg
  · obtain ⟨g, hg⟩ := hun (n := .terminator b) hu
    cases hg
  · obtain ⟨g, hg⟩ := hun (n := .inst i) hu
    cases hg
  · obtain ⟨g, hg⟩ := hun (n := .inst i) hu
    cases hg

end Classifier

end Stagewise
