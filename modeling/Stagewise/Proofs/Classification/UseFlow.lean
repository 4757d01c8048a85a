import Stagewise.Proofs.Classification.Charting
import Stagewise.Proofs.Classification.Monotone

namespace Stagewise

namespace UsageFlags

theorem contains_union_right (x y : UsageFlags) : (x.union y).contains y = true := by
  rw [contains_iff]
  show (x.bits ||| y.bits) ||| y.bits = x.bits ||| y.bits
  rw [BitVec.or_assoc, BitVec.or_self]

theorem contains_union {x y z : UsageFlags} (hy : x.contains y = true) (hz : x.contains z = true) :
    x.contains (y.union z) = true := by
  rw [contains_iff]
  show x.bits ||| (y.bits ||| z.bits) = x.bits
  rw [← BitVec.or_assoc, contains_iff.mp hy, contains_iff.mp hz]

end UsageFlags

theorem Operation.inst_mem_dependencies {op : Operation} {j : InstId}
    (hc : ∀ target args, op ≠ .call (.indirect target) args) (hj : .inst j ∈ op.operands) :
    .inst j ∈ op.dependencies := by
  have hn : ∀ {vs : List Value}, .inst j ∈ vs → Node.inst j ∈ vs.filterMap Value.node? :=
    fun h => List.mem_filterMap.mpr ⟨_, h, rfl⟩
  unfold dependencies
  split
  · next addr =>
    cases addr with
    | pending | member g path => cases hj
    | element g path => exact List.mem_cons_of_mem _ (hn hj)
  · obtain ⟨e, he, heq⟩ := List.mem_map.mp hj
    exact List.mem_flatMap.mpr ⟨e, he, List.mem_append_left _ (by simp [heq, Value.node?])⟩
  · exact absurd rfl (hc _ _)
  · exact hn hj

theorem Operation.global_mem_dependencies {op : Operation} {g : GlobalId}
    (h : op.loadedGlobal? = some g) : .global g ∈ op.dependencies := by
  cases op with
  | load addr =>
    have ha : addr.global? = some g := h
    rw [dependencies, ha]
    exact List.mem_cons_self
  | _ => cases h

namespace Classifier

variable {c : Classifier} {r : Request} {requests : List Request} {t t' : Classification} {w : Work}
  {work stack : List Work} {n m : Node} {i j : InstId} {g : GlobalId} {inst : Inst} {v : Value}
  {flags : UsageFlags}

variable {s' s : Session} {P : Classification → Prop}

theorem Responds.table (h : c.Responds r s s')
    (hb : ∀ k, r ≠ .restore k)
    (root : ∀ g scope x t, r.root? c.program = some (g, scope) → P t → P (t.setGlobal g x))
    (pin : ∀ name scope flags site t, r = .sink name scope flags → site ∈ c.sinkSites name → P t →
      P (t.pin site.inst ⟨some scope, flags⟩))
    (classify : ∀ work s0 s1, P s0.table → c.propagate work s0 = .ok s1 → P (c.settled s1).table)
    (hs : P s.state.table) : P s'.state.table := by
  cases h with
  | root _ => exact root _ _ _ _ rfl hs
  | @rootNamed name g scope _ _ _ hg _ => exact root g scope _ _ (by simp [Request.root?, hg]) hs
  | sink hp =>
    exact classify _ _ _ (pinSites_invariant (fun site hsi t => pin _ _ _ site t rfl hsi) hs) hp
  | value hp | block hp => exact classify _ _ _ hs hp
  | rootUnknown _ | sinkUnknown _ | snapshot | scopeOf => exact hs
  | restore _ => exact absurd rfl (hb _)

theorem Responses.table (h : c.Responses requests s s')
    (hb : ∀ k, .restore k ∉ requests)
    (root : ∀ r ∈ requests, ∀ g scope x t, r.root? c.program = some (g, scope) → P t →
      P (t.setGlobal g x))
    (pin : ∀ name scope flags site t, .sink name scope flags ∈ requests →
      site ∈ c.sinkSites name → P t → P (t.pin site.inst ⟨some scope, flags⟩))
    (classify : ∀ work s0 s1, P s0.table → c.propagate work s0 = .ok s1 → P (c.settled s1).table)
    (hs : P s.state.table) : P s'.state.table := by
  induction h with
  | nil => exact hs
  | @cons r rest a b d hr _ ih =>
    refine ih (fun k hk => hb k (List.mem_cons_of_mem _ hk))
      (fun r hr => root r (List.mem_cons_of_mem _ hr))
      (fun name scope flags site t hm => pin name scope flags site t (List.mem_cons_of_mem _ hm)) ?_
    exact hr.table (fun k hk => hb k (hk ▸ List.mem_cons_self)) (root r List.mem_cons_self)
      (fun name scope flags site t he => pin name scope flags site t (he ▸ List.mem_cons_self))
      classify hs

theorem Responses.unpinned (h : c.Responses requests s s')
    (hb : ∀ k, .restore k ∉ requests) (hf : ∀ x, ¬c.Writes requests i x)
    (hs : s.state.table.isPinned i = false) : s'.state.table.isPinned i = false := by
  refine h.table (P := fun t => t.isPinned i = false) hb (fun _ _ _ _ _ _ _ ht => ht)
    (fun name x flags site t hm hsi ht => ?_) (fun work s0 s1 hs0 hp => ?_) hs
  · rw [Classification.isPinned_pin, if_neg fun h => hf x ⟨name, flags, hm, site, hsi, h.1.symm⟩]
    exact ht
  · rw [show (c.settled s1).table = (c.resolve s1.table).2 from rfl,
      (sameUses_resolve c s1.table).isPinned]
    exact propagate_keeps (P := fun u => u.table.isPinned i = false)
      (fun _ _ _ _ hu hv => ((visits_of_visit hv).isPinned i).trans hu) hs0 hp

section Granting

def Granted (t : Classification) (stack : List Work) (n : Node) (flags : UsageFlags) : Prop :=
  (t.info n).flags.contains flags = true ∨
    ∃ w ∈ stack, w.node = n ∧ w.flags.contains flags = true

theorem granted_nil : Granted t [] n flags ↔ (t.info n).flags.contains flags = true := by
  simp [Granted]

theorem Visits.granted (h : c.Visits t w work t') (hfr : t.fixes n = false)
    (hn : Granted t (w :: stack) n flags) : Granted t' (work.reverse ++ stack) n flags := by
  have hk : Classification.Keeps (fun _ => False) t t' := h.keeps
  have he := (hk.entry n fun _ _ => id).1
  rcases hn with hn | ⟨w', hw', rfl, hf⟩
  · exact .inl (UsageFlags.contains_trans he hn)
  · rcases List.mem_cons.mp hw' with rfl | hw'
    · refine .inl (UsageFlags.contains_trans ?_ hf)
      cases h with
      | known _ hkn => exact (hkn.resolve_left (by simp [hfr])).1
      | learn _ hl =>
        rw [hl.info, if_pos rfl]
        exact UsageFlags.contains_union_right ..
    · exact .inr ⟨w', List.mem_append_right _ hw', rfl, hf⟩

theorem Learns.exists_work_flags (hpl : c.strategy = .plain) (h : c.Learns t w work t')
    (hm : m ∈ c.leads w.node) : ∃ w' ∈ work, w'.node = m ∧ w'.flags = (t'.info w.node).flags := by
  obtain ⟨w', hw', hn⟩ := h.exists_work hm
  refine ⟨w', hw', hn, ?_⟩
  rw [h.info, if_pos rfl]
  rcases h.flags w' hw' with hp | ⟨_, _, _, _, site, -, -, -, hp⟩
  · exact hp
  · rw [hp, hpl]
    rfl

def Supplies (t : Classification) (stack : List Work) (i : InstId) (m : Node) (flags : UsageFlags) :
    Prop :=
  (t.inst i).flags.contains flags = true → Granted t stack m flags

theorem Visits.supplies (hp : c.strategy = .plain) (h : c.Visits t w work t')
    (hin : c.func.insts[i]? = some inst) (hm : m ∈ inst.op.dependencies) (hfr : t.fixes m = false)
    (hs : Supplies t (w :: stack) i m flags) : Supplies t' (work.reverse ++ stack) i m flags := by
  intro hi
  by_cases hsa : t'.inst i = t.inst i
  · exact h.granted hfr (hs (hsa ▸ hi))
  cases h with
  | known _ _ => exact absurd rfl hsa
  | learn _ hl =>
    -- an entry changes only if its node is looked at, and then all dependencies are asked for
    have hn : w.node = .inst i := by
      by_contra hne
      exact hsa ((hl.info (.inst i)).trans (if_neg fun h => hne h.symm))
    have hle : m ∈ c.leads w.node := by
      rw [hn, leads, hin]
      exact List.mem_append_left _ hm
    obtain ⟨w', hw', rfl, hf⟩ := hl.exists_work_flags hp hle
    refine .inr ⟨w', List.mem_append_left _ (List.mem_reverse.mpr hw'), rfl, ?_⟩
    rw [hf, hn]
    exact hi

theorem granted_propagate {s s1 : State} (hf : s.table.Fits c.program c.func)
    (hp : c.propagate work s = .ok s1) (hfr : s.table.fixes n = false)
    (hn : Granted s.table work.reverse n flags) : (s1.table.info n).flags.contains flags = true := by
  have hr : s1.table.fixes n = false ∧ Granted s1.table [] n flags :=
    (advances_of_propagate hf hp).invariant
      (P := fun stack t => t.fixes n = false ∧ Granted t stack n flags)
      (fun _ _ _ _ _ hv ht => ⟨(hv.fixes n).trans ht.1, hv.granted ht.1 ht.2⟩) ⟨hfr, hn⟩
  exact granted_nil.mp hr.2

theorem supplies_propagate {s s1 : State} (hp : c.strategy = .plain)
    (hf : s.table.Fits c.program c.func) (hpr : c.propagate work s = .ok s1)
    (hin : c.func.insts[i]? = some inst) (hm : m ∈ inst.op.dependencies)
    (hfr : s.table.fixes m = false) (hs : (s.table.inst i).flags.contains flags = true →
      (s.table.info m).flags.contains flags = true)
    (hi : (s1.table.inst i).flags.contains flags = true) :
    (s1.table.info m).flags.contains flags = true := by
  have hr : s1.table.fixes m = false ∧ Supplies s1.table [] i m flags :=
    (advances_of_propagate hf hpr).invariant
      (P := fun stack t => t.fixes m = false ∧ Supplies t stack i m flags)
      (fun _ _ _ _ _ hv ht => ⟨(hv.fixes m).trans ht.1, hv.supplies hp hin hm ht.1 ht.2⟩)
      ⟨hfr, fun h => .inl (hs h)⟩
  exact granted_nil.mp (hr.2 hi)

end Granting

/-- A dependency of an instruction has all uses that the instruction has, unless the entry of one of
them is fixed. -/
def Feeds (t : Classification) (i : InstId) (m : Node) : Prop :=
  t.isPinned i = false → t.fixes m = false → (t.info m).flags.contains (t.inst i).flags = true

theorem fixes_propagate {s s1 : State} (h : c.propagate work s = .ok s1) (n : Node) :
    s1.table.fixes n = s.table.fixes n :=
  propagate_keeps (P := fun u => u.table.fixes n = s.table.fixes n)
    (fun _ _ _ _ hu hv => ((visits_of_visit hv).fixes n).trans hu) rfl h

theorem feeds_propagate {s s1 : State} (hpl : c.strategy = .plain)
    (hfi : s.table.Fits c.program c.func) (hp : c.propagate work s = .ok s1)
    (hin : c.func.insts[i]? = some inst) (hm : m ∈ inst.op.dependencies)
    (hf : Feeds s.table i m) : Feeds s1.table i m := by
  intro hi hfr
  have hi : s.table.fixes (.inst i) = false := (fixes_propagate hp (.inst i)).symm.trans hi
  rw [fixes_propagate hp] at hfr
  exact supplies_propagate hpl hfi hp hin hm hfr
    (fun h => UsageFlags.contains_trans (hf hi hfr) h) (UsageFlags.contains_refl _)

theorem flags_resolve (c : Classifier) (t : Classification) (i : InstId) :
    ((c.resolve t).2.inst i).flags = (c.absorbInst t i (t.inst i)).flags := by
  have hr := (raises_settle c (c.raises + 1) (c.absorb t)).higher (.inst i)
  exact hr.1.trans (congrArg ValueInfo.flags (inst_absorb c t i))

theorem feeds_resolve (hin : c.func.insts[i]? = some inst)
    (hm : ∀ g, inst.op.loadedGlobal? = some g → m = .global g) (hf : Feeds t i m) :
    Feeds (c.resolve t).2 i m := by
  intro hi hfr
  have hu := sameUses_resolve c t
  rw [hu.isPinned] at hi
  have hfr : t.fixes m = false := by
    cases m with
    | inst j => exact (hu.isPinned j).symm.trans hfr
    | global _ | block _ | terminator _ => rfl
  have hk : Classification.Keeps (fun _ => False) t (c.resolve t).2 := keeps_resolve c t
  refine UsageFlags.contains_trans (hk.entry m fun _ _ => id).1 ?_
  rw [flags_resolve, absorbInst, hin]
  split
  · cases hg : inst.op.loadedGlobal? with
    | none => simpa [hg] using hf hi hfr
    | some g =>
      obtain rfl := hm g hg
      simp only [Option.bind_some, hg]
      exact UsageFlags.contains_union (hf hi hfr) (UsageFlags.contains_refl _)
  · exact hf hi hfr

theorem feeds_pin (hfi : t.Fits c.program c.func) (k : InstId) (info : ValueInfo)
    (hf : Feeds t i m) : Feeds (t.pin k info) i m := by
  have hk : ∀ n, (t.pin k info).fixes n = false →
      t.fixes n = false ∧ (t.pin k info).info n = t.info n := by
    intro n hn
    rw [Classification.info_pin]
    cases n with
    | inst l =>
      have hn : (t.pin k info).isPinned l = false := hn
      rw [Classification.isPinned_pin, hfi.pinned, ← hfi.insts] at hn
      split at hn
      · cases hn
      · next hne => exact ⟨hn, if_neg fun h => hne ⟨Node.inst.inj h.1, h.2⟩⟩
    | global _ | block _ | terminator _ => exact ⟨rfl, if_neg (by simp)⟩
  intro hi hfr
  obtain ⟨hi, hin⟩ := hk (.inst i) hi
  obtain ⟨hfr, hinf⟩ := hk m hfr
  rw [hinf, show (t.pin k info).inst i = t.inst i from hin]
  exact hf hi hfr

theorem Responses.feeds (hpl : c.strategy = .plain)
    (h : c.Responses requests s s') (hb : ∀ k, .restore k ∉ requests)
    (hro : ∀ r ∈ requests, ∀ g x, r.root? c.program = some (g, x) → m ≠ .global g)
    (hin : c.func.insts[i]? = some inst) (hm : m ∈ inst.op.dependencies)
    (hl : ∀ g, inst.op.loadedGlobal? = some g → m = .global g)
    (hfi : s.state.table.Fits c.program c.func) (hf : Feeds s.state.table i m) :
    Feeds s'.state.table i m := by
  have hs : s'.state.table.Fits c.program c.func ∧ Feeds s'.state.table i m := by
    refine h.table (P := fun t => t.Fits c.program c.func ∧ Feeds t i m) hb
      (fun r hr g x info t hg ht => ?_)
      (fun _ _ _ site t _ _ ht => ⟨ht.1.pin site.inst _, feeds_pin ht.1 site.inst _ ht.2⟩)
      (fun work s0 s1 ht hp => ?_) ⟨hfi, hf⟩
    · refine ⟨ht.1.setInfo (.global g) info, fun hi hfr => ?_⟩
      rw [show (t.setGlobal g info).info m = t.info m from
        Classification.info_setInfo_of_ne (n := .global g) info (hro r hr g x hg)]
      refine ht.2 hi ?_
      cases m <;> exact hfr
    · have hf1 := (advances_of_propagate ht.1 hp).fits ht.1
      exact ⟨fits_resolve hf1, feeds_resolve hin hl (feeds_propagate hpl ht.1 hp hin hm ht.2)⟩
  exact hs.2

theorem Responses.fits (h : c.Responses requests s s')
    (hb : ∀ k, .restore k ∉ requests) (hs : s.state.table.Fits c.program c.func) :
    s'.state.table.Fits c.program c.func :=
  h.table (P := fun t => t.Fits c.program c.func) hb
    (fun _ _ g _ x _ _ ht => ht.setInfo (.global g) x)
    (fun _ _ _ site _ _ _ ht => ht.pin site.inst _)
    (fun _ _ _ ht hp => fits_resolve ((advances_of_propagate ht hp).fits ht)) hs

/-- The instructions that a use of a value passes on to: the value itself, and the operands of one
that it passes on to, but not those of a write of a sink or of a call of a computed function. The
indices of a load are among them only if the load did not have the use before, or they had it too. -/
inductive PassesOn (c : Classifier) (requests : List Request) (t : Classification)
    (flags : UsageFlags) (v : Value) : InstId → Prop
  | self {i : InstId} : v = .inst i → PassesOn c requests t flags v i
  | operand {i j : InstId} {inst : Inst} : PassesOn c requests t flags v i →
      (∀ x, ¬c.Writes requests i x) → c.func.insts[i]? = some inst →
      (∀ target args, inst.op ≠ .call (.indirect target) args) → .inst j ∈ inst.op.operands →
      (∀ addr, inst.op = .load addr →
        (t.inst i).flags.contains flags = false ∨ (t.inst j).flags.contains flags = true) →
      PassesOn c requests t flags v j

def DeclaredFirst (c : Classifier) (requests : List Request) (g : GlobalId) : Prop :=
  ∃ before after, requests = before ++ after ∧ (∀ r ∈ before, r.isRoot = true) ∧
    ∀ r ∈ after, ∀ x, r.root? c.program ≠ some (g, x)

theorem feeds_openSession (c : Classifier) (i : InstId) (m : Node) :
    Feeds c.openSession.state.table i m := by
  intro _ _
  rw [show c.openSession.state = c.initial from rfl,
    show c.initial.table.inst i = .unknown from info_initial c (.inst i)]
  exact UsageFlags.contains_of_isEmpty _ rfl

theorem DeclaredFirst.feeds (hp : c.strategy = .plain)
    (h : c.Responses requests c.openSession s) (hb : ∀ k, .restore k ∉ requests)
    (hi : c.func.insts[i]? = some inst) (hg : inst.op.loadedGlobal? = some g)
    (hf : c.DeclaredFirst requests g) : Feeds s.state.table i (.global g) := by
  obtain ⟨before, after, rfl, hbe, ha⟩ := hf
  obtain ⟨s0, h0, h⟩ := h.split
  have hfi := h0.fits (fun k hk => hb k (by simp [hk])) (initial_sound (n := 0)).fits
  refine h.feeds hp (fun k hk => hb k (by simp [hk]))
    (fun r hr g' x hro heq => ha r hr x (by rw [hro, Node.global.inj heq])) hi
    (Operation.global_mem_dependencies hg) (fun g' hg' => by rw [Option.mem_unique hg hg']) hfi ?_
  intro _ _
  rw [show s0.state.table.inst i = .unknown from
    info_of_declares (n := .inst i) h0 hbe (by simp)]
  exact UsageFlags.contains_of_isEmpty _ rfl

/-- Under the plain strategy, whatever bindings were declared and whatever was classified before, a
use that a value is classified for reaches all instructions that it passes on to, and the bindings
that these load, other than bindings of a load that had the use before without them. -/
theorem classifyValue_flags {s : Session} {s' : State} {answers : List Answer}
    {scope : Option Scope} (hplain : c.strategy = .plain) (hback : ∀ k, .restore k ∉ requests)
    (hrun : (c.answerAll requests).run c.openSession = (.ok answers, s))
    (hvalue : (c.classifyValue v flags).run s.state = (.ok scope, s'))
    (hi : c.PassesOn requests s.state.table flags v i) (hfree : ∀ x, ¬c.Writes requests i x) :
    (s'.table.inst i).flags.contains flags = true ∧
    ∀ inst g, c.func.insts[i]? = some inst → inst.op.loadedGlobal? = some g →
      (s.state.table.inst i).flags.contains flags = false ∨
        (s.state.table.global g).flags.contains flags = true ∨ c.DeclaredFirst requests g →
      (s'.table.global g).flags.contains flags = true := by
  have h := responses_of_answerAll hrun
  have hfits := h.fits hback (initial_sound (n := 0)).fits
  have hunpinned : ∀ {i}, (∀ x, ¬c.Writes requests i x) → s.state.table.isPinned i = false :=
    fun hi => h.unpinned hback hi (isPinned_initial c _)
  have hends : Act.Ends (c.classifyValue v flags) s.state _ := ends_classify_get
  unfold Act.Ends at hends
  rw [hvalue] at hends
  obtain ⟨s₁, hprop, rfl⟩ := hends (by simp [Intact])
  have hkeeps : Classification.Keeps (fun _ => False) s₁.table (c.settled s₁).table :=
    keeps_resolve c s₁.table
  have hfinal : ∀ n, (s₁.table.info n).flags.contains flags = true →
      ((c.settled s₁).table.info n).flags.contains flags = true :=
    fun n hn => UsageFlags.contains_trans (hkeeps.entry n fun _ _ => id).1 hn
  -- by induction along the operands that the use passes on to
  have hreach : (s₁.table.inst i).flags.contains flags = true := by
    induction hi with
    | self heq =>
      refine granted_propagate (n := .inst _) hfits hprop (hunpinned hfree)
        (.inr ⟨Work.reach (.inst _) flags, ?_, rfl, UsageFlags.contains_refl flags⟩)
      simp [heq, Work.ofValue]
    | @operand i j inst _ hi hinst hcall hj hload ih =>
      have hdep := Operation.inst_mem_dependencies hcall hj
      refine supplies_propagate hplain hfits hprop hinst hdep (hunpinned hfree) (fun hhas => ?_) (ih hi)
      by_cases hop : ∃ addr, inst.op = .load addr
      · obtain ⟨addr, hop⟩ := hop
        exact (hload addr hop).resolve_left (by simp [hhas])
      · have hnone : inst.op.loadedGlobal? = none := by
          cases hinst' : inst.op with
          | load addr => exact absurd ⟨addr, hinst'⟩ hop
          | _ => rfl
        have hfeeds := h.feeds (m := .inst j) hplain hback (by simp) hinst hdep (by simp [hnone])
          (initial_sound (n := 0)).fits (feeds_openSession c i _)
        exact UsageFlags.contains_trans (hfeeds (hunpinned hi) (hunpinned hfree)) hhas
  refine ⟨hfinal (.inst i) hreach, fun inst g hinst hg hbefore => hfinal (.global g) ?_⟩
  refine supplies_propagate hplain hfits hprop hinst (Operation.global_mem_dependencies hg) rfl
    (fun hhas => ?_) hreach
  rcases hbefore with hlacks | hhad | hfirst
  · rw [hhas] at hlacks
    cases hlacks
  · exact hhad
  · exact UsageFlags.contains_trans (hfirst.feeds hplain h hback hinst hg (hunpinned hfree) rfl) hhas

end Classifier

def selectedEntry : Function where
  name := "main"
  entry := 0
  blocks := #[⟨[0, 1], some .ret⟩]
  insts := #[⟨.load (.member 1 []), .int, 0⟩, ⟨.load (.element 0 [.dynamic (.inst 0)]), .float, 0⟩]
  layout := [0]

def selectedClassifier : Classifier :=
  classifierOf ⟨"table", [.plain "values" 4, .plain "pick" .int], [], [selectedEntry]⟩ selectedEntry
    .plain ⟨#[some 1, some 1], #[1, 0]⟩

def selectedRequests : List Request :=
  [.root 0 (.ofNat 0) (.ofNat 2), .root 1 (.ofNat 0) .empty, .value (.inst 1) (.ofNat 1)]

def selectedSession : Classifier.Session :=
  ((selectedClassifier.answerAll selectedRequests).run selectedClassifier.openSession).2

theorem exists_answers_selected : ∃ answers,
    (selectedClassifier.answerAll selectedRequests).run selectedClassifier.openSession
      = (.ok answers, selectedSession) :=
  Act.exists_run_of_isOk (by decide +kernel)

/-- A use that nothing had yet passes on to the index and to its binding. -/
theorem classifyValue_flags_selectedEntry : ∃ answers scope s',
    (selectedClassifier.answerAll selectedRequests).run selectedClassifier.openSession
      = (.ok answers, selectedSession) ∧
    (selectedClassifier.classifyValue (.inst 1) (.ofNat 4)).run selectedSession.state
      = (.ok scope, s') ∧
    selectedClassifier.PassesOn selectedRequests selectedSession.state.table (.ofNat 4) (.inst 1) 0 ∧
    (s'.table.inst 0).flags.contains (.ofNat 4) = true ∧
    (s'.table.global 1).flags.contains (.ofNat 4) = true := by
  obtain ⟨answers, hrun⟩ := exists_answers_selected
  have hvalue : ((selectedClassifier.classifyValue (.inst 1) (.ofNat 4)).run
      selectedSession.state).1.isOk = true := by decide +kernel
  obtain ⟨scope, hvalue⟩ := Act.exists_run_of_isOk hvalue
  have hfree : ∀ i x, ¬selectedClassifier.Writes selectedRequests i x := by
    rintro i x ⟨name, flags, hmem, -⟩
    simp [selectedRequests] at hmem
  have hentry : selectedClassifier.func.insts[1]?
      = some ⟨.load (.element 0 [.dynamic (.inst 0)]), .float, 0⟩ := rfl
  have hpasses : selectedClassifier.PassesOn selectedRequests selectedSession.state.table (.ofNat 4)
      (.inst 1) 0 :=
    .operand (.self rfl) (hfree 1) hentry (by simp) (by decide) fun _ _ => .inl (by decide +kernel)
  have hflags := Classifier.classifyValue_flags (s := selectedSession) rfl
    (by simp [selectedRequests]) hrun hvalue hpasses (hfree 0)
  have hlacks : (selectedSession.state.table.inst 0).flags.contains (.ofNat 4) = false := by
    decide +kernel
  exact ⟨answers, scope, _, hrun, hvalue, hpasses, hflags.1,
    hflags.2 ⟨.load (.member 1 []), .int, 0⟩ 1 rfl rfl (.inl hlacks)⟩

/-- The use that the entry took over from the table does not pass on, though it is asked for. -/
theorem absorbed_flags_stop_selectedEntry : ∃ answers scope s',
    (selectedClassifier.answerAll selectedRequests).run selectedClassifier.openSession
      = (.ok answers, selectedSession) ∧
    (selectedClassifier.classifyValue (.inst 1) (.ofNat 2)).run selectedSession.state
      = (.ok scope, s') ∧
    (selectedEntry.insts[1]?.any fun inst => inst.op.operands.contains (.inst 0)) = true ∧
    (selectedEntry.insts[0]?.bind (·.op.loadedGlobal?)) = some 1 ∧
    (s'.table.inst 0).flags.contains (.ofNat 2) = false ∧
    (s'.table.global 1).flags.contains (.ofNat 2) = false := by
  obtain ⟨answers, hrun⟩ := exists_answers_selected
  have hvalue : ((selectedClassifier.classifyValue (.inst 1) (.ofNat 2)).run
      selectedSession.state).1.isOk = true := by decide +kernel
  obtain ⟨scope, hvalue⟩ := Act.exists_run_of_isOk hvalue
  exact ⟨answers, scope, _, hrun, hvalue, by decide, rfl, by decide +kernel, by decide +kernel⟩

end Stagewise
