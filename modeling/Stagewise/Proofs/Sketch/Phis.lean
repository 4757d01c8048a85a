import Stagewise.Proofs.Sketch.Arrivals

namespace Stagewise

namespace Route

variable {r : Route} {block start : BlockId} {stop : Option BlockId} {it inner : Itinerary}
  {site : BranchSite} {arm : BlockId → Itinerary} {j : BlockId}

def Secluded (r : Route) (block : BlockId) (it : Itinerary) : Prop :=
  ∀ q, q ∉ it.entered → ∀ w ∈ it.entered, w ∈ r.func.successors q → w = block

theorem Secluded.within (h : r.Secluded block it)
    (hsu : ∀ w ∈ inner.entered, w ∈ it.entered ∧ w ≠ block)
    (hi : ∀ q ∈ it.entered, q ∉ inner.entered → ∀ w ∈ inner.entered,
      w ∈ r.func.successors q → w = start) : r.Secluded start inner := by
  intro q hq w hw hs
  by_cases hm : q ∈ it.entered
  · exact hi q hm hq w hw hs
  · exact absurd (h q hm w (hsu w hw).1 hs) (hsu w hw).2

theorem Secluded.next {target : BlockId} {next : Itinerary}
    (h : r.Secluded block (.jump block next))
    (ht : r.func.terminator? block = some (.jump target))
    (hn : (Itinerary.jump block next).entered.Nodup) : r.Secluded target next := by
  have hse := (List.nodup_cons.mp hn).1
  refine h.within (fun w hw => ⟨List.mem_cons_of_mem _ hw, fun he => hse (he ▸ hw)⟩) ?_
  intro q hq hno w hw hs
  obtain rfl : q = block := (List.mem_cons.mp hq).resolve_right hno
  simpa [successors_jump ht] using hs

theorem Unfolds.stop_not_mem (hr : r.LoopFree) (h : r.Unfolds block stop it)
    (hst : ∀ s, stop = some s → s < r.func.numBlocks) {s : BlockId} (hs : stop = some s) :
    s ∉ it.entered :=
  fun hm => ((h.stop_postDominates hr hs (hst s hs)).2 s hm).2 rfl

theorem Unfolds.leads_outside (h : r.Unfolds block stop it) {others : List BlockId}
    (ha : ∀ w ∈ others, w ∉ it.entered) (hst : ∀ s, stop = some s → s ∉ others) :
    block ∉ others ∧ ∀ q ∈ it.entered, ∀ w ∈ r.func.successors q, w ∉ others := by
  constructor
  · intro hm
    by_cases hs : some block = stop
    · exact hst block hs.symm hm
    · exact ha block hm (h.head_mem hs)
  · intro q hq w hw hm
    rcases h.successors_mem hq hw with hin | hs
    · exact ha w hm hin
    · exact hst w hs.symm hm

section Fork

variable {rest : Itinerary}

/-- If a fork can be entered at its branch only, an arm can be entered at its start only. -/
theorem Secluded.arms (h : r.Secluded site.block (.fork site arm rest))
    (hbr : r.Branches stop site) (hn : (Itinerary.fork site arm rest).entered.Nodup)
    (hT : r.Unfolds site.ifTrue site.join (arm site.ifTrue))
    (hF : r.Unfolds site.ifFalse site.join (arm site.ifFalse))
    (hj : ∀ s, site.join = some s →
      s ∉ (arm site.ifTrue).entered ∧ s ∉ (arm site.ifFalse).entered)
    (hr : ∀ q ∈ rest.entered, ∀ w ∈ r.func.successors q,
      w ∉ (arm site.ifTrue).entered ∧ w ∉ (arm site.ifFalse).entered) :
    r.Secluded site.ifTrue (arm site.ifTrue) ∧ r.Secluded site.ifFalse (arm site.ifFalse) := by
  obtain ⟨hse, -, -, -, hd, -⟩ := Sketch.nodup_fork hn
  have hl := hT.leads_outside (fun w hw hw' => hd w hw' hw) fun s hs => (hj s hs).2
  have hle := hF.leads_outside hd fun s hs => (hj s hs).1
  constructor
  · refine h.within (fun w hw => ⟨by simp [Itinerary.entered, hw], hse w (.inl hw)⟩) ?_
    intro q hq hno w hw hs
    rcases Itinerary.mem_entered_fork.mp hq with rfl | (hq | hq) | hq
    · refine (hbr.mem_successors.mp hs).resolve_right ?_
      rintro rfl
      exact hle.1 hw
    · exact absurd hq hno
    · exact absurd hw (hle.2 q hq w hs)
    · exact absurd hw (hr q hq w hs).1
  · refine h.within (fun w hw => ⟨by simp [Itinerary.entered, hw], hse w (.inr (.inl hw))⟩) ?_
    intro q hq hno w hw hs
    rcases Itinerary.mem_entered_fork.mp hq with rfl | (hq | hq) | hq
    · refine (hbr.mem_successors.mp hs).resolve_left ?_
      rintro rfl
      exact hl.1 hw
    · exact absurd hw (hl.2 q hq w hs)
    · exact absurd hq hno
    · exact absurd hw (hr q hq w hs).2

theorem Secluded.after (h : r.Secluded site.block (.fork site arm rest))
    (hbr : r.Branches stop site) (hn : (Itinerary.fork site arm rest).entered.Nodup)
    (hT : r.Unfolds site.ifTrue (some j) (arm site.ifTrue))
    (hF : r.Unfolds site.ifFalse (some j) (arm site.ifFalse)) : r.Secluded j rest := by
  obtain ⟨hse, -, -, -, -, ha⟩ := Sketch.nodup_fork hn
  have har : ∀ {start : BlockId} {it : Itinerary}, r.Unfolds start (some j) it →
      (∀ w ∈ rest.entered, w ∉ it.entered) → ∀ w ∈ rest.entered,
      (w = start → w = j) ∧ ∀ q ∈ it.entered, w ∈ r.func.successors q → w = j := by
    intro start it hu hd w hw
    refine ⟨?_, fun q hq hs => ?_⟩
    · rintro rfl
      by_contra hne
      exact hd w hw (hu.head_mem fun he => hne (Option.some.inj he))
    · exact Option.some.inj ((hu.successors_mem hq hs).resolve_left (hd w hw))
  have hi := har hT fun w hw => (ha w hw).1
  have hin := har hF fun w hw => (ha w hw).2
  refine h.within (fun w hw => ⟨by simp [Itinerary.entered, hw], hse w (.inr (.inr hw))⟩) ?_
  intro q hq hno w hw hs
  rcases Itinerary.mem_entered_fork.mp hq with rfl | (hq | hq) | hq
  · exact (hbr.mem_successors.mp hs).elim (hi w hw).1 (hin w hw).1
  · exact (hi w hw).2 q hq hs
  · exact (hin w hw).2 q hq hs
  · exact absurd hq hno

theorem Secluded.parts (hr : r.LoopFree) (h : r.Secluded site.block (.fork site arm rest))
    (hu : r.Unfolds block stop (.fork site arm rest))
    (hn : (Itinerary.fork site arm rest).entered.Nodup)
    (hst : ∀ s, stop = some s → s < r.func.numBlocks) :
    r.Secluded site.ifTrue (arm site.ifTrue) ∧ r.Secluded site.ifFalse (arm site.ifFalse) ∧
      ∀ j, site.join = some j → some j ≠ stop → r.Secluded j rest := by
  have ho := fun s hs => hu.stop_not_mem hr hst (s := s) hs
  obtain ⟨-, -, -, -, -, ha⟩ := Sketch.nodup_fork hn
  cases hu with
  | fork hbr hT hF he hR =>
    have hjo := fun s hs => And.intro (hT.stop_not_mem hr (fun _ => hbr.join_lt hr) (s := s) hs)
      (hF.stop_not_mem hr (fun _ => hbr.join_lt hr) (s := s) hs)
    have hl : ∀ q ∈ rest.entered, ∀ w ∈ r.func.successors q,
        w ∉ (arm site.ifTrue).entered ∧ w ∉ (arm site.ifFalse).entered := by
      rcases he with ⟨-, rfl⟩ | ⟨i, hi, his⟩
      · simp [Itinerary.entered]
      · simp only [Itinerary.mem_entered_fork, not_or] at ho
        have hle := (hR i hi his).leads_outside (fun w hw hw' => (ha w hw').1 hw)
          fun s hs => (ho s hs).2.1.1
        have hlea := (hR i hi his).leads_outside (fun w hw hw' => (ha w hw').2 hw)
          fun s hs => (ho s hs).2.1.2
        exact fun q hq w hw => ⟨hle.2 q hq w hw, hlea.2 q hq w hw⟩
    obtain ⟨hse, hsec⟩ := h.arms hbr hn hT hF hjo hl
    exact ⟨hse, hsec, fun j hj _ => h.after hbr hn (hj ▸ hT) (hj ▸ hF)⟩

end Fork

theorem Unfolds.reaches (hr : r.LoopFree) (h : r.Unfolds block stop it) {q : BlockId}
    (hq : q ∈ it.entered) : r.func.Reaches block q := by
  induction h with
  | join => simp [Itinerary.entered] at hq
  | ret _ _ =>
    obtain rfl : q = _ := by simpa [Itinerary.entered] using hq
    exact .refl
  | @jump block stop target next _ ht _ ih =>
    rcases List.mem_cons.mp hq with rfl | hq
    · exact .refl
    · exact .head (by simp [successors_jump ht]) (ih hq)
  | @fork stop site arm rest hbr _ _ he _ ihT ihF ihR =>
    rcases Itinerary.mem_entered_fork.mp hq with rfl | (hq | hq) | hq
    · exact .refl
    · exact .head (hbr.mem_successors.mpr (.inl rfl)) (ihT hq)
    · exact .head (hbr.mem_successors.mpr (.inr rfl)) (ihF hq)
    · rcases he with ⟨-, rfl⟩ | ⟨j, hj, hjs⟩
      · simp [Itinerary.entered] at hq
      · exact ((hbr.join_postDominates hr hj).reaches (Nat.ne_of_lt (hbr.join_lt hr hj))).trans
          (ihR j hj hjs hq)

end Route

/-- The phis of a plan: they are drawn only where more than one block may lead, they list the noted
exits of the blocks before their own, and all branches that come together there are wanted. -/
structure Plan.Phis (plan : Plan) (f : Function) : Prop where
  static : ∀ exits p b blocks, .phi blocks ∉ plan.marks exits (some p) b
  wants : ∀ exits b blocks, .phi blocks ∈ plan.marks exits none b →
    ∀ site, site.join = some b → plan.wants site = true
  incoming : ∀ exits b blocks, .phi blocks ∈ plan.marks exits none b →
    ∃ preds : List BlockId, preds.Nodup ∧ (∀ q, q ∈ preds ↔ b ∈ f.successors q) ∧
      blocks = preds.filterMap exits

namespace Sketch

variable {r : Route} {f : Function} {plan : Plan} {quiet : BlockId → Prop} {block : BlockId}
  {stop : Option BlockId} {enclosed faithful : Bool} {it T F : Itinerary} {pred : Option BlockId}
  {k k' k₁ kT kF : Sketch} {site : BranchSite} {fork : Fork} {j : BlockId} {old : Nat → Prop}

def Fit (k : Sketch) : Prop :=
  ∀ b blocks, .phi blocks ∈ k.marks b → blocks.Nodup ∧ ∀ c, c ∈ blocks ↔ k.Edge c b

def Aims (k : Sketch) : Prop := ∀ a t : Nat, k.Edge a t → t < k.size

/-- Control has arrived at the current block from all blocks that lead to a source block. -/
structure Ready (k : Sketch) (f : Function) (b : BlockId) : Prop where
  exits : ∀ q, b ∈ f.successors q → ∃ c, k.exits q = some c ∧ k.Edge c k.current
  edges : ∀ c, k.Edge c k.current → ∃ q, b ∈ f.successors q ∧ k.exits q = some c
  inj : ∀ q q', b ∈ f.successors q → b ∈ f.successors q' → k.exits q = k.exits q' → q = q'

theorem Ready.phi (h : k.Ready f block) {preds : List BlockId} (hn : preds.Nodup)
    (hp : ∀ q, q ∈ preds ↔ block ∈ f.successors q) :
    (preds.filterMap k.exits).Nodup ∧ ∀ c, c ∈ preds.filterMap k.exits ↔ k.Edge c k.current := by
  constructor
  · refine List.pairwise_filterMap.mpr (hn.imp_of_mem ?_)
    rintro q q' hq hq' hne c hc c' hc' rfl
    exact hne (h.inj q q' ((hp q).mp hq) ((hp q').mp hq') (hc.trans hc'.symm))
  · intro c
    rw [List.mem_filterMap]
    constructor
    · rintro ⟨q, hq, hc⟩
      obtain ⟨c', hc', he⟩ := h.exits q ((hp q).mp hq)
      obtain rfl := Option.mem_unique hc hc'
      exact he
    · intro he
      obtain ⟨q, hq, hc⟩ := h.edges c he
      exact ⟨q, (hp q).mpr hq, hc⟩

theorem Fit.append (h : k.Fit) (hp : plan.Phis f)
    (hr : pred = none → (∀ site, site.join = some block → plan.wants site = true) →
      k.Ready f block) : (k.append (plan.marks k.exits pred block)).Fit := by
  intro b blocks hm
  by_cases hb : b = k.current
  · subst hb
    rw [append_marks_current, List.mem_append] at hm
    rcases hm with hm | hm
    · exact h _ blocks hm
    · cases pred with
      | some p => exact absurd hm (hp.static _ p block blocks)
      | none =>
        obtain ⟨preds, hn, hpr, rfl⟩ := hp.incoming _ block blocks hm
        exact (hr rfl (hp.wants _ block _ hm)).phi hn hpr
  · rw [append_marks_ne k _ hb] at hm
    exact h b blocks hm

theorem Fit.of_adds (h : k.Fit) (hwf : k.Wf) (ha : k.Adds k' old)
    (ho : ∀ t, old t → k.marks t = []) (hk : ∀ a e, k.ends a = some e → k'.ends a = some e)
    (hm : k'.marks = k.marks) : k'.Fit := by
  intro b blocks hme
  rw [hm] at hme
  obtain ⟨hn, hbl⟩ := h b blocks hme
  refine ⟨hn, fun c => (hbl c).trans ⟨?_, fun hc => ?_⟩⟩
  · rintro ⟨e, he, ht⟩
    exact ⟨e, hk c e he, ht⟩
  · rcases ha.edges c b hc with hc | ⟨-, ⟨hle, -⟩ | hb⟩
    · exact hc
    · rw [hwf.marks_nil b hle] at hme
      simp at hme
    · rw [ho b hb] at hme
      simp at hme

theorem Aims.of_adds (h : k.Aims) (ha : k.Adds k' old) (ho : ∀ t : Nat, old t → t < k'.size) :
    k'.Aims := by
  intro a t hat
  have hs := ha.size_le
  rcases ha.edges a t hat with hat | ⟨-, ht | ht⟩
  · have := h a t hat
    omega
  · exact ht.2
  · exact ho t ht

section Fork

variable {arm : BlockId → Itinerary} {rest : Itinerary} {i : BlockId}

theorem comes_iff (hr : r.LoopFree) (hsec : r.Secluded site.block (.fork site arm rest))
    (hbr : r.Branches stop site)
    (hn : (Itinerary.fork site arm rest).entered.Nodup) (hm : i ∈ rest.entered)
    (hre : r.Unfolds i stop rest) (q : BlockId) :
    (r.Comes site.ifTrue (arm site.ifTrue) (some site.block) i q ∨
      r.Comes site.ifFalse (arm site.ifFalse) (some site.block) i q) ↔ i ∈ r.func.successors q := by
  obtain ⟨hse, -⟩ := nodup_fork hn
  constructor
  · rintro ((⟨-, hs⟩ | ⟨he, hq⟩) | ⟨-, hs⟩ | ⟨he, hq⟩)
    · exact hs
    · exact Option.some.inj hq ▸ hbr.mem_successors.mpr (.inl he.symm)
    · exact hs
    · exact Option.some.inj hq ▸ hbr.mem_successors.mpr (.inr he.symm)
  · intro hs
    by_cases hin : q ∈ (Itinerary.fork site arm rest).entered
    · rcases Itinerary.mem_entered_fork.mp hin with rfl | (hq | hq) | hq
      · rcases hbr.mem_successors.mp hs with rfl | rfl
        · exact .inl (.inr ⟨rfl, rfl⟩)
        · exact .inr (.inr ⟨rfl, rfl⟩)
      · exact .inl (.inl ⟨hq, hs⟩)
      · exact .inr (.inl ⟨hq, hs⟩)
      · -- a way back to the block would be a loop
        exact absurd (.tail' (hre.reaches hr hq) hs) (hr.loopFree i)
    · have he := hsec q hin i (by simp [Itinerary.entered, hm]) hs
      exact absurd he (hse i (.inr (.inr hm)))

/-- After both arms control has arrived at their join from all of its predecessors. -/
theorem Forked.ready
    (h : Forked plan k site (arm site.ifTrue) (arm site.ifFalse) fork k₁ kT kF)
    (hT : Drawn r plan quiet site.ifTrue site.join false faithful (arm site.ifTrue)
      (some site.block) (k₁.enterArm fork fork.ifTrue) kT)
    (hF : Drawn r plan quiet site.ifFalse site.join false faithful (arm site.ifFalse)
      (some site.block) ((kT.leaveArm fork).enterArm fork fork.ifFalse) kF)
    (hco : ∀ q, (r.Comes site.ifTrue (arm site.ifTrue) (some site.block) i q ∨
      r.Comes site.ifFalse (arm site.ifFalse) (some site.block) i q) ↔ i ∈ r.func.successors q)
    (hn : (Itinerary.fork site arm rest).entered.Nodup) (hme : i ∈ rest.entered)
    (hi : site.join = some i) (ha : k.Aims) (hne : k.size ≤ ((kF.leaveArm fork).closeFork fork).current)
    (hw : ∀ site, site.join = some i → plan.wants site = true) :
    ((kF.leaveArm fork).closeFork fork).Ready r.func i := by
  obtain ⟨hse, hnd, hndF, -, hd, hr⟩ := nodup_fork hn
  obtain ⟨ho, hou⟩ := hr i hme
  obtain ⟨b, hb, -⟩ := h.opened.join_some i hi
  have hcu : ((kF.leaveArm fork).closeFork fork).current = b := by simp [closeFork, hb]
  have hj := h.joins_eq hi hb
  have hba := h.edge_back hb
  have haT := hT.arrives hnd rfl hi ho hw hj.1 (fun _ => ⟨_, rfl⟩)
    (fun hs => .inr (hba.1 hs)) hb
  have haF := hF.arrives hndF rfl hi hou hw hj.2 (fun _ => ⟨_, rfl⟩)
    (fun hs => .inr (hba.2 hs)) hb
  have hsep : site.block ∉ (arm site.ifTrue).entered ∧ site.block ∉ (arm site.ifFalse).entered :=
    ⟨fun hm => hse _ (.inl hm) rfl, fun hm => hse _ (.inr (.inl hm)) rfl⟩
  have har := (h.arrives hT hF hsep hd hi hb haT haF).congr hco
  refine ⟨fun q hq => ?_, fun c hc => ?_, har.inj⟩
  · obtain ⟨c, hc, he, -⟩ := har.exits q hq
    exact ⟨c, hc, hcu ▸ he⟩
  · rw [hcu] at hc hne
    rcases har.edges c hc with hc | hc
    · exact absurd (ha c b hc) (Nat.not_lt_of_le hne)
    · exact hc

@[simp] theorem closeFork_marks (k : Sketch) (fork : Fork) :
    (k.closeFork fork).marks = k.marks := by
  unfold closeFork
  split <;> rfl

theorem Fit.congr (h : k.Fit) (hm : k'.marks = k.marks) (he : k'.ends = k.ends) :
    k'.Fit := by
  intro b blocks hme
  simpa only [Edge, he] using h b blocks (hm ▸ hme)

theorem Fit.leaveArm (h : k.Fit) (hwf : k.Wf)
    (hj : ∀ t : Nat, fork.join = some t → k.marks t = []) : (k.leaveArm fork).Fit :=
  h.of_adds hwf (adds_leaveArm k fork) hj (fun _ _ he => leaveArm_ends_of_some _ _ he)
    (leaveArm_marks k fork)

theorem Wf.joinOf_lt (h : k.Wf) {join : Option BlockId} {t : Nat} (ht : k.JoinOf join t) :
    t < k.size := by
  obtain ⟨j, -, ht⟩ := ht
  exact h.joins_lt j t ht

/-- The phis of a fork fit if those of its arms do. -/
theorem Forked.fit (h : Forked plan k site T F fork k₁ kT kF) (hf : k.Fit) (haim : k.Aims)
    (ha : (k₁.enterArm fork fork.ifTrue).Adds kT (k₁.JoinOf site.join))
    (hT : (k₁.enterArm fork fork.ifTrue).Fit → (k₁.enterArm fork fork.ifTrue).Aims → kT.Fit)
    (hF : ((kT.leaveArm fork).enterArm fork fork.ifFalse).Fit →
      ((kT.leaveArm fork).enterArm fork fork.ifFalse).Aims → kF.Fit) :
    ((kF.leaveArm fork).closeFork fork).Fit := by
  have ho := h.opened
  have hfi := (h.place.firstArm ho h.first).standing
  have hwf1 := (h.place.standing ho).wf
  have hop : k₁.Fit := by
    refine hf.of_adds h.place.wf ho.adds ?_ (fun a e he => ?_) ho.marks
    · rintro t ⟨j, hj, ht⟩
      exact (h.place.pending j t hj ht).2.2
    · have hne : a ≠ k.current := by
        rintro rfl
        rw [h.place.opened] at he
        cases he
      rw [ho.ends, Function.update_of_ne hne, he]
  have ha1 : (k₁.enterArm fork fork.ifTrue).Aims :=
    haim.of_adds (ho.adds.enterArm fork fork.ifTrue) fun t ht =>
      (h.place.wf.joinOf_lt ht).trans_le ho.size_le
  have hai : kT.Aims := ha1.of_adds ha fun t ht =>
    (hwf1.joinOf_lt ht).trans_le ha.size_le
  -- the block where the arms come together has no marks yet
  have hw : ∀ t : Nat, fork.join = some t →
      kT.marks t = [] ∧ t < kT.size ∧ kF.marks t = [] := by
    intro t ht
    cases hj : site.join with
    | none => rw [hfi.join_none hj] at ht; cases ht
    | some j =>
      obtain ⟨b, hb, -, hlt, -, -, hm⟩ := hfi.join_some j hj
      obtain ⟨-, -, hc, -⟩ := h.closed.join_some j hj
      obtain rfl := Option.mem_unique hb ht
      rw [leaveArm_marks] at hm
      rw [leaveArm_size] at hlt
      have hcu : ((kF.leaveArm fork).closeFork fork).current = b := by simp [closeFork, hb]
      rw [hcu, closeFork_marks, leaveArm_marks] at hc
      exact ⟨hm, hlt, hc⟩
  have ha2 : ((kT.leaveArm fork).enterArm fork fork.ifFalse).Aims :=
    hai.of_adds ((adds_leaveArm kT fork).enterArm fork fork.ifFalse) fun t ht => by
      have hlt := (hw t ht).2.1
      rwa [← leaveArm_size kT fork] at hlt
  have hl : ((kT.leaveArm fork).enterArm fork fork.ifFalse).Fit :=
    (hT hop ha1).leaveArm h.first.wf fun t ht => (hw t ht).1
  refine Fit.congr ?_ (closeFork_marks _ _) (closeFork_ends _ _)
  exact (hF hl ha2).leaveArm h.second.wf fun t ht => (hw t ht).2.2

end Fork

theorem Fit.finishIfOpen_ret (h : k.Fit) : (k.finishIfOpen .ret).Fit := by
  unfold finishIfOpen
  split
  · exact h
  · next ho =>
    have hno : k.ends k.current = none := by simpa using ho
    intro b blocks hm
    obtain ⟨hn, hb⟩ := h b blocks hm
    refine ⟨hn, fun c => (hb c).trans ?_⟩
    by_cases hc : c = k.current
    · subst hc
      simp [Edge, finish, hno, Exit.targets]
    · simp [Edge, finish, Function.update_of_ne hc]

/-- By induction on a drawing, each phi lists the blocks that lead to its own. -/
theorem Drawn.fit (h : Drawn r plan quiet block stop enclosed faithful it pred k k')
    (hp : plan.Phis r.func) (hr : r.LoopFree) (hn : it.entered.Nodup)
    (hs : ∀ s, stop = some s → s < r.func.numBlocks) (hsec : r.Secluded block it)
    (hre : pred = none → (∀ site, site.join = some block → plan.wants site = true) →
      k.Ready r.func block) (hf : k.Fit) (hai : k.Aims) : k'.Fit := by
  induction h with
  | @join block enclosed faithful pred k _ =>
    cases pred with
    | none => exact hf
    | some q => exact hf.congr rfl rfl
  | @ret block enclosed faithful pred k _ _ _ _ =>
    have hap := hf.append hp hre
    cases faithful with
    | false => exact hap
    | true => exact hap.finishIfOpen_ret
  | jump _ hte _ _ ih =>
    exact ih (List.nodup_cons.mp hn).2 hs (hsec.next hte hn) (fun he => by cases he)
      (hf.append hp hre) hai
  | @fork stop enclosed faithful site arm rest pred k fork k₁ kT kF k' hbr _ hapt hfo hT hF ha hR
      ihT ihF ihR =>
    obtain ⟨-, hnd, hndF, hndR, -⟩ := nodup_fork hn
    have hjl := fun s => hbr.join_lt hr (j := s)
    have hu := Route.Unfolds.fork hbr hT.unfolds hF.unfolds ha.ends
      fun j hj hjs => (hR j hj hjs).unfolds
    obtain ⟨hse, hsecF, hsecR⟩ := hsec.parts hr hu hn hs
    have had := (hT.adds hnd).mono fun _ h => h.2
    have hkc : ((kF.leaveArm fork).closeFork fork).Fit := by
      refine hfo.fit (hf.append hp hre) hai had ?_ ?_
      · exact ihT hnd hjl hse (by simp)
      · exact ihF hndF hjl hsecF (by simp)
    rcases ha with ⟨-, -, rfl⟩ | ⟨i, hi, his, hst, -⟩
    · exact hkc
    · have ha' := hapt.append (plan.marks k.exits pred site.block)
      have hne := hfo.closed.current_new ha' hfo.wants hi hst
      have hadd := hfo.adds had ((hF.adds hndF).mono fun _ h => h.2)
      have ha0 : (k.append (plan.marks k.exits pred site.block)).Aims := hai
      refine ihR i hi his hndR hs (hsecR i hi his) (fun _ hwa => ?_) hkc ?_
      · have huR := (hR i hi his).unfolds
        have hm := huR.head_mem his
        exact hfo.ready hT hF (comes_iff hr hsec hbr hn hm huR) hn hm hi hai hne
          hwa
      · exact ha0.of_adds hadd fun t ht => (ha'.wf.joinOf_lt ht).trans_le hadd.size_le
  | @flat stop enclosed faithful site arm rest pred k kT kF k' hbr hapt hfl hT hF ha hR ihT ihF
      ihR =>
    obtain ⟨-, hnd, hndF, hndR, -⟩ := nodup_fork hn
    have hjl := fun s => hbr.join_lt hr (j := s)
    have hu := Route.Unfolds.fork hbr hT.unfolds hF.unfolds ha.ends
      fun j hj hjs => (hR j hj hjs).unfolds
    obtain ⟨hse, hsecF, hsecR⟩ := hsec.parts hr hu hn hs
    have ha0 : (k.append (plan.marks k.exits pred site.block)).Aims := hai
    have haim : kT.Aims := ha0.of_adds (hT.adds hnd) fun t ht => Bool.noConfusion ht.1
    have haims : kF.Aims := haim.of_adds (hF.adds hndF) fun t ht => Bool.noConfusion ht.1
    have hkT := ihT hnd hjl hse (by simp) (hf.append hp hre) hai
    have hkF := ihF hndF hjl hsecF (by simp) hkT haim
    rcases ha with ⟨-, -, rfl⟩ | ⟨i, hi, his, -, -⟩
    · exact hkF
    · refine ihR i hi his hndR hs (hsecR i hi his) (fun _ hwa => ?_) hkF haims
      -- no phi waits where the arms of a branch that is left out come together
      have hw := hfl.unwanted
      rw [hwa site hi] at hw
      cases hw

theorem fit_draw (hr : r.LoopFree) (hu : r.Unfolds block none it)
    (ho : it.Orderly plan quiet false) (hn : it.entered.Nodup)
    (hp : plan.Phis r.func) (hs : r.Secluded block it)
    (hf : ∀ q, block ∉ r.func.successors q) : (it.draw plan true none .empty).Fit := by
  have hd := (drawn_draw hu true ho (Itinerary.nodup_rejoined hn _) (by simp)
    apt_empty none).1
  have hno : ∀ a t : Nat, ¬Sketch.empty.Edge a t := by
    rintro a t ⟨e, he, -⟩
    cases he
  refine hd.fit hp hr hn (by simp) hs (fun _ _ => ⟨?_, ?_, ?_⟩) ?_ ?_
  · exact fun q hq => absurd hq (hf q)
  · exact fun c hc => absurd hc (hno c _)
  · exact fun q _ hq => absurd hq (hf q)
  · exact fun b blocks hm => absurd hm (List.not_mem_nil)
  · exact fun a t hat => absurd hat (hno a t)

end Sketch

end Stagewise
