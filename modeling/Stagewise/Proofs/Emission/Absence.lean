import Stagewise.Proofs.Classification.Reachability
import Stagewise.Proofs.Emission.Slots
import Stagewise.Proofs.Emission.Visits

namespace Stagewise

namespace Draft

variable {d d' : Draft} {i j : InstId}

structure Lacks (d : Draft) (i : InstId) : Prop where
  visits : ∀ pred, (pred, i) ∉ d.visits
  copies : i ∉ d.copies.map Prod.fst
  reads : i ∉ d.reads.map Prod.fst

section

variable (h : d.Lacks i)
include h

theorem Lacks.of_eq (hv : d'.visits = d.visits) (hc : d'.copies = d.copies)
    (hr : d'.reads = d.reads) : d'.Lacks i :=
  ⟨hv ▸ h.visits, hc ▸ h.copies, hr ▸ h.reads⟩

theorem Lacks.emit (ty : TypeId) (op : Operation) : (d.emit ty op).2.Lacks i :=
  h.of_eq rfl rfl rfl

theorem Lacks.append (block : BlockId) (ty : TypeId) (op : Operation) :
    (d.append block ty op).2.Lacks i := h.of_eq rfl rfl rfl

theorem Lacks.addCopy (hj : i ≠ j) (v : Value) : (d.addCopy j v).Lacks i :=
  ⟨h.visits, fun hm => (List.mem_cons.mp hm).elim hj h.copies, h.reads⟩

theorem Lacks.noteVisit (hj : i ≠ j) (pred : Option BlockId) : (d.noteVisit pred j).Lacks i :=
  ⟨fun q hm => (List.mem_cons.mp hm).elim (fun heq => hj (Prod.mk.inj heq).2) (h.visits q),
    h.copies, h.reads⟩

theorem Lacks.openRead (hj : i ≠ j) (ty fieldTy : TypeId) (lanes : Option Nat) :
    (d.openRead j ty fieldTy lanes).2.Lacks i := by
  have hr : i ∉ ((d.openRead j ty fieldTy lanes).2.reads).map Prod.fst := by
    cases lanes <;> exact fun hm => (List.mem_cons.mp hm).elim hj h.reads
  refine ⟨?_, ?_, hr⟩
  · cases lanes <;> exact h.visits
  · cases lanes <;> exact h.copies

theorem Lacks.takes {forks after : List Fork} {m : Move} (hd : d.Takes forks m d' after) :
    d'.Lacks i := by
  refine h.of_eq ?_ hd.sameCode.copies hd.sameCode.reads
  have hv := congrArg Log.visits hd.log
  cases hd <;> exact hv

theorem Lacks.wired (hd : d.Wired d') : d'.Lacks i := by
  cases hd with
  | declareRecord _ | declareGlobal _ _ | setOp _ _ | copyPosition _ _ _ _ _ =>
    exact h.of_eq rfl rfl rfl
  | storeField record field slot v =>
    unfold storeField
    cases slot.scalarized <;> exact h.of_eq rfl rfl rfl

end

end Draft

namespace Emission

variable {src : Source} {s t : Emission} {scope : Scope} {d d' : Draft} {i : InstId}

structure Lacks (s : Emission) (i : InstId) : Prop where
  drafts : ∀ (k : Nat) (d : Draft), s.drafts[k]? = some d → d.Lacks i
  slots : ∀ slot ∈ s.ledger.values, slot.source ≠ i

theorem Lacks.setDraft (h : s.Lacks i) (hd : s.drafts[scope.val]? = some d)
    (hd' : d.Lacks i → d'.Lacks i) : (s.setDraft scope d').Lacks i := by
  refine ⟨fun k e he => ?_, h.slots⟩
  rcases setDraft_cases hd he with ⟨rfl, rfl⟩ | ⟨-, he⟩
  · exact hd' (h.drafts _ d hd)
  · exact h.drafts k e he

section Copying

variable (hi : src.table.instScope i = none)

include hi

theorem ne_of_supplies {owner : Scope} {j : InstId} (hj : src.Supplies owner j) : i ≠ j := by
  rintro rfl
  rcases hj with hs | ⟨_, _, _, scope, -, -, -, hs, -⟩
  · simp [hi] at hs
  · simp [hi] at hs

theorem Lacks.reads (h : s.Lacks i) (hr : Reads src (.carrying src.Supplies) s t) : t.Lacks i := by
  induction hr with
  | refl => exact h
  | tail _ hst ih =>
    cases hst with
    | report _ => exact ⟨ih.drafts, ih.slots⟩
    | declareGlobal hd _ _ | declare hd _ => exact ih.setDraft hd fun h => h.of_eq rfl rfl rfl
    | openRead hd _ _ _ ha =>
      have hne := ne_of_supplies hi ha
      refine ⟨(ih.setDraft hd fun h => h.openRead hne ..).drafts, fun slot hs => ?_⟩
      rcases List.mem_append.mp hs with hs | hs
      · exact ih.slots slot hs
      · rw [List.mem_singleton.mp hs]
        exact hne.symm

theorem Lacks.copied {pred : Option BlockId} {j : InstId} {inst : Inst}
    (hj : src.table.instScope j = some scope) (h : s.Lacks i)
    (hc : Copied src (.carrying src.Supplies) scope pred j inst s t) : t.Lacks i := by
  have hne : i ≠ j := by
    rintro rfl
    simp [hi] at hj
  cases hc with
  | emitted hr hd _ _ _ =>
    exact (h.reads hi hr).setDraft hd fun h => (h.emit _ _).addCopy hne _
  | known _ _ _ hr _ hd | missing _ _ _ hr _ hd | unsupported _ _ hr _ hd =>
    exact (h.reads hi hr).setDraft hd fun h => h.addCopy hne _
  | raised _ _ _ hr he _ hr' hd _ =>
    refine (Lacks.reads hi ?_ hr').setDraft hd fun h => h.addCopy hne _
    exact (h.reads hi hr).setDraft he fun h => (h.append _ _ _).addCopy hne _
  | array _ _ _ _ _ _ hr _ hd =>
    have hm := h.reads hi hr
    refine ⟨fun k e he => ?_, hm.slots⟩
    exact (hm.setDraft hd fun h => (h.emit _ _).addCopy hne _).drafts k e he
  | skipped _ hr => exact h.reads hi hr

theorem Lacks.copying (h : s.Lacks i) (hc : Copying src s t) : t.Lacks i := by
  induction hc with
  | refl => exact h
  | tail _ hst ih =>
    cases hst with
    | read hr => exact ih.reads hi (.single hr)
    | @inst _ _ pred j inst d hj _ hd hcop =>
      have hne : i ≠ j := by
        rintro rfl
        simp [hi] at hj
      exact Lacks.copied hi hj (ih.setDraft hd fun h => h.noteVisit hne pred) hcop
    | steer hd hs => exact ih.setDraft hd fun h => h.takes hs
    | @branch _ d site cond hd _ =>
      have hco := d.sameCode_openFork site cond
      have hl := d.openFork_log site cond
      exact ih.setDraft hd fun h => h.of_eq (congrArg Log.visits hl) hco.copies hco.reads
    | fanout _ => exact ⟨ih.drafts, ih.slots⟩

end Copying

theorem Lacks.lays (h : s.Lacks i) (hl : s.Lays t) : t.Lacks i := by
  induction hl with
  | refl => exact h
  | tail _ hs ih =>
    cases hs with
    | markFixed _ | types _ => exact ⟨ih.drafts, ih.slots⟩
    | edit hd hw => exact ih.setDraft hd fun h => h.wired hw

theorem lacks_start (src : Source) (types : TypePool) (scopes : List String) (i : InstId) :
    (start src types scopes).Lacks i := by
  refine ⟨fun k d hd => ?_, fun slot hs => by simp [start, Ledger.empty] at hs⟩
  obtain ⟨name, rfl⟩ := getElem?_start hd
  exact ⟨fun _ => List.not_mem_nil, List.not_mem_nil, List.not_mem_nil⟩

end Emission

theorem Source.sat_emitTable_lacks {src : Source} {i : InstId} (hi : src.table.instScope i = none)
    (tree : PostDominators) (table : ScopeTable) (types : TypePool) :
    Act.Sat Act.Any (src.emitTable tree table) (Emission.start src types table.scopes)
      fun _ t => t.Lacks i := by
  unfold emitTable layOutTable
  simp only [Act.sat_bind, Act.sat_get, Act.sat_pure]
  refine (sat_copyAll_copying tree _).mono fun _ s hs => ?_
  refine (sat_layOutAll_lays _).mono fun _ u hu => (sat_layOutAll_lays _).mono fun _ t ht => ?_
  exact (((Emission.lacks_start src types table.scopes i).copying hi hs).lays hu).lays ht

namespace Classifier

/-- The strategy of shaders, or the plain one, has uses flow from the writes of sinks to just what they
rely on, whatever the order of the sinks. A split leaves all else out: it is copied into no part, and
no field of a record carries it. -/
theorem isUsed_iff_kept_by_writes {p : Program} {f : Function} {strategy : Strategy}
    {tree : PostDominators} {c : Classifier}
    (hc : Classifier.ofFunction p f strategy tree = .ok c)
    (hstrategy : strategy = .plain ∨ ∃ avoidPixel, strategy = Shader.strategy avoidPixel)
    (hstores : f.StoresUnread) :
    (∀ declarations demands answers s, (∀ r ∈ declarations, r.isRoot = true) →
      (∀ r ∈ demands, r.isDemand = true) →
      (c.answerAll (declarations ++ demands)).run c.openSession = (.ok answers, s) →
      ∀ i, (s.state.table.inst i).isUsed = true ↔ c.Kept demands (.inst i)) ∧
    ∀ types table out types', PostDominators.ofFunction f = .ok tree →
      split p types f table strategy = .ok (out, types') →
      (∀ e ∈ table.sinks, e.flags.isEmpty = false) →
      ∃ final : Emission, out.partitions = final.partitions ∧
        (Source.emitTable ⟨p, f, out.classification⟩ tree table).run
          (Emission.start ⟨p, f, out.classification⟩ types table.scopes)
            = (.ok out.transfers, final) ∧
        ∀ i, ((out.classification.inst i).isUsed = true ↔ c.Kept table.demands (.inst i)) ∧
          (¬c.Kept table.demands (.inst i) → final.Lacks i) := by
  obtain rfl := eq_classifierOf hc
  have hlive : strategy.Lively := by
    rcases hstrategy with rfl | ⟨avoidPixel, rfl⟩
    · exact .of_plain rfl
    · exact Shader.lively_strategy avoidPixel
  refine ⟨fun declarations demands answers s hroots hdemands hrun i => ?_,
    fun types table out types' htree hsplit hflags => ?_⟩
  · exact isUsed_iff_kept hlive hstores hroots hdemands (responses_of_answerAll hrun) i
  · obtain ⟨tree', state, sinks, transfers, final, hsplits, rfl, -⟩ :=
      exists_splits_of_split_eq hsplit
    obtain rfl : tree' = tree := Except.ok.inj (hsplits.tree_eq.symm.trans htree)
    refine ⟨final, rfl, hsplits.emitted, fun i => ?_⟩
    obtain ⟨s₁, hroots, hsinks⟩ := sat_classifyTable_responds.of_run hsplits.classified
    have hused := isUsed_iff_kept hlive hstores ?_ ?_ (hroots.append hsinks) i
    · refine ⟨hused, fun hi => ?_⟩
      have hunused : (state.table.inst i).isUsed = false := by
        simpa using fun h => hi (hused.mp h)
      have hscope : state.table.instScope i = none := by
        simp [Classification.instScope, ValueInfo.usedScope, hunused]
      exact (Source.sat_emitTable_lacks hscope tree' table types).of_run hsplits.emitted
    · intro r hr
      obtain ⟨e, -, rfl⟩ := List.mem_map.mp hr
      rfl
    · intro r hr
      obtain ⟨e, he, rfl⟩ := List.mem_map.mp hr
      simp [Request.isDemand, hflags e he]

end Classifier

/-- A vertex value on its way to a pixel, and one that is loaded for nothing. -/
def interpolated : Function where
  name := "main"
  entry := 0
  blocks := #[⟨[0, 1, 2, 3], some .ret⟩]
  insts := #[⟨.load (.member 0 []), .float, 0⟩, ⟨.call (.direct 0) [.inst 0], .float, 0⟩,
    ⟨.load (.member 0 []), .float, 0⟩, ⟨.store (.inst 1) (.member 1 []), .void, 0⟩]
  layout := [0]

def interpolatedProgram : Program :=
  ⟨"interpolated", [.plain "uv" .float, .plain "color" .float], [⟨"vs", [.float], .float⟩],
    [interpolated]⟩

def interpolatedTable : ScopeTable where
  scopes := ["material", "transform", "vertex", "pixel"]
  roots := [⟨"uv", Shader.vertex, Shader.input⟩]
  sinks := [⟨"color", Shader.pixel, Shader.usedByPixel⟩]
  transfers := []

def interpolatedClassifier : Classifier :=
  classifierOf interpolatedProgram interpolated (Shader.strategy false) ⟨#[some 1, some 1], #[1, 0]⟩

/-- The pixel relies on the vertex value, and the other load is left out. -/
theorem kept_interpolated : ∃ out types' answers s,
    Classifier.ofFunction interpolatedProgram interpolated (Shader.strategy false)
      interpolatedClassifier.postDominators = .ok interpolatedClassifier ∧
    interpolated.StoresUnread ∧
    (interpolatedClassifier.answerAll (interpolatedTable.declarations
      ++ interpolatedTable.demands)).run interpolatedClassifier.openSession = (.ok answers, s) ∧
    split interpolatedProgram .empty interpolated interpolatedTable (Shader.strategy false)
      = .ok (out, types') ∧
    interpolatedClassifier.Kept interpolatedTable.demands (.inst 0) ∧
    ¬interpolatedClassifier.Kept interpolatedTable.demands (.inst 2) ∧
    ∃ final : Emission, out.partitions = final.partitions ∧ final.Lacks 2 := by
  have hstores : interpolated.StoresUnread := by
    intro i hi inst v addr hinst hop
    have hread : interpolated.readInsts = [0, 1] := by decide
    rw [hread, List.mem_pair] at hi
    rcases hi with rfl | rfl
    · cases hinst
      cases hop
    · cases hinst
      cases hop
  have htree : PostDominators.ofFunction interpolated
      = .ok interpolatedClassifier.postDominators := by decide +kernel
  have hc : Classifier.ofFunction interpolatedProgram interpolated (Shader.strategy false)
      interpolatedClassifier.postDominators = .ok interpolatedClassifier :=
    Classifier.ofFunction_eq (by decide)
  obtain ⟨hsession, hall⟩ := Classifier.isUsed_iff_kept_by_writes hc (.inr ⟨false, rfl⟩) hstores
  have hrun : ((interpolatedClassifier.answerAll (interpolatedTable.declarations
      ++ interpolatedTable.demands)).run interpolatedClassifier.openSession).1.isOk = true := by
    decide +kernel
  obtain ⟨answers, hrun⟩ := Act.exists_run_of_isOk hrun
  have hused := hsession _ _ _ _ (by decide) (by decide) hrun
  have hok : (split interpolatedProgram .empty interpolated interpolatedTable
      (Shader.strategy false)).isOk = true := by decide +kernel
  obtain ⟨answer, hsplit⟩ := exists_ok_of_isOk hok
  obtain ⟨final, hpartitions, -, hfinal⟩ := hall _ _ _ _ htree hsplit (by decide)
  have hkept : interpolatedClassifier.Kept interpolatedTable.demands (.inst 0) :=
    (hused 0).mp (by decide +kernel)
  have hdead : ¬interpolatedClassifier.Kept interpolatedTable.demands (.inst 2) := fun h =>
    absurd ((hused 2).mpr h) (by decide +kernel)
  exact ⟨answer.1, answer.2, answers, _, hc, hstores, hrun, hsplit, hkept, hdead, final,
    hpartitions, (hfinal 2).2 hdead⟩

end Stagewise
