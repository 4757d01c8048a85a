import Stagewise.Proofs.Emission.Placeholders
import Stagewise.Proofs.Emission.Retyping
import Stagewise.Workspace

namespace Stagewise

variable {α β σ : Type}

variable {f : α → Act σ β} {s : σ} {xs : List α} {ys : List β}

theorem Act.run_bind_eq_ok {x : Act σ α} {b : β} {u : σ}
    (h : (x >>= f).run s = (.ok b, u)) :
    ∃ a t, x.run s = (.ok a, t) ∧ (f a).run t = (.ok b, u) := by
  rw [run_bind] at h
  rcases hx : x.run s with ⟨_ | a, t⟩
  · rw [hx] at h
    cases h
  · rw [hx] at h
    exact ⟨a, t, rfl, h⟩

theorem Act.mapM_cons_eq_ok {x : α} {t : σ} (h : ((x :: xs).mapM f).run s = (.ok ys, t)) :
    ∃ y u ys', (f x).run s = (.ok y, u) ∧
      (xs.mapM f).run u = (.ok ys', t) ∧ ys = y :: ys' := by
  rw [List.mapM_cons] at h
  obtain ⟨y, u, hx, h⟩ := run_bind_eq_ok h
  obtain ⟨ys', v, hxs, h⟩ := run_bind_eq_ok h
  cases h
  exact ⟨y, u, ys', hx, hxs, rfl⟩

theorem Act.reached_of_run {t : σ} (h : (xs.mapM f).run s = (.ok ys, t)) :
    (reached f xs s).map Prod.fst = xs := by
  induction xs generalizing s ys with
  | nil => rfl
  | cons x xs ih =>
    obtain ⟨y, u, ys', hx, hxs, -⟩ := mapM_cons_eq_ok h
    simp only [reached, hx, List.map_cons, ih hxs]

namespace Interner

variable {t u : Interner} {text : String}

theorem intern_isPrefix (t : Interner) (text : String) : t.texts <+: (t.intern text).2.texts := by
  unfold intern
  split
  · exact List.prefix_refl _
  · exact List.prefix_append _ _

theorem internEach_isPrefix (t : Interner) (texts : List String) :
    t.texts <+: (internEach intern t texts).2.texts := by
  induction texts generalizing t with
  | nil => exact List.prefix_refl _
  | cons text rest ih => exact (t.intern_isPrefix text).trans (ih _)

theorem find?_of_isPrefix (h : (t.intern text).2.texts <+: u.texts) :
    u.find? text = some (t.intern text).1 := by
  obtain ⟨extra, he⟩ := h
  rw [find?, ← he, List.findIdx?_append]
  unfold intern find?
  cases hn : t.texts.findIdx? (· == text) with
  | some n => simp [hn]
  | none => simp [List.findIdx?_append, hn, List.findIdx?_cons, size]

theorem intern_again (h : (t.intern text).2.texts <+: u.texts) :
    u.intern text = ((t.intern text).1, u) := by
  have hf := find?_of_isPrefix h
  generalize (t.intern text).1 = n at hf
  simp only [intern, hf]

theorem internEach_eq_find? (t : Interner) (texts : List String) :
    (internEach intern t texts).1.map some = texts.map (internEach intern t texts).2.find? := by
  induction texts generalizing t with
  | nil => rfl
  | cons text rest ih =>
    have hf := find?_of_isPrefix ((t.intern text).2.internEach_isPrefix rest)
    simp only [internEach, List.map_cons, ih (t.intern text).2, hf]

theorem internEach_again (texts : List String)
    (h : (internEach intern t texts).2.texts <+: u.texts) :
    internEach intern u texts = ((internEach intern t texts).1, u) := by
  induction texts generalizing t with
  | nil => rfl
  | cons text rest ih =>
    have hf : u.intern text = ((t.intern text).1, u) :=
      intern_again (((t.intern text).2.internEach_isPrefix rest).trans h)
    have ho : internEach intern u rest = ((internEach intern (t.intern text).2 rest).1, u) := ih h
    simp only [internEach, hf, ho]

end Interner

namespace Emission

variable {s : Emission}

theorem Ready.hasSlots_eq {P Q : TypePool} (hs : s.Ready P) (hP : P.Closed) (hQ : s.types.Extends Q)
    (key : RecordKey) : (s.withTypes Q).hasSlots key = s.hasSlots key := by
  simp only [hasSlots, withTypes, hs.valuesOf_eq hP hQ, hs.arraysOf_eq hP hQ]

theorem extends_bind {x : Act Emission α} {f : α → Act Emission β}
    (hf : ∀ a t, x.run s = (.ok a, t) → Repeats (f a) t) :
    (x.run s).2.types.Extends ((x >>= f).run s).2.types := by
  rw [Act.run_bind]
  rcases hr : x.run s with ⟨_ | a, t⟩
  · exact .refl _
  · exact (hf a t hr).1

end Emission

namespace Source

open Emission

variable {src : Source} {P Q : TypePool} {s : Emission} {records : List (RecordKey × String)}

theorem recordNames_cons (r : RecordKey × String) (rest : List (RecordKey × String)) (s : Emission) :
    src.recordNames (r :: rest) s = (if s.hasSlots r.1 then [r.2] else []) ++
      match (src.layOut r.1 r.2).run s with
      | (.ok _, t) => src.recordNames rest t
      | (.error _, _) => [] := by
  simp only [recordNames, Act.reached, List.filter_cons]
  rcases (src.layOut r.1 r.2).run s with ⟨_ | _, t⟩ <;> split <;> rfl

theorem sat_layOut_names (key : RecordKey) (name : String) (s : Emission) :
    Act.Sat Act.Any (src.layOut key name) s fun r _ =>
      r.toList.map TransferLayout.name = if s.hasSlots key then [name] else [] := by
  have hw : ∀ (layout : TransferLayout) values arrays s,
      Act.Sat Act.Any (src.wireRecord layout values arrays) s fun r _ => r = some layout := by
    intro layout values arrays s
    simp only [wireRecord, Act.sat_bind, Act.sat_pure, Act.sat_any_iff]
    exact fun _ _ _ _ _ _ _ _ _ _ _ _ => trivial
  rw [Act.sat_any_iff]
  intro r t hr
  rw [run_layOut] at hr
  simp only at hr
  split at hr
  · next he =>
    cases hr
    simp [hasSlots, he]
  · next hs =>
    obtain rfl := (hw _ _ _ _).of_run hr
    have hs : s.hasSlots key = true := by rw [hasSlots, Bool.eq_false_iff.mpr hs]; rfl
    rw [if_pos hs]
    rfl

theorem recordNames_of_run {results : List (Option TransferLayout)} {t : Emission}
    (h : (records.mapM fun r => src.layOut r.1 r.2).run s = (.ok results, t)) :
    src.recordNames records s = (results.filterMap id).map TransferLayout.name := by
  induction records generalizing s results with
  | nil =>
    cases h
    rfl
  | cons r rest ih =>
    obtain ⟨y, u, ys, hx, hxs, rfl⟩ := Act.mapM_cons_eq_ok h
    have hn := (sat_layOut_names r.1 r.2 s).of_run hx
    rw [recordNames_cons, hx, ← hn]
    cases y <;> simp [ih hxs]

theorem recordNames_again (hP : P.Closed) (hs : s.Ready P)
    (hQ : ((records.mapM fun r => src.layOut r.1 r.2).run s).2.types.Extends Q) :
    src.recordNames records (s.withTypes Q) = src.recordNames records s := by
  induction records generalizing s with
  | nil => rfl
  | cons r rest ih =>
    have hr : Repeats (src.layOut r.1 r.2) s := repeats_layOut hP hs r.1 r.2
    have hn : ∀ b t, (src.layOut r.1 r.2).run s = (.ok b, t) → t.Ready P := fun b t ht =>
      hs.lays hr ht ((sat_layOut_lays r.2).of_run ht)
    have hre : ∀ {t : Emission}, t.Ready P →
        Repeats (rest.mapM fun r => src.layOut r.1 r.2) t := fun ht =>
      repeats_mapM ht (fun r _ hs => repeats_layOut hP hs r.1 r.2) fun r _ => sat_layOut_lays r.2
    rw [List.mapM_cons] at hQ
    have hf : ((src.layOut r.1 r.2).run s).2.types.Extends Q :=
      (extends_bind fun b t ht => (hre (hn b t ht)).bind fun _ _ _ => repeats_pure _).trans hQ
    rw [recordNames_cons, recordNames_cons, hr.2 Q hf, hs.hasSlots_eq hP (hr.1.trans hf)]
    congr 1
    rcases hx : (src.layOut r.1 r.2).run s with ⟨_ | b, t⟩
    · rfl
    · rw [Act.run_bind, hx] at hQ
      have ht := hn b t hx
      exact ih ht ((extends_bind fun _ _ _ => repeats_pure _).trans hQ)

variable {table : ScopeTable} {tree : PostDominators}

theorem emittedNames_of_run {transfers : List TransferLayout} {final : Emission}
    (h : (src.emitTable tree table).run (start src P table.scopes) = (.ok transfers, final)) :
    src.emittedNames tree table P =
    (table.scopes.map fun name => src.program.name ++ "." ++ name) ++
      transfers.map TransferLayout.name := by
  obtain ⟨_, s, hc, h⟩ := Act.run_bind_eq_ok h
  obtain ⟨named, t, hna, h⟩ := Act.run_bind_eq_ok h
  obtain ⟨others, _, ho, h⟩ := Act.run_bind_eq_ok
    (show (src.layOutAll (table.others t) >>= fun others => pure (named ++ others)).run t
      = (.ok transfers, final) from h)
  cases h
  have hn : ∀ {records : List (RecordKey × String)} {s t : Emission} {layouts},
      (src.layOutAll records).run s = (.ok layouts, t) →
      src.recordNames records s = layouts.map TransferLayout.name := by
    intro records s t layouts hl
    obtain ⟨results, _, hr, hl⟩ := Act.run_bind_eq_ok hl
    cases hl
    exact recordNames_of_run hr
  have hn' : (src.layOutAll table.records).run s = (.ok named, t) := hna
  simp only [emittedNames, tableNames, hc, hn', hn hn', hn ho, List.map_append]

theorem tableNames_again (hP : src.program.TypedIn P) (hs : s.Ready P)
    (hQ : ((src.layOutTable table).run s).2.types.Extends Q) :
    src.tableNames table (s.withTypes Q) = src.tableNames table s := by
  have ha : ∀ (records : List (RecordKey × String)) (s : Emission),
      ((records.mapM fun r => src.layOut r.1 r.2).run s).2.types.Extends
        ((src.layOutAll records).run s).2.types :=
    fun _ _ => extends_bind fun _ _ _ => repeats_pure _
  have hn : Repeats (src.layOutAll table.records) s := repeats_layOutAll hP.pool hs _
  have hf : ((src.layOutAll table.records).run s).2.types.Extends Q :=
    (extends_bind fun named _ ht => repeats_others hP (ready_named hP hs ht) named).trans hQ
  unfold tableNames
  rw [recordNames_again hP.pool hs ((ha _ s).trans hf), hn.2 Q hf]
  congr 1
  rcases hx : (src.layOutAll table.records).run s with ⟨_ | named, t⟩
  · rfl
  · have ht : t.Ready P := ready_named hP hs hx
    have ho : ((src.layOutAll (table.others t)).run t).2.types.Extends Q := by
      rw [layOutTable, Act.run_bind, hx] at hQ
      exact (extends_bind fun _ _ _ => repeats_pure _).trans hQ
    have hty : t.types.Extends Q := by simpa only [hx] using hf
    show src.recordNames (table.others (t.withTypes Q)) (t.withTypes Q) = _
    rw [others_eq hP ht hty]
    exact recordNames_again hP.pool ht ((ha _ t).trans ho)

theorem emittedNames_again (hP : src.program.TypedIn P) (hf : src.func ∈ src.program.functions)
    (hQ : ((src.emitTable tree table).run (start src P table.scopes)).2.types.Extends Q) :
    src.emittedNames tree table Q = src.emittedNames tree table P := by
  have hr := sat_copyAll_ready hP hf tree table.scopes
  have hc : ((src.copyAll tree).run (start src P table.scopes)).2.types.Extends Q :=
    (extends_bind fun _ _ hs => repeats_layOutTable hP (hr.of_run hs)).trans hQ
  unfold emittedNames
  rw [show start src Q table.scopes = (start src P table.scopes).withTypes Q from rfl,
    (repeats_copyAll hP hf tree table.scopes).2 Q hc]
  congr 1
  rcases hs : (src.copyAll tree).run (start src P table.scopes) with ⟨_ | u, s⟩
  · rfl
  · rw [emitTable, Act.run_bind, hs] at hQ
    exact tableNames_again hP (hr.of_run hs) hQ

end Source

theorem Classifier.sinkNames_of_run {c : Classifier} {table : ScopeTable} {sinks : List SinkResult}
    {state : State}
    (h : (c.classifyTable table (pure ())).run c.initial = (.ok ((), sinks), state)) :
    c.sinkNames table = table.sinks.map Endpoint.name := by
  obtain ⟨_, s, hr, h⟩ := Act.run_bind_eq_ok h
  obtain ⟨_, _, hn, h⟩ := Act.run_bind_eq_ok h
  cases hn
  obtain ⟨_, _, hs, -⟩ := Act.run_bind_eq_ok h
  have ha := Act.reached_of_run hs
  simp only [sinkNames, hr, ha]

section Runs

variable {p : Program} {types : TypePool} {f : Function} {table : ScopeTable} {strategy : Strategy}

theorem split_eq_splitRun : split p types f table strategy =
    (splitRun p types f table strategy).answer.map
      fun out => (out, (splitRun p types f table strategy).types) := by
  cases hv : table.validate with
  | error e => simp [split, splitWith, splitRun, openSplit, hv, Except.map]
  | ok u =>
    cases ht : PostDominators.ofFunction f with
    | error e =>
      simp [split_eq_error_of_tree hv ht, splitRun, openSplit, hv, ht, Except.map]
    | ok tree =>
      cases hb : f.branchesInRange with
      | false =>
        simp [split_eq_error_of_branches hv ht hb, splitRun, openSplit, hv, ht,
          Classifier.ofFunction, Function.controlDependence, hb, Except.map]
      | true =>
        have ho : openSplit p f table strategy = .ok (tree, classifierOf p f strategy tree) := by
          simp only [openSplit, hv, ht, Classifier.ofFunction_eq hb, ok_bind]
          rfl
        rw [split_eq_match hv ht hb]
        unfold splitRun
        rw [ho]
        simp only
        rcases ((classifierOf p f strategy tree).classifyTable table (pure ())).run
          (classifierOf p f strategy tree).initial with ⟨_ | ⟨_, sinks⟩, state⟩
        · rfl
        · simp only [Source.emitRun]
          rcases (Source.emitTable ⟨p, f, state.table⟩ tree table).run
            (Emission.start ⟨p, f, state.table⟩ types table.scopes) with ⟨_ | transfers, final⟩ <;> rfl

theorem Source.emitRun_again (src : Source) (hp : src.program.TypedIn types)
    (hf : src.func ∈ src.program.functions) (tree : PostDominators) (table : ScopeTable)
    (problems : List Problem) (sinks : List SinkResult) :
    src.emitRun tree table (src.emitRun tree table types problems sinks).types problems sinks
      = src.emitRun tree table types problems sinks := by
  have hru := (repeats_emitTable hp hf tree table table.scopes).2 _ (.refl _)
  have hn := emittedNames_again hp hf (.refl ((src.emitTable tree table).run
    (Emission.start src types table.scopes)).2.types)
  unfold emitRun
  rcases hr : (src.emitTable tree table).run (Emission.start src types table.scopes) with
    ⟨emitted, final⟩
  rw [hr] at hru hn
  have hru : (src.emitTable tree table).run (Emission.start src final.types table.scopes)
    = (emitted, final) := hru
  simp only [hru, hn]

theorem splitRun_again (hp : p.TypedIn types) (hf : f ∈ p.functions) (table : ScopeTable)
    (strategy : Strategy) :
    splitRun p (splitRun p types f table strategy).types f table strategy
      = splitRun p types f table strategy := by
  cases ho : openSplit p f table strategy with
  | error e => simp only [splitRun, ho]
  | ok opened =>
    obtain ⟨tree, c⟩ := opened
    rcases hc : (c.classifyTable table (pure ())).run c.initial with ⟨_ | ⟨u, sinks⟩, state⟩
    · simp only [splitRun, ho, hc]
    · let src : Source := ⟨p, f, state.table⟩
      have hr := src.emitRun_again hp hf tree table state.problems sinks
      simp only [splitRun, ho, hc, src, hr]

end Runs

section Workspaces

variable {w : Workspace} {p : Program} {f : Function} {table : ScopeTable} {strategy : Strategy}

theorem splitRun_names {types : TypePool} {out : SplitOutput}
    (h : (splitRun p types f table strategy).answer = .ok out) :
    (splitRun p types f table strategy).names = table.sinks.map Endpoint.name
      ++ (table.scopes.map fun name => p.name ++ "." ++ name)
      ++ out.transfers.map TransferLayout.name := by
  unfold splitRun at h ⊢
  cases ho : openSplit p f table strategy with
  | error e =>
    rw [ho] at h
    cases h
  | ok opened =>
    obtain ⟨tree, c⟩ := opened
    simp only [ho] at h ⊢
    rcases hc : (c.classifyTable table (pure ())).run c.initial with ⟨_ | ⟨u, sinks⟩, state⟩
    · rw [hc] at h
      cases h
    · simp only [hc, Source.emitRun] at h ⊢
      rcases he : (Source.emitTable ⟨p, f, state.table⟩ tree table).run
        (Emission.start ⟨p, f, state.table⟩ types table.scopes) with ⟨_ | transfers, final⟩
      · rw [he] at h
        cases h
      · rw [he] at h
        cases h
        rw [Classifier.sinkNames_of_run hc, Source.emittedNames_of_run he, List.append_assoc]

/-- Splitting again changes nothing. A split in a workspace is the split with its types. A second one,
in the workspace that the first has left behind, comes to the same output and numbers, or fails in the
same way, and leaves the workspace as it is. The numbers of a split that succeeds are those of the
names of the sinks, the parts and the records. -/
theorem split_again (hp : p.TypedIn w.types) (hf : f ∈ p.functions) :
    let first := (Workspace.split p f table strategy).run w
    split p w.types f table strategy = (first.1.map fun answer => (answer.1, first.2.types)) ∧
    split p first.2.types f table strategy = split p w.types f table strategy ∧
    (Workspace.split p f table strategy).run first.2 = first ∧
    ∀ out numbers, first.1 = .ok (out, numbers) → numbers.map some =
      (table.sinks.map Endpoint.name ++ (table.scopes.map fun name => p.name ++ "." ++ name)
        ++ out.transfers.map TransferLayout.name).map first.2.names.find? := by
  have hrun := splitRun_again hp hf table strategy
  have hfind := w.names.internEach_eq_find? (splitRun p w.types f table strategy).names
  have hagain := Interner.internEach_again (t := w.names)
    (splitRun p w.types f table strategy).names (List.prefix_refl _)
  refine ⟨?_, ?_, ?_, fun out numbers hout => ?_⟩
  · rw [split_eq_splitRun]
    show _ = Except.map _ (Except.map _ _)
    cases (splitRun p w.types f table strategy).answer <;> rfl
  · show split p (splitRun p w.types f table strategy).types f table strategy = _
    rw [split_eq_splitRun, split_eq_splitRun, hrun]
  · show Workspace.split p f table strategy ⟨(splitRun p w.types f table strategy).types, _⟩ = _
    simp only [Workspace.split, hrun, hagain]
    rfl
  · replace hout : Except.map _ (splitRun p w.types f table strategy).answer = _ := hout
    cases hanswer : (splitRun p w.types f table strategy).answer with
    | error e =>
      rw [hanswer] at hout
      cases hout
    | ok out' =>
      rw [hanswer] at hout
      cases hout
      rw [← splitRun_names hanswer]
      exact hfind

/-- The first of two splits adds the types of two records and the names of all that it makes; the
second adds nothing. -/
theorem split_again_crossing :
    let split := Workspace.split (crossingProgram .float) (crossing .float) crossingTable .plain
    let w : Workspace := ⟨crossingTypes, .empty⟩
    crossingTable.validate = .ok () ∧ (split.run w).1.isOk = true ∧
    w.types.size < (split.run w).2.types.size ∧ w.names.size < (split.run w).2.names.size ∧
    split.run (split.run w).2 = split.run w := by
  refine ⟨by decide, by decide +kernel, by decide +kernel, by decide +kernel, ?_⟩
  exact (split_again ⟨by decide +kernel, by decide +kernel, by decide +kernel⟩
    (List.mem_singleton_self _)).2.2.1

end Workspaces

end Stagewise
