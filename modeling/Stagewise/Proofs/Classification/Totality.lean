import Stagewise.Proofs.Classification.ClosedForm
import Stagewise.Proofs.Emission.Reporting

namespace Stagewise

open Relation

namespace ScopeTable

def declarations (t : ScopeTable) : List Request :=
  t.roots.map fun e => .rootNamed e.name e.scope e.flags

theorem isRoot_declarations (t : ScopeTable) : ∀ r ∈ t.declarations, r.isRoot = true := by
  intro r hr
  obtain ⟨e, -, rfl⟩ := List.mem_map.mp hr
  rfl

def demands (t : ScopeTable) : List Request := t.sinks.map fun e => .sink e.name e.scope e.flags

end ScopeTable

def Problem.OfClassifying : Problem → Prop
  | .sinkNotFound _ => True
  | .indirectCall _ => True
  | .unsupportedAddress _ => True
  | _ => False

namespace Classifier

variable {c : Classifier} {t : Classification} {n m : Node} {i : InstId} {x : Scope}
  {roots : GlobalId → Option Scope} {B : Node → Scope → Prop} {W : InstId → Scope → Prop}
  {requests : List Request}

section Requests

variable {s : State} {table : ScopeTable} {flags : UsageFlags} {name : String} {scope : Scope}

theorem sat_of_ends {α : Type} {a : Act State α} {P : State → Prop}
    (h : Act.Ends a s fun r t => Intact r → P t) : Act.Sat Act.Any a s fun _ t => P t := by
  rw [Act.sat_any_iff]
  intro r t hr
  unfold Act.Ends at h
  rw [hr] at h
  exact h (by simp [Intact])

theorem sat_declareRootNamed_responds :
    Act.Sat Act.Any (c.declareRootNamed name scope flags) s fun _ s' =>
      c.Responds (.rootNamed name scope flags) ⟨s, []⟩ ⟨s', []⟩ := by
  unfold declareRootNamed
  cases hg : c.program.globalNamed? name with
  | none => exact .rootUnknown hg
  | some g =>
    refine (sat_of_ends ends_declareRoot).mono fun _ s' hs' => ?_
    obtain ⟨hlt, rfl⟩ := hs'
    exact .rootNamed hg hlt

theorem sat_classifySink_responds :
    Act.Sat Act.Any (c.classifySink name scope flags) s fun _ s' =>
      c.Responds (.sink name scope flags) ⟨s, []⟩ ⟨s', []⟩ := by
  refine (sat_of_ends ends_classifySink).mono fun _ s' hs' => ?_
  rcases hs' with ⟨hn, rfl⟩ | ⟨s1, hp, rfl⟩
  · exact .sinkUnknown hn
  · exact .sink hp

theorem sat_roots_responds (entries : List Endpoint) :
    Act.Sat Act.Any (entries.forM fun e => c.declareRootNamed e.name e.scope e.flags) s fun _ s' =>
      c.Responses (entries.map fun e => .rootNamed e.name e.scope e.flags) ⟨s, []⟩ ⟨s', []⟩ := by
  induction entries generalizing s with
  | nil => exact .nil
  | cons e entries ih =>
    show Act.Sat Act.Any (c.declareRootNamed e.name e.scope e.flags >>= fun _ =>
      entries.forM fun e => c.declareRootNamed e.name e.scope e.flags) s _
    rw [Act.sat_bind]
    exact sat_declareRootNamed_responds.mono fun _ _ hr => ih.mono fun _ _ hre => .cons hr hre

theorem sat_sinks_responds (entries : List Endpoint) :
    Act.Sat Act.Any (c.classifySinks entries) s fun _ s' =>
      c.Responses (entries.map fun e => .sink e.name e.scope e.flags) ⟨s, []⟩ ⟨s', []⟩ := by
  unfold classifySinks
  induction entries generalizing s with
  | nil => exact .nil
  | cons e entries ih =>
    simp only [List.mapM_cons, Act.sat_bind, Act.sat_pure]
    exact sat_classifySink_responds.mono fun _ _ hr => ih.mono fun _ _ hre => .cons hr hre

theorem sat_classifyTable_responds :
    Act.Sat Act.Any (c.classifyTable table (pure ())) s fun _ s' =>
      ∃ s1, c.Responses table.declarations ⟨s, []⟩ ⟨s1, []⟩ ∧
        c.Responses table.demands ⟨s1, []⟩ ⟨s', []⟩ := by
  unfold classifyTable
  simp only [Act.sat_bind, Act.sat_pure]
  exact (sat_roots_responds _).mono fun _ s1 hr =>
    (sat_sinks_responds _).mono fun _ _ hs => ⟨s1, hr, hs⟩

end Requests

section Problems

theorem ofClassifying_of_trouble? {p : Problem} (h : c.trouble? i = some p) : p.OfClassifying := by
  unfold trouble? at h
  cases hi : c.func.insts[i]? with
  | none => simp [hi] at h
  | some inst =>
    simp only [hi, Option.bind_some] at h
    split at h <;> cases h <;> trivial

theorem propagate_problems {s s' : State} {work : List Work} (h : c.propagate work s = .ok s') :
    ∀ p ∈ s'.problems, p ∈ s.problems ∨ p.OfClassifying := by
  refine propagate_keeps (P := fun u => ∀ p ∈ u.problems, p ∈ s.problems ∨ p.OfClassifying)
    (fun u w work u' hu hv => ?_) (fun _ => .inl) h
  rcases problems_of_visit hv with heq | ⟨i, p, hp, heq⟩ <;> rw [heq]
  · exact hu
  · intro q hq
    rcases Problem.mem_note.mp hq with hq | rfl
    · exact hu q hq
    · exact .inr (ofClassifying_of_trouble? hp)

theorem Responses.problems {s s' : Session} (h : c.Responses requests s s') :
    ∀ p ∈ s'.state.problems, p ∈ s.state.problems ∨ p.OfClassifying := by
  induction h with
  | nil => exact fun _ => .inl
  | cons hr _ ih =>
    intro p hp
    rcases ih p hp with hp | hp
    · cases hr with
      | root _ | rootNamed _ _ | rootUnknown _ => exact .inl hp
      | sink hpr => exact propagate_problems hpr p hp
      | sinkUnknown _ =>
        rcases List.mem_append.mp hp with hp | hp
        · exact .inl hp
        · rw [List.mem_singleton.mp hp]
          exact .inr trivial
      | value hpr | block hpr => exact propagate_problems hpr p hp
      | snapshot => exact .inl hp
      | restore _ => exact .inl (List.mem_of_mem_take hp)
      | scopeOf => exact .inl hp
    · exact .inr hp

end Problems

/-- What the requests lead to: from a write of a sink to what it reads and, where it is conditional,
to its block, and from any other node to all that it is placed by and to the branches that decide
about it. -/
inductive Reaches (c : Classifier) (requests : List Request) : Node → Prop
  | asked {r : Request} {n : Node} : r ∈ requests → c.Asks r n → Reaches c requests n
  | lead {n m : Node} : Reaches c requests n → (∀ i x, n = .inst i → ¬c.Writes requests i x) →
      m ∈ c.leads n → Reaches c requests m

/-- A node, or one that it depends on, has a scope of its own: that of its declaration for a binding,
the first for a call of a declared function, and the required one for a write. -/
def Grounded (c : Classifier) (declarations requests : List Request) (n : Node) : Prop :=
  ∃ m x, ReflTransGen c.DependsOn n m ∧
    c.Origin (Request.rootScope c.program declarations) (c.Writes requests) m x

theorem Charted.isUsed_of_reaches (h : c.Charted B roots (c.Writes requests) t)
    (ha : ∀ n, (∃ r ∈ requests, c.Asks r n) → (t.info n).isUsed = true)
    (hn : c.Reaches requests n) : (t.info n).isUsed = true := by
  induction hn with
  | asked hr hask => exact ha _ ⟨_, hr, hask⟩
  | @lead n m _ hf hm ih =>
    refine (h.flowing.leads n ih ?_ m hm).isUsed
    cases n with
    | inst i =>
      by_contra hp
      obtain ⟨x, -, hW⟩ := h.pinned i (by simpa [Classification.fixes] using hp)
      exact hf i x rfl hW
    | global _ | block _ | terminator _ => rfl

/-- A used node that depends on an origin of placements is placed. -/
theorem Charted.isSome_of_origin (hpl : c.strategy = .plain) (h : c.Charted B roots W t)
    (hp : ∀ i x, W i x → t.isPinned i = true) (hu : (t.info n).isUsed = true)
    (hpa : ReflTransGen c.DependsOn n m) (ho : c.Origin roots W m x) :
    (t.info n).scope.isSome = true := by
  have hr : ∀ {s : Option Scope} {y : Scope}, Scope.rank (some y) ≤ Scope.rank s →
      s.isSome = true := by
    rintro (_ | _) y hle
    · simp [Scope.rank] at hle
    · rfl
  have hfi : ∀ {n}, t.fixes n = true → (t.info n).scope.isSome = true := by
    intro n hn
    cases n with
    | inst i =>
      obtain ⟨y, hy, -⟩ := h.pinned i hn
      exact Option.isSome_iff_exists.mpr ⟨y, hy⟩
    | global _ | block _ | terminator _ => cases hn
  induction hpa using ReflTransGen.head_induction_on with
  | refl =>
    rcases ho with hb | ⟨i, rfl, hW⟩
    · cases hb with
      | @root g x hro => exact Option.isSome_iff_exists.mpr ⟨x, (h.roots g).trans hro⟩
      | @call i inst callee args hi hop =>
        by_cases hf : t.isPinned i = true
        · exact hfi (n := .inst i) hf
        · exact hr (h.flowing.call hpl h.settled hi hop hu (by simpa using hf))
    · exact hfi (n := .inst i) (hp i x hW)
  | @head n k hd _ ih =>
    by_cases hf : t.fixes n = true
    · exact hfi hf
    · obtain ⟨hu', hle⟩ := h.flowing.dependsOn h.settled hu (by simpa using hf) hd
      obtain ⟨y, hy⟩ := Option.isSome_iff_exists.mp (ih hu')
      rw [hy] at hle
      exact hr hle

theorem Responses.isPinned {s s' : Session} (hc : c.PlacesBy B W)
    (h : c.Responses requests s s') (hse : ∀ r ∈ requests, r.isSeed = true)
    (hW : ∀ i x, c.Writes requests i x → W i x) (hs : c.Charted B roots W s.state.table)
    (hi : s.state.table.isPinned i = true ∨ c.Writes requests i x) :
    s'.state.table.isPinned i = true := by
  induction h with
  | nil =>
    rcases hi with hi | ⟨name, flags, hm, -⟩
    · exact hi
    · cases hm
  | @cons r rest a b d hr _ ih =>
    have hch := (hr.charted hc (hse _ (by simp))
      (fun i x ⟨name, flags, hm, hsi⟩ => hW i x ⟨name, flags, by simp_all, hsi⟩) hs).1
    refine ih (fun r hr => hse r (by simp [hr]))
      (fun i x ⟨name, flags, hm, hsi⟩ => hW i x ⟨name, flags, by simp [hm], hsi⟩) hch ?_
    have hp := fun hi => hr.isPinned (i := i) (x := x) (hse r (by simp)) hs.fits hi
    rcases hi with hi | ⟨name, flags, hm, hsi⟩
    · exact .inl (hp (.inl hi))
    · rcases List.mem_cons.mp hm with heq | hm
      · exact .inl (hp (.inr ⟨name, flags, by simp [heq], hsi⟩))
      · exact .inr ⟨name, flags, hm, hsi⟩

end Classifier

theorem Source.Refuses.instScope_eq_none {src : Source} {scope : Scope} {v : Value} {i : InstId}
    (h : src.Refuses scope v (.undefinedValue i)) : src.table.instScope i = none := by
  cases h with
  | undefined hn => exact hn

theorem Source.Explains.instScope_eq_none {src : Source} {tree : PostDominators} {i : InstId}
    (h : src.Explains tree (.undefinedValue i)) : src.table.instScope i = none := by
  cases h with
  | inst _ _ hi =>
    cases hi with
    | operand _ _ hr => exact hr.instScope_eq_none
  | branch _ _ hr => exact hr.instScope_eq_none

/-- A value that the writes of the sinks lead to is placed just if it is grounded, and one that is
grounded is never reported as undefined. -/
theorem instScope_isSome_iff_grounded {p : Program} {types types' : TypePool} {f : Function}
    {table : ScopeTable} {out : SplitOutput} {tree : PostDominators}
    (hsplit : split p types f table .plain = .ok (out, types'))
    (htree : PostDominators.ofFunction f = .ok tree)
    (hflags : ∀ e ∈ table.sinks, e.flags.isEmpty = false) {i : InstId}
    (hi : (classifierOf p f .plain tree).Reaches table.demands (.inst i)) :
    ((out.classification.instScope i).isSome = true ↔
        (classifierOf p f .plain tree).Grounded table.declarations table.demands (.inst i)) ∧
      ((classifierOf p f .plain tree).Grounded table.declarations table.demands (.inst i) →
        .undefinedValue i ∉ out.problems) := by
  obtain ⟨tree', state, sinks, transfers, final, hsplits, rfl, -⟩ := exists_splits_of_split_eq hsplit
  obtain rfl : tree' = tree := Except.ok.inj (hsplits.tree_eq.symm.trans htree)
  obtain ⟨s₁, hroots, hsinks⟩ :=
    Classifier.sat_classifyTable_responds.of_run hsplits.classified
  have hisRoot : ∀ r ∈ table.declarations, r.isRoot = true := by
    intro r hr
    obtain ⟨e, -, rfl⟩ := List.mem_map.mp hr
    rfl
  have hisSeed : ∀ r ∈ table.demands, r.isSeed = true := by
    intro r hr
    obtain ⟨e, he, rfl⟩ := List.mem_map.mp hr
    simp [Request.isSeed, hflags e he]
  have hdeclared := Classifier.charted_of_declares
    (W := (classifierOf p f .plain tree').Writes table.demands) hroots hisRoot
    fun _ _ => Classifier.Brings.root (c := classifierOf p f .plain tree')
  obtain ⟨hcharted, hasked⟩ := hsinks.charted (Classifier.placesBy_plain rfl) hisSeed
    (fun _ _ h => h) hdeclared
  have hpinned := fun i x hW => hsinks.isPinned (i := i) (x := x) (Classifier.placesBy_plain rfl)
    hisSeed (fun _ _ h => h) hdeclared (.inr hW)
  have hused := hcharted.isUsed_of_reaches (fun n hn => hasked n (.inr hn)) hi
  have hscope : state.table.instScope i = (state.table.info (.inst i)).scope :=
    ValueInfo.usedScope_of_isUsed hused
  have hplaced : (state.table.instScope i).isSome = true ↔
      (classifierOf p f .plain tree').Grounded table.declarations table.demands (.inst i) := by
    rw [hscope]
    constructor
    · intro hsome
      obtain ⟨x, hx⟩ := Option.isSome_iff_exists.mp hsome
      obtain ⟨m, hpath, horigin⟩ := hcharted.founded (.inst i) x hx
      exact ⟨m, x, hpath, horigin⟩
    · rintro ⟨m, x, hpath, horigin⟩
      exact hcharted.isSome_of_origin rfl hpinned hused hpath horigin
  refine ⟨hplaced, fun hgrounded hmem => ?_⟩
  -- only copying reports undefined values, and only of instructions without a scope
  have hnone : state.table.instScope i = none := by
    rcases List.mem_append.mp hmem with hmem | hmem
    · have hclassified := (hroots.append hsinks).problems _ hmem
      simp [Problem.OfClassifying, Classifier.initial] at hclassified
    · rcases (Source.reports_emitTable tree' table _).of_run hsplits.emitted _ hmem with hmem | hwhy
      · simp [Emission.start] at hmem
      · exact hwhy.instScope_eq_none
  have hsome := hplaced.mpr hgrounded
  rw [hnone] at hsome
  cases hsome

def chosenTable : ScopeTable where
  scopes := ["early", "middle", "late"]
  roots := [⟨"a", .ofNat 1, .empty⟩, ⟨"b", .ofNat 0, .empty⟩]
  sinks := [⟨"out", .ofNat 2, .ofNat 1⟩]
  transfers := []

theorem grounded_chosenValue : ∃ out types',
    split chosenClassifier.program .empty chosenValue chosenTable .plain = .ok (out, types') ∧
    ((out.classification.instScope 2).isSome = true ↔
      chosenClassifier.Grounded chosenTable.declarations chosenTable.demands (.inst 2)) ∧
    (chosenClassifier.Grounded chosenTable.declarations chosenTable.demands (.inst 2) →
      .undefinedValue 2 ∉ out.problems) := by
  have htree : PostDominators.ofFunction chosenValue = .ok chosenClassifier.postDominators := by
    decide +kernel
  have hsites : chosenClassifier.sinkSites "out" = [⟨3, 3, .inst 2, [.inst 2], false⟩] := by
    decide +kernel
  have hreaches : chosenClassifier.Reaches chosenTable.demands (.inst 2) :=
    .asked (List.mem_singleton.mpr rfl) ⟨_, by rw [hsites]; exact List.mem_singleton.mpr rfl,
      .inr ⟨_, List.mem_singleton.mpr rfl, rfl⟩⟩
  have hok : (split chosenClassifier.program .empty chosenValue chosenTable .plain).isOk = true := by
    decide +kernel
  obtain ⟨answer, hsplit⟩ := exists_ok_of_isOk hok
  exact ⟨answer.1, answer.2, hsplit, instScope_isSome_iff_grounded hsplit htree (by decide) hreaches⟩

def constantSum : Function where
  name := "main"
  entry := 0
  blocks := #[⟨[0, 1], some .ret⟩]
  insts := #[⟨.binary .add (.const (.int .int 1)) (.const (.int .int 2)), .int, 0⟩,
    ⟨.store (.inst 0) (.member 0 []), .void, 0⟩]
  layout := [0]

def constantProgram : Program := ⟨"constant", [.plain "out" .int], [], [constantSum]⟩

def constantTable : ScopeTable where
  scopes := ["only"]
  roots := []
  sinks := [⟨"out", .ofNat 0, .ofNat 1⟩]
  transfers := []

/-- What is computed from constants alone is not placed, although a write of a sink reads it. -/
theorem undefinedValue_constantSum : ∃ out types',
    constantTable.validate = .ok () ∧
    split constantProgram .empty constantSum constantTable .plain = .ok (out, types') ∧
    (∃ tree, PostDominators.ofFunction constantSum = .ok tree ∧
      (classifierOf constantProgram constantSum .plain tree).Reaches constantTable.demands (.inst 0)) ∧
    out.classification.instScope 0 = none ∧ .undefinedValue 0 ∈ out.problems := by
  have hsplit : ((split constantProgram .empty constantSum constantTable .plain).toOption.any
      fun answer => decide (answer.1.classification.instScope 0 = none ∧
        .undefinedValue 0 ∈ answer.1.problems)) = true := by decide +kernel
  obtain ⟨⟨out, types'⟩, hout, hanswer⟩ := exists_ok_of_any hsplit
  obtain ⟨hnone, hmem⟩ := of_decide_eq_true hanswer
  have htree : PostDominators.ofFunction constantSum = .ok ⟨#[some 1, some 1], #[1, 0]⟩ := by
    decide +kernel
  have hsites : (classifierOf constantProgram constantSum .plain
      ⟨#[some 1, some 1], #[1, 0]⟩).sinkSites "out" = [⟨1, 0, .inst 0, [.inst 0], false⟩] := by
    decide +kernel
  exact ⟨out, types', by decide, hout, ⟨_, htree, .asked (List.mem_singleton.mpr rfl) ⟨_,
    by rw [hsites]; exact List.mem_singleton.mpr rfl, .inr ⟨_, List.mem_singleton.mpr rfl, rfl⟩⟩⟩,
    hnone, hmem⟩

end Stagewise
