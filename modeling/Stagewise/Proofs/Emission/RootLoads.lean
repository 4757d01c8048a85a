import Stagewise.Proofs.Classification.Ordering
import Stagewise.Proofs.Emission.Records

namespace Stagewise

namespace Source

def AtHome (src : Source) (x : Scope) (g : GlobalId) : Prop :=
  ∀ owner, (src.table.global g).scope = some owner → owner = x

def LoadsAfter (src : Source) : Prop :=
  ∀ (i : InstId) (inst : Inst) addr g x owner, src.func.insts[i]? = some inst →
    inst.op = .load addr → addr.global? = some g → src.table.instScope i = some x →
    (src.table.global g).scope = some owner → src.table.globalScope g = some owner ∧ owner ≤ x

variable {src : Source} {x : Scope} {i : InstId} {inst : Inst} {addr : Address} {g : GlobalId}

theorem LoadsAfter.atHome (h : src.LoadsAfter) (hi : src.func.insts[i]? = some inst)
    (hop : inst.op = .load addr) (hg : addr.global? = some g) (hx : src.table.instScope i = some x)
    (hs : Emission.StaysIn src x inst.op) : src.AtHome x g := by
  intro owner ho
  obtain ⟨hu, hle⟩ := h i inst addr g x owner hi hop hg hx ho
  exact le_antisymm hle (not_lt.mp (hs addr g owner hop hg hu))

theorem atHome_of_globalScope (h : src.table.globalScope g = some x) : src.AtHome x g :=
  fun _ ho => Option.mem_unique ho (Classification.usedScope_eq_some h)

end Source

namespace Draft

variable {src : Source} {x : Scope} {d d' : Draft} {op : Operation} {g : GlobalId}

def LoadsHome (src : Source) (x : Scope) (d : Draft) (op : Operation) : Prop :=
  ∀ addr copy, op = .load addr → addr.global? = some copy →
    ∃ g, src.AtHome x g ∧ d.Redeclares src g copy

theorem loadsHome_of_not_load (h : ∀ addr, op ≠ .load addr) : d.LoadsHome src x op :=
  fun addr _ hop => absurd hop (h addr)

theorem loadsHome_pending : d.LoadsHome src x (.load .pending) := by
  rintro _ copy ⟨⟩ hg
  cases hg

theorem LoadsHome.of_grown (h : d.LoadsHome src x op)
    (hb : d.program.globals <+: d'.program.globals) : d'.LoadsHome src x op := by
  intro addr copy hop hg
  obtain ⟨g, hh, hr⟩ := h addr copy hop hg
  exact ⟨g, hh, hr.of_grown hb⟩

theorem Wires.loads {L : TransferLayout → Prop} {F : Nat → Prop} {addr : Address} {copy : GlobalId}
    (h : d.Wires src L F x (.load addr)) (hg : addr.global? = some copy) :
    (∃ g, src.AtHome x g ∧ d.Redeclares src g copy) ∨ ∃ l, L l ∧ d.Calls copy l.name := by
  rcases h.address rfl hg with ⟨g, hs, hr⟩ | ⟨l, k, ho, -⟩
  · exact .inl ⟨g, Source.atHome_of_globalScope hs, hr⟩
  · exact .inr ⟨l, ho.layout, ho.calls⟩

structure Homely (src : Source) (x : Scope) (d : Draft) : Prop where
  globals : ∀ y ∈ d.globals, d.Redeclares src y.1 y.2
  loads : ∀ (e : InstId) (inst : Inst), d.builder.func.insts[e]? = some inst →
    d.LoadsHome src x inst.op

theorem homely_empty (y : Scope) (name func : String) :
    (Draft.empty y name func).Homely src x :=
  ⟨by simp [empty], by simp [empty, Builder.empty, Function.empty]⟩

section

variable (h : d.Homely src x)
include h

theorem Homely.of_insts_eq (hi : d'.builder.func.insts = d.builder.func.insts)
    (hb : d.program.globals <+: d'.program.globals)
    (hg : ∀ y ∈ d'.globals, y ∈ d.globals ∨ d'.Redeclares src y.1 y.2) : d'.Homely src x := by
  refine ⟨fun y hy => ?_, fun e inst he => ?_⟩
  · exact (hg y hy).elim (fun ho => (h.globals y ho).of_grown hb) id
  · exact (h.loads e inst (hi ▸ he)).of_grown hb

theorem Homely.declareGlobal {decl : GlobalDecl} (hd : src.program.globals[g]? = some decl) :
    (d.declareGlobal g decl).2.Homely src x := by
  refine h.of_insts_eq rfl (d.program.globals_getOrAddGlobal decl) fun y hy => ?_
  rcases List.mem_cons.mp hy with rfl | hy
  · exact .inr ⟨decl, hd, d.program.getOrAddGlobal_name decl⟩
  · exact .inl hy

theorem Homely.insertAt (block : BlockId) (pos : Nat) (ty : TypeId) (hop : d.LoadsHome src x op) :
    Homely src x { d with builder := { d.builder with
      func := (d.builder.func.insertAt block pos ty op).2 } } := by
  refine ⟨h.globals, fun e inst he => ?_⟩
  rcases Function.insertAt_getElem?_cases he with ho | ⟨-, rfl⟩
  · exact h.loads e inst ho
  · exact hop

theorem Homely.append (block : BlockId) (ty : TypeId) (hop : d.LoadsHome src x op) :
    (d.append block ty op).2.Homely src x :=
  h.insertAt block _ ty hop

theorem Homely.addCopy (i : InstId) (v : Value) : (d.addCopy i v).Homely src x :=
  ⟨h.globals, h.loads⟩

theorem Homely.openRead (i : InstId) (ty fieldTy : TypeId) (lanes : Option Nat) :
    (d.openRead i ty fieldTy lanes).2.Homely src x := by
  have hl : (d.append d.entry fieldTy (.load .pending)).2.Homely src x :=
    h.append _ _ loadsHome_pending
  have hr : ∀ {d : Draft} {j : InstId}, d.Homely src x →
      Homely src x { d with reads := (i, .inst j) :: d.reads } :=
    fun h => ⟨h.globals, h.loads⟩
  cases lanes with
  | none => exact hr hl
  | some n =>
    refine hr ((hl.append _ _ (loadsHome_of_not_load ?_)).append _ _
      (loadsHome_of_not_load ?_)) <;> simp

end

end Draft

namespace Emission

variable {src : Source} {s t : Emission} {scope : Scope} {d d' : Draft} {g copy : GlobalId}
  {allowed : Permit}

def Homely (src : Source) (s : Emission) : Prop := ∀ x, s.Meets x (·.Homely src x)

theorem homely_start (src : Source) (types : TypePool) (scopes : List String) :
    (start src types scopes).Homely src := by
  intro x d hd
  obtain ⟨name, rfl⟩ := getElem?_start hd
  exact Draft.homely_empty ..

theorem Homely.setDraft (h : s.Homely src) (hd : s.drafts[scope.val]? = some d)
    (hd' : d'.Homely src scope) : (s.setDraft scope d').Homely src := by
  intro x e he
  rcases setDraft_scope_cases hd he with ⟨rfl, rfl⟩ | ⟨-, he⟩
  · exact hd'
  · exact h x e he

theorem ReadStep.homely (hs : ReadStep src allowed s t) (h : s.Homely src) : t.Homely src := by
  cases hs with
  | report _ => exact h
  | declareGlobal hd _ hde => exact h.setDraft hd ((h _ _ hd).declareGlobal hde)
  | @declare _ _ decl d hd _ =>
    exact h.setDraft hd ((h _ _ hd).of_insts_eq rfl
      (d.program.globals_declare decl ▸ List.prefix_rfl) fun y hy => .inl hy)
  | @openRead _ _ i inst d hd _ _ _ _ =>
    have ho := h.setDraft hd ((h _ d hd).openRead i inst.ty
      (Source.fieldType s.types inst) (Source.fieldLanes s.types inst))
    exact ho

theorem Reads.homely (hr : Reads src allowed s t) (h : s.Homely src) : t.Homely src := by
  induction hr with
  | refl => exact h
  | tail _ hs ih => exact hs.homely ih

theorem Denotes.redeclares (hg : Denotes src s scope (.global g) (.global copy))
    (hd : s.drafts[scope.val]? = some d) (h : s.Homely src) : d.Redeclares src g copy := by
  cases hg with
  | global hd' hc =>
    obtain rfl := Option.mem_unique hd hd'
    exact (h _ _ hd).globals (g, copy) (mem_of_lookup hc)

theorem Renders.exists_denotes_of_load {op : Operation} {addr' : Address}
    (hop : Renders src s scope op (.load addr')) (hg : addr'.global? = some copy) :
    ∃ addr g, op = .load addr ∧ addr.global? = some g ∧
      Denotes src s scope (.global g) (.global copy) := by
  generalize hl : (Operation.load addr') = op' at hop
  cases hop with
  | @plain op vs hp _ => cases op <;> simp_all [Operation.isPlain, Operation.withOperands]
  | load ha =>
    obtain rfl := Operation.load.inj hl
    cases ha with
    | member path hd | element hd _ =>
      obtain rfl := Option.some.inj hg
      exact ⟨_, _, rfl, rfl, hd⟩
  | _ => cases hl

theorem Copied.homely {pred : Option BlockId} {i : InstId} {inst : Inst}
    (hc : Copied src (.carrying src.Supplies) scope pred i inst s t) (ha : src.LoadsAfter)
    (hsc : src.table.instScope i = some scope) (hi : src.func.insts[i]? = some inst)
    (h : s.Homely src) : t.Homely src := by
  cases hc with
  | @emitted u d op hr hd hop _ hst =>
    have hu := hr.homely h
    refine hu.setDraft hd (((hu _ d hd).append _ _ fun addr' copy hl hg => ?_).addCopy _ _)
    rw [hl] at hop
    obtain ⟨addr, g, hs, hgl, hde⟩ := hop.exists_denotes_of_load hg
    exact ⟨g, ha.atHome hi hs hgl hsc hst, hde.redeclares hd hu⟩
  | known _ _ _ hr _ hd | missing _ _ _ hr _ hd | unsupported _ _ hr _ hd =>
    exact (hr.homely h).setDraft hd (((hr.homely h) _ _ hd).addCopy _ _)
  | @raised u w d e owner g copy path r _ ho _ hr he hg hr' hd _ =>
    -- the load goes to the part of the scope that its binding is declared in
    have hu := hr.homely h
    have hl : e.LoadsHome src owner (.load (.member copy path)) := by
      rintro _ _ ⟨⟩ ⟨⟩
      exact ⟨g, Source.atHome_of_globalScope ho, hg.redeclares he hu⟩
    have hw := hr'.homely (hu.setDraft he (((hu _ e he).append _ _ hl).addCopy _ _))
    exact hw.setDraft hd ((hw _ d hd).addCopy _ _)
  | @array u d owner g decl path index r len _ ho _ _ _ _ hr _ hd =>
    have hu := hr.homely h
    exact hu.setDraft hd
      (((hu _ d hd).append d.builder.current inst.ty Draft.loadsHome_pending).addCopy i
        (.inst (d.emit inst.ty (.load .pending)).1))
  | skipped _ hr => exact hr.homely h

theorem CopyStep.homely (hste : CopyStep src s t) (ha : src.LoadsAfter)
    (h : s.Homely src) : t.Homely src := by
  have hsa : ∀ {s : Emission} {scope : Scope} {d d' : Draft}, s.Homely src →
      s.drafts[scope.val]? = some d → d.SameCode d' → (s.setDraft scope d').Homely src :=
    fun hs hd hsa => hs.setDraft hd ((hs _ _ hd).of_insts_eq hsa.insts
      (hsa.program ▸ List.prefix_rfl) fun y hy => .inl (hsa.globals ▸ hy))
  cases hste with
  | read hr => exact hr.homely h
  | @inst _ scope pred i inst d hsc hi hd hc =>
    have hv : d.SameCode (d.noteVisit pred i) :=
      ⟨rfl, rfl, Nat.le_refl _, fun _ => rfl, rfl, rfl, rfl, rfl⟩
    exact hc.homely ha hsc hi (hsa h hd hv)
  | steer hd hst => exact hsa h hd hst.sameCode
  | @branch scope d site cond hd _ => exact hsa h hd (d.sameCode_openFork site cond)
  | fanout _ => exact h

theorem Copying.homely (hc : Copying src s t) (ha : src.LoadsAfter)
    (h : s.Homely src) : t.Homely src := by
  induction hc with
  | refl => exact h
  | tail _ hs ih => exact hs.homely ha ih

end Emission

theorem Source.sat_emitTable_loads {src : Source} (ha : src.LoadsAfter) (tree : PostDominators)
    (table : ScopeTable) (types : TypePool) :
    Act.Sat Act.Any (src.emitTable tree table) (Emission.start src types table.scopes)
      fun layouts t => ∀ x, t.Meets x fun d => ∀ (e : InstId) (inst : Inst) addr copy,
        d.builder.func.insts[e]? = some inst → inst.op = .load addr → addr.global? = some copy →
        (∃ g, src.AtHome x g ∧ d.Redeclares src g copy) ∨ ∃ l ∈ layouts, d.Calls copy l.name := by
  refine (sat_emitTable_edits tree table types).mono fun layouts t ⟨s, R, hc, hedi, _⟩ => ?_
  have hh := ((sat_copyAll_copying tree _).of_run hc).homely ha
    (Emission.homely_start src types table.scopes)
  intro x d' hd' e inst addr copy he hop hc
  obtain ⟨d, hd, hed⟩ := hedi.back hd'
  rcases hed.written e inst he with ⟨ho, -⟩ | hw
  · exact .inl (((hh x d hd).loads e inst ho).of_grown hed.bindings addr copy hop hc)
  · exact (hop ▸ hw).loads hc

variable {p : Program} {types : TypePool} {f : Function} {table : ScopeTable} {strategy : Strategy}

theorem Splits.loadsAfter {tree : PostDominators} {state : Classifier.State}
    {sinks : List SinkResult} {transfers : List TransferLayout} {final : Emission}
    (h : Splits p types f table strategy tree state sinks transfers final) :
    Source.LoadsAfter ⟨p, f, state.table⟩ := by
  intro i inst addr g x owner hi hop hg hx ho
  have hr := Classifier.ranked_classifyTable.of_run h.classified
  refine hr.load_le hi hop hg (hr.isPinned_eq_false ?_) hx ho
  rintro y ⟨name, flags, -, site, hs, rfl⟩
  exact (Classifier.op_ne_of_mem_sinkSites hs hi).1 addr hop

/-- A binding that is declared as a root is loaded by the part of its scope and by no other, if names
tell bindings, roots and records apart. -/
theorem root_loaded_in_scope {out : SplitOutput} {types' : TypePool}
    (h : split p types f table strategy = .ok (out, types'))
    (hbindings : (p.globals.map GlobalDecl.name).Nodup)
    (hroots : (table.roots.map Endpoint.name).Nodup)
    (hrecords : ∀ l ∈ out.transfers, ∀ decl ∈ p.globals, decl.name ≠ l.name)
    {root : Endpoint} (hroot : root ∈ table.roots)
    {decl : GlobalDecl} (hdecl : decl ∈ p.globals) (hname : decl.name = root.name)
    {x : Scope} {part : Partition} (hpart : out.partitions[x.val]? = some part)
    {fn : Function} (hfn : fn ∈ part.program.functions) {inst : Inst} (hinst : inst ∈ fn.insts)
    {addr : Address} (hop : inst.op = .load addr) {copy : GlobalId} (hcopy : addr.global? = some copy)
    {decl' : GlobalDecl} (hdecl' : part.program.globals[copy]? = some decl')
    (hsame : decl'.name = decl.name) : x = root.scope := by
  obtain ⟨tree, state, sinks, transfers, final, hs, rfl, rfl⟩ := exists_splits_of_split_eq h
  have hloads := (Source.sat_emitTable_loads hs.loadsAfter tree table types).of_run hs.emitted
  obtain ⟨d, hd, rfl⟩ : ∃ d, final.drafts[x.val]? = some d ∧ d.finish = part := by
    simpa [Emission.partitions] using hpart
  obtain rfl := Source.eq_finish_of_emitTable hs.emitted hd hfn
  obtain ⟨e, he⟩ := Array.mem_iff_getElem?.mp hinst
  have hcalls : ∀ {name}, d.Calls copy name → name = decl.name := by
    rintro name ⟨decl₁, hdecl₁, rfl⟩
    obtain rfl := Option.some.inj (hdecl₁.symm.trans hdecl')
    exact hsame
  rcases hloads x d hd e inst addr copy he hop hcopy with
    ⟨g, hhome, decl₀, hdecl₀, hcalled⟩ | ⟨l, hl, hcalled⟩
  · have hnamed : p.globalNamed? root.name = some g :=
      (Program.globalNamed?_eq_some_iff hbindings).mpr ⟨decl₀, hdecl₀, (hcalls hcalled).trans hname⟩
    have hscope := (Classifier.ranked_classifyTable.of_run hs.classified).roots g
    rw [show (classifierOf p f strategy tree).program = p from rfl,
      table.rootScope_declarations hroots hroot hnamed] at hscope
    exact (hhome root.scope hscope).symm
  · exact absurd (hcalls hcalled).symm (hrecords l hl decl hdecl)

/-- Of the two textures one is chosen by an index of the later stage; the earlier stage loads them. -/
theorem root_loaded_in_scope_crossing :
    ∃ out types', split (crossingProgram .float) crossingTypes (crossing .float) crossingTable .plain
        = .ok (out, types') ∧
      (∃ part, out.partitions[(0 : Scope).val]? = some part ∧ ∃ fn ∈ part.program.functions,
        ∃ inst ∈ fn.insts, ∃ copy path, inst.op = .load (.member copy path) ∧
          part.program.globals[copy]? = some (.plain "maps" 5)) ∧
      ∀ (x : Scope) part, out.partitions[x.val]? = some part → ∀ fn ∈ part.program.functions,
        ∀ inst ∈ fn.insts, ∀ addr copy decl, inst.op = .load addr → addr.global? = some copy →
          part.program.globals[copy]? = some decl → decl.name = "maps" → x = 0 := by
  have hcheck : (split (crossingProgram .float) crossingTypes (crossing .float) crossingTable
      .plain).toOption.any (fun answer => (answer.1.transfers.all fun l =>
        (crossingProgram .float).globals.all fun decl => decl.name != l.name) &&
        (answer.1.partitions[(0 : Scope).val]?).any fun part => part.program.functions.any fun fn =>
          fn.insts.any fun inst => inst.op == .load (.member 2 [0]) &&
            part.program.globals[2]? == some (.plain "maps" 5)) = true := by decide +kernel
  obtain ⟨answer, hsplit, hcheck⟩ := exists_ok_of_any hcheck
  obtain ⟨hrecords, hload⟩ := (Bool.and_eq_true _ _).mp hcheck
  refine ⟨answer.1, answer.2, hsplit, ?_, ?_⟩
  · obtain ⟨part, hpart, hload⟩ := (Option.any_eq_true _ _).mp hload
    obtain ⟨fn, hfn, hload⟩ := List.any_eq_true.mp hload
    obtain ⟨inst, hinst, hload⟩ := Array.any_eq_true'.mp hload
    obtain ⟨hop, hdecl⟩ := (Bool.and_eq_true _ _).mp hload
    exact ⟨part, hpart, fn, hfn, inst, hinst, 2, [0], by simpa using hop, by simpa using hdecl⟩
  · intro x part hpart fn hfn inst hinst addr copy decl hop hcopy hdecl hname
    have hapart : ∀ l ∈ answer.1.transfers, ∀ decl ∈ (crossingProgram .float).globals,
        decl.name ≠ l.name := by simpa using hrecords
    have hroot : (⟨"maps", .ofNat 0, .ofNat 1⟩ : Endpoint) ∈ crossingTable.roots := by decide
    have hdecl' : GlobalDecl.plain "maps" 5 ∈ (crossingProgram .float).globals := List.mem_cons_self
    exact root_loaded_in_scope hsplit (by decide) (by decide) hapart hroot hdecl' rfl hpart hfn
      hinst hop hcopy hdecl hname

end Stagewise
