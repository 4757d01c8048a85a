import Stagewise.Emission.Copy
import Stagewise.Proofs.Emission.Reading
import Stagewise.Proofs.Operation.Operands

namespace Stagewise

def ArraySlot.leading : List (Option Nat) → List Nat
  | some k :: path => k :: leading path
  | _ => []

theorem Step.leading_eq (path : List Step) :
    Step.leading path = ArraySlot.leading (path.map Step.fixed?) := by
  induction path with
  | nil => rfl
  | cons step path ih =>
    cases step with
    | fixed k => exact congrArg (k :: ·) ih
    | dynamic v => rfl

namespace Ledger

variable {l : List ArraySlot} {slot x : ArraySlot}

theorem mergeArray_cases (h : x ∈ mergeArray slot l) :
    x ∈ l ∨ x = slot ∨ ∃ y ∈ l, (y.src = slot.src ∧ y.dst = slot.dst ∧ y.global = slot.global ∧
      y.path = slot.path) ∧ x = { y with reads := y.reads ++ slot.reads } := by
  induction l with
  | nil => exact .inr (.inl (List.mem_singleton.mp h))
  | cons y l ih =>
    simp only [mergeArray] at h
    split at h
    · next hs =>
      rcases List.mem_cons.mp h with rfl | h
      · exact .inr (.inr ⟨y, List.mem_cons_self, hs, rfl⟩)
      · exact .inl (List.mem_cons_of_mem _ h)
    · rcases List.mem_cons.mp h with rfl | h
      · exact .inl List.mem_cons_self
      · rcases ih h with hx | hx | ⟨z, hz, hx⟩
        · exact .inl (List.mem_cons_of_mem _ hx)
        · exact .inr (.inl hx)
        · exact .inr (.inr ⟨z, List.mem_cons_of_mem _ hz, hx⟩)

theorem mem_mergeArray (h : x ∈ mergeArray slot l) :
    ∃ y ∈ slot :: l, x = { y with reads := x.reads } := by
  rcases mergeArray_cases h with hx | rfl | ⟨y, hy, -, rfl⟩
  · exact ⟨x, List.mem_cons_of_mem _ hx, rfl⟩
  · exact ⟨x, List.mem_cons_self, rfl⟩
  · exact ⟨y, List.mem_cons_of_mem _ hy, rfl⟩

theorem mem_reads_mergeArray (hx : x ∈ mergeArray slot l)
    {r : InstId × Value} (hr : r ∈ x.reads) :
    (∃ y ∈ l, y.dst = x.dst ∧ r ∈ y.reads) ∨ slot.dst = x.dst ∧ r ∈ slot.reads := by
  rcases mergeArray_cases hx with hx | rfl | ⟨y, hy, ⟨-, hd, -⟩, rfl⟩
  · exact .inl ⟨x, hx, rfl, hr⟩
  · exact .inr ⟨rfl, hr⟩
  · rcases List.mem_append.mp hr with hr | hr
    · exact .inl ⟨y, hy, rfl, hr⟩
    · exact .inr ⟨hd.symm, hr⟩

end Ledger

def Emission.left (s : Emission) (scope : Scope) : List BlockId :=
  s.drafts[scope.val]?.elim [] fun d => d.exits.map Prod.fst

theorem Emission.mem_left {s : Emission} {scope : Scope} {b : BlockId} :
    b ∈ s.left scope ↔ ∃ d, s.drafts[scope.val]? = some d ∧ (d.exits.lookup b).isSome := by
  unfold left
  cases s.drafts[scope.val]? with
  | none => simp
  | some d =>
    simp only [Option.elim_some, List.mem_map, Option.some.injEq, exists_eq_left',
      List.lookup_isSome_iff, beq_iff_eq, @eq_comm _ b]

def Operation.isPlain : Operation → Bool
  | .load _ | .store _ _ | .phi _ | .call _ _ => false
  | _ => true

def Inst.copyType (inst : Inst) : TypeId :=
  match inst.op with
  | .store _ _ => TypeId.void
  | _ => inst.ty

namespace Source

def slotLength (src : Source) (types : TypePool) (g : GlobalId) (path : List Step) : Option Nat :=
  src.program.globals[g]?.bind fun decl =>
    (types.memberPath decl.ty (Step.leading path)).bind types.lengthOf

/-- The operands that copying an operation into a scope looks at. A phi takes the value of the known
predecessor, or else those of the blocks that control has left. A call of what is only known as a
value is not copied, and an element of an earlier scope's binding is read through an array slot. -/
def resolved (src : Source) (types : TypePool) (scope : Scope) (left : List BlockId)
    (pred : Option BlockId) : Operation → List Value
  | .phi incoming =>
    match pred with
    | some q => (incoming.lookup q).toList
    | none => (incoming.filter (left.contains ·.1)).map Prod.snd
  | .call (.indirect _) _ => []
  | .load (.element g path) =>
    let indices := path.filterMap Step.dynamic?
    if (src.table.globalScope g).any (· < scope) &&
      !(indices.length == 1 && (src.slotLength types g path).isSome) then [] else indices
  | op => op.operands

theorem mem_resolved {src : Source} {types : TypePool} {scope : Scope} {left : List BlockId}
    {pred : Option BlockId} {op : Operation} {v : Value}
    (h : v ∈ src.resolved types scope left pred op) :
    v ∈ op.operands ∧ (∀ callee args, op ≠ .call (.indirect callee) args) ∧
      ∀ incoming, op = .phi incoming → (∃ q, pred = some q ∧ incoming.lookup q = some v) ∨
        pred = none ∧ ∃ e ∈ incoming, e.1 ∈ left ∧ e.2 = v := by
  unfold resolved at h
  split at h
  · next incoming =>
    cases pred with
    | some q =>
      have hv : incoming.lookup q = some v := by simpa using h
      refine ⟨List.mem_map.mpr ⟨_, mem_of_lookup hv, rfl⟩, by simp, ?_⟩
      rintro _ ⟨⟩
      exact .inl ⟨q, rfl, hv⟩
    | none =>
      obtain ⟨e, he, rfl⟩ := List.mem_map.mp h
      obtain ⟨he, hl⟩ := List.mem_filter.mp he
      refine ⟨List.mem_map_of_mem he, by simp, ?_⟩
      rintro _ ⟨⟩
      exact .inr ⟨rfl, e, he, by simpa using hl, rfl⟩
  · cases h
  · simp only at h
    split at h
    · cases h
    · exact ⟨h, by simp, by simp⟩
  · next hp hc _ => exact ⟨h, hc, fun incoming hop => absurd hop (hp incoming)⟩

def asked (src : Source) (s : Emission) (scope : Scope) (pred : Option BlockId) (inst : Inst) :
    List Value :=
  src.resolved s.types scope (s.left scope) pred inst.op

end Source

namespace Emission

variable {src : Source} {s t : Emission} {scope : Scope}

def DenotesFunction (src : Source) (s : Emission) (scope : Scope) (callee copy : FuncId) : Prop :=
  ∃ d decl decl', s.drafts[scope.val]? = some d ∧ src.program.decls[callee]? = some decl ∧
    d.program.decls[copy]? = some decl' ∧ decl'.name = decl.name

inductive RendersStep (src : Source) (s : Emission) (scope : Scope) : Step → Step → Prop
  | fixed (k : Nat) : RendersStep src s scope (.fixed k) (.fixed k)
  | dynamic {v r : Value} : Denotes src s scope v r → RendersStep src s scope (.dynamic v) (.dynamic r)

inductive RendersAddress (src : Source) (s : Emission) (scope : Scope) : Address → Address → Prop
  | member {g copy : GlobalId} (path : List Nat) : Denotes src s scope (.global g) (.global copy) →
      RendersAddress src s scope (.member g path) (.member copy path)
  | element {g copy : GlobalId} {path path' : List Step} :
      Denotes src s scope (.global g) (.global copy) →
      List.Forall₂ (RendersStep src s scope) path path' →
      RendersAddress src s scope (.element g path) (.element copy path')

/-- What comes into a phi in a scope: the values of the blocks that control leaves there. -/
inductive RendersIncoming (src : Source) (s : Emission) (scope : Scope)
    (exits : List (BlockId × BlockId)) :
    List (BlockId × Value) → List (BlockId × Value) → Prop
  | nil : RendersIncoming src s scope exits [] []
  | cons {block exit : BlockId} {v r : Value} {rest rest' : List (BlockId × Value)} :
      exits.lookup block = some exit → Denotes src s scope v r →
      RendersIncoming src s scope exits rest rest' →
      RendersIncoming src s scope exits ((block, v) :: rest) ((exit, r) :: rest')
  | skip {i : InstId} {block : BlockId} {v : Value} {rest rest' : List (BlockId × Value)} :
      exits.lookup block = none → .missingIncoming i block ∈ s.problems →
      RendersIncoming src s scope exits rest rest' →
      RendersIncoming src s scope exits ((block, v) :: rest) rest'

inductive Renders (src : Source) (s : Emission) (scope : Scope) : Operation → Operation → Prop
  | plain {op : Operation} {vs : List Value} : op.isPlain →
      List.Forall₂ (Denotes src s scope) op.operands vs →
      Renders src s scope op (op.withOperands vs)
  | load {addr addr' : Address} : RendersAddress src s scope addr addr' →
      Renders src s scope (.load addr) (.load addr')
  | store {v r : Value} {addr addr' : Address} : Denotes src s scope v r →
      RendersAddress src s scope addr addr' → Renders src s scope (.store v addr) (.store r addr')
  | phi {d : Draft} {incoming incoming' : List (BlockId × Value)} :
      s.drafts[scope.val]? = some d → RendersIncoming src s scope d.exits incoming incoming' →
      Renders src s scope (.phi incoming) (.phi incoming')
  | call {callee copy : FuncId} {args args' : List Value} :
      DenotesFunction src s scope callee copy → List.Forall₂ (Denotes src s scope) args args' →
      Renders src s scope (.call (.direct callee) args) (.call (.direct copy) args')

theorem RendersAddress.indexValues {a b : Address} (h : RendersAddress src s scope a b) :
    List.Forall₂ (Denotes src s scope) a.indexValues b.indexValues := by
  cases h with
  | member path hg => exact .nil
  | element hg hp =>
    show List.Forall₂ _ (List.filterMap Step.dynamic? _) (List.filterMap Step.dynamic? _)
    induction hp with
    | nil => exact .nil
    | cons hs _ ih =>
      cases hs with
      | fixed k => exact ih
      | dynamic hv => exact .cons hv ih

theorem Renders.operands {op op' : Operation} (h : Renders src s scope op op')
    (hop : op.isPhi = false) :
    List.Forall₂ (Denotes src s scope) op.operands op'.operands := by
  cases h with
  | plain hp hvs =>
    rw [Operation.operands_withOperands hvs.length_eq.symm]
    exact hvs
  | load ha => exact ha.indexValues
  | store hv ha => exact .cons hv ha.indexValues
  | phi _ _ => cases hop
  | call _ har => exact har

def StaysIn (src : Source) (scope : Scope) (op : Operation) : Prop :=
  ∀ addr g owner, op = .load addr → addr.global? = some g →
    src.table.globalScope g = some owner → ¬owner < scope

/-- What can come of copying an instruction into a scope, with a given predecessor. -/
inductive Copied (src : Source) (allowed : Permit) (scope : Scope)
    (pred : Option BlockId) (i : InstId) (inst : Inst) : Emission → Emission → Prop
  | emitted {s t : Emission} {d : Draft} {op : Operation} : Reads src allowed s t →
      t.drafts[scope.val]? = some d → Renders src t scope inst.op op →
      (inst.op.isPhi → pred = none) → StaysIn src scope inst.op →
      Copied src allowed scope pred i inst s (t.setDraft scope
        ((d.emit inst.copyType op).2.addCopy i (.inst (d.emit inst.copyType op).1)))
  | known {s t : Emission} {d : Draft} {incoming : List (BlockId × Value)} {q : BlockId}
      {v r : Value} : inst.op = .phi incoming → pred = some q → incoming.lookup q = some v →
      Reads src allowed s t → Denotes src t scope v r → t.drafts[scope.val]? = some d →
      Copied src allowed scope pred i inst s (t.setDraft scope (d.addCopy i r))
  | missing {s t : Emission} {d : Draft} {incoming : List (BlockId × Value)} {q : BlockId} :
      inst.op = .phi incoming → pred = some q → incoming.lookup q = none →
      Reads src allowed s t → .missingIncoming i q ∈ t.problems → t.drafts[scope.val]? = some d →
      Copied src allowed scope pred i inst s
        (t.setDraft scope (d.addCopy i (.const (.undef inst.ty))))
  | unsupported {s t : Emission} {d : Draft} {addr : Address} : inst.op = .load addr →
      (∀ g path, addr ≠ .member g path) ∧ src.asked s scope pred inst = [] →
      Reads src allowed s t → .unsupportedAddress i ∈ t.problems → t.drafts[scope.val]? = some d →
      Copied src allowed scope pred i inst s
        (t.setDraft scope (d.addCopy i (.const (.undef inst.ty))))
  | raised {s t u : Emission} {d e : Draft} {owner : Scope} {g copy : GlobalId} {path : List Nat}
      {r : Value} : inst.op = .load (.member g path) → src.table.globalScope g = some owner →
      owner < scope → Reads src allowed s t → t.drafts[owner.val]? = some e →
      Denotes src t owner (.global g) (.global copy) →
      Reads src allowed (t.setDraft owner
        ((e.append e.entry inst.ty (.load (.member copy path))).2.addCopy i
          (.inst (e.append e.entry inst.ty (.load (.member copy path))).1))) u →
      u.drafts[scope.val]? = some d → d.reads.lookup i = some r →
      Copied src allowed scope pred i inst s (u.setDraft scope (d.addCopy i r))
  | array {s t : Emission} {d : Draft} {owner : Scope} {g : GlobalId} {decl : GlobalDecl}
      {path : List Step} {index r : Value} {len : Nat} : inst.op = .load (.element g path) →
      src.table.globalScope g = some owner → owner < scope →
      path.filterMap Step.dynamic? = [index] → src.program.globals[g]? = some decl →
      (t.types.memberPath decl.ty (Step.leading path)).bind t.types.lengthOf = some len →
      Reads src allowed s t → Denotes src t scope index r → t.drafts[scope.val]? = some d →
      Copied src allowed scope pred i inst s (t.openElement i d
        (.ofRead owner scope g path inst.ty len d.builder.func.numInsts r))
  | skipped {s t : Emission} :
      ((∃ v args, inst.op = .call (.indirect v) args) ∨
        ∃ v, inst.op = .store v .pending ∧ ∃ r, Denotes src t scope v r) →
      Reads src allowed s t → Copied src allowed scope pred i inst s t

theorem RendersIncoming.denotes {exits : List (BlockId × BlockId)}
    {incoming incoming' : List (BlockId × Value)}
    (h : RendersIncoming src s scope exits incoming incoming') {e : BlockId × Value}
    (he : e ∈ incoming) (hex : (exits.lookup e.1).isSome) : ∃ r, Denotes src s scope e.2 r := by
  induction h with
  | nil => cases he
  | cons _ hr _ ih =>
    rcases List.mem_cons.mp he with rfl | he
    · exact ⟨_, hr⟩
    · exact ih he
  | skip hn _ _ ih =>
    rcases List.mem_cons.mp he with rfl | he
    · simp [hn] at hex
    · exact ih he

theorem Renders.denotes {op op' : Operation} {pred : Option BlockId}
    (h : Renders src s scope op op') (hph : op.isPhi → pred = none) {v : Value}
    (hv : v ∈ src.resolved s.types scope (s.left scope) pred op) : ∃ r, Denotes src s scope v r := by
  obtain ⟨hop, -, hin⟩ := Source.mem_resolved hv
  by_cases hi : op.isPhi = true
  · cases h with
    | phi hd hr =>
      rcases hin _ rfl with ⟨q, hq, -⟩ | ⟨-, e, he, hl, rfl⟩
      · exact absurd (hq.symm.trans (hph hi)) (by simp)
      · obtain ⟨d, hd', hex⟩ := mem_left.mp hl
        obtain rfl := Option.mem_unique hd hd'
        exact hr.denotes he hex
    | plain hp _ => cases op <;> simp_all [Operation.isPlain, Operation.isPhi]
    | load _ | store _ _ | call _ _ => cases hi
  · obtain ⟨k, hk⟩ := List.mem_iff_getElem?.mp hop
    have ha := h.operands (Bool.eq_false_iff.mpr hi)
    obtain ⟨hlt, rfl⟩ := List.getElem?_eq_some_iff.mp hk
    exact ⟨_, ha.get hlt (ha.length_eq ▸ hlt)⟩

theorem RendersStep.keeps {a b : Step} (h : RendersStep src s scope a b) (hk : s.Keeps t) :
    RendersStep src t scope a b := by
  cases h with
  | fixed k => exact .fixed k
  | dynamic h => exact .dynamic (h.keeps hk)

theorem Copied.mono {allowed allowed' : Permit} {pred : Option BlockId} {i : InstId} {inst : Inst}
    (h : Copied src allowed scope pred i inst s t)
    (hrea : ∀ owner dst j, owner < dst → allowed.reads owner dst j → allowed'.reads owner dst j)
    (hrep : ∀ p, allowed.reports p → allowed'.reports p) :
    Copied src allowed' scope pred i inst s t := by
  have hre : ∀ {s t}, Reads src allowed s t → Reads src allowed' s t :=
    fun h => h.mono hrea hrep
  cases h with
  | emitted h hd hop hph hs => exact .emitted (hre h) hd hop hph hs
  | known hop hq hv h hr hd => exact .known hop hq hv (hre h) hr hd
  | missing hop hq hv h hp hd => exact .missing hop hq hv (hre h) hp hd
  | unsupported hop ha h hp hd => exact .unsupported hop ha (hre h) hp hd
  | raised hop hg hlt h he hc h' hd hr => exact .raised hop hg hlt (hre h) he hc (hre h') hd hr
  | array hop hg hlt hi hde hl h hr hd => exact .array hop hg hlt hi hde hl (hre h) hr hd
  | skipped hsk h => exact .skipped hsk (hre h)

theorem setDraft_setDraft (s : Emission) (scope : Scope) (d d' : Draft) :
    (s.setDraft scope d).setDraft scope d' = s.setDraft scope d' := by
  simp [setDraft]

end Emission

namespace Source

open Emission

variable {src : Source} {allowed : Permit} {s : Emission} {scope : Scope}
  {E : Fault → Prop}

theorem sat_copyStep {step : Step} (ha : ∀ v, step = .dynamic v → src.Allows allowed scope v)
    (hE : Act.Tolerant E ∨ scope.val < s.drafts.size ∧
      ∀ v, step = .dynamic v → src.Ready s scope v) :
    Act.Sat E (src.copyStep scope step) s fun step' t =>
      Reads src allowed s t ∧ RendersStep src t scope step step' := by
  cases step with
  | fixed k => exact ⟨.refl, .fixed k⟩
  | dynamic v =>
    simp only [copyStep, Act.sat_bind, Act.sat_pure]
    refine (sat_getValue (ha v rfl) (hE.imp_right fun h => ⟨h.1, h.2 v rfl⟩)).mono
      fun r t h => ⟨h.1, .dynamic h.2⟩

/-- An address that can be had in a scope: its binding exists, and its indices can be had. -/
structure AddressReady (src : Source) (s : Emission) (scope : Scope) (addr : Address) : Prop where
  global : ∀ g, addr.global? = some g → g < src.program.numGlobals
  indices : ∀ v ∈ addr.indexValues, src.Ready s scope v

variable {i : InstId} {t : Emission} {inst : Inst} {pred : Option BlockId} {op : Operation}
  {incoming : List (BlockId × Value)}

/-- An address is rendered in the scope, unless it is one that waits; that is reported. -/
theorem sat_copyAddress {addr : Address}
    (ha : ∀ v ∈ addr.indexValues, src.Allows allowed scope v)
    (hre : allowed.reports (.unsupportedAddress i))
    (hE : Act.Tolerant E ∨ scope.val < s.drafts.size ∧ src.AddressReady s scope addr) :
    Act.Sat E (src.copyAddress scope i addr) s fun addr' t => Reads src allowed s t ∧
      ((∃ a, addr' = some a ∧ RendersAddress src t scope addr a) ∨
        addr' = none ∧ addr = .pending ∧ .unsupportedAddress i ∈ t.problems) := by
  cases addr with
  | member g path =>
    simp only [copyAddress, Act.sat_bind, Act.sat_pure]
    refine (sat_getGlobal (hE.imp_right fun h => ⟨h.1, h.2.global g rfl⟩)).mono
      fun copy t h => ⟨h.1, .inl ⟨_, rfl, .member path h.2⟩⟩
  | element g path =>
    simp only [copyAddress, Act.sat_bind, Act.sat_pure]
    have hge : Act.Sat E (src.getGlobal scope g) s fun copy t =>
        Reads src allowed s t ∧ Denotes src t scope (.global g) (.global copy) :=
      sat_getGlobal (hE.imp_right fun h => ⟨h.1, h.2.global g rfl⟩)
    refine hge.mono fun copy t h => ?_
    obtain ⟨hr, hg⟩ := h
    have hm : ∀ step ∈ path, ∀ v, step = .dynamic v → v ∈ (Address.element g path).indexValues := by
      rintro _ hs v rfl
      exact List.mem_filterMap.mpr ⟨_, hs, rfl⟩
    refine (sat_mapM_reads (P := fun u step => Act.Tolerant E ∨ scope.val < u.drafts.size ∧
        ∀ v, step = .dynamic v → src.Ready u scope v)
      (fun _ _ _ _ h hk => h.keeps hk) (fun _ u _ h hk => ?_)
      (fun step hs u hu => sat_copyStep (fun v hv => ha v (hm step hs v hv)) hu)
      (fun step hs => hE.imp_right fun h => ?_)).mono
      fun path' u h => ?_
    · exact h.imp_right fun h => ⟨hk.size ▸ h.1, fun v hv => (h.2 v hv).keeps hk⟩
    · exact ⟨hr.keeps.size ▸ h.1, fun v hv =>
        (h.2.indices v (hm step hs v hv)).keeps hr.keeps⟩
    · obtain ⟨hr', hp⟩ := h
      exact ⟨hr.trans hr', .inl ⟨_, rfl, .element (hg.keeps hr'.keeps) hp⟩⟩
  | pending =>
    simp only [copyAddress, Act.sat_bind, sat_report, Act.sat_pure]
    refine ⟨.single (.report hre), .inr ?_⟩
    simp [Problem.mem_note]

theorem sat_copyKnownPhi {q : BlockId}
    (ha : ∀ v, incoming.lookup q = some v → src.Allows allowed scope v)
    (hr : allowed.reports (.missingIncoming i q))
    (hE : Act.Tolerant E ∨ scope.val < s.drafts.size ∧ i < src.func.numInsts ∧
      ∀ v, incoming.lookup q = some v → src.Ready s scope v) :
    Act.Sat E (src.copyKnownPhi scope i q incoming) s fun r t => Reads src allowed s t ∧
      ((∃ v, incoming.lookup q = some v ∧ Denotes src t scope v r) ∨
        incoming.lookup q = none ∧ .missingIncoming i q ∈ t.problems ∧
          ∃ inst, src.func.insts[i]? = some inst ∧ r = .const (.undef inst.ty)) := by
  unfold copyKnownPhi
  cases hq : incoming.lookup q with
  | some v =>
    refine (sat_getValue (ha v hq) (hE.imp_right fun h => ⟨h.1, h.2.2 v hq⟩)).mono
      fun r t h => ⟨h.1, .inl ⟨v, rfl, h.2⟩⟩
  | none =>
    simp only [Act.sat_bind, sat_report]
    refine sat_undef (hE.imp_right fun h => h.2.1) fun inst hi => ?_
    refine ⟨.single (.report hr), .inr ?_⟩
    simp [Problem.mem_note, hi]

/-- The sources of a phi whose blocks the part has left are rendered, the others are reported. -/
theorem sat_copyIncoming
    (ha : ∀ d, s.drafts[scope.val]? = some d →
      ∀ e ∈ incoming, (d.exits.lookup e.1).isSome → src.Allows allowed scope e.2)
    (hre : ∀ block, allowed.reports (.missingIncoming i block))
    (hE : Act.Tolerant E ∨ scope.val < s.drafts.size ∧ ∀ d, s.drafts[scope.val]? = some d →
      ∀ e ∈ incoming, (d.exits.lookup e.1).isSome → src.Ready s scope e.2) :
    Act.Sat E (src.copyIncoming scope i incoming) s fun incoming' t => Reads src allowed s t ∧
      ∀ d, s.drafts[scope.val]? = some d →
        RendersIncoming src t scope d.exits incoming incoming' := by
  induction incoming generalizing s with
  | nil => exact ⟨.refl, fun _ _ => .nil⟩
  | cons e rest ih =>
    obtain ⟨block, v⟩ := e
    simp only [copyIncoming, Act.sat_bind, sat_draft]
    refine ⟨fun d hd => ?_, fun hn => ?_⟩
    · cases hex : d.exits.lookup block with
      | some exit =>
        simp only [Act.sat_bind, Act.sat_pure]
        refine (sat_getValue (ha d hd (block, v) (by simp) (by simp [hex]))
          (hE.imp_right fun h => ⟨h.1, h.2 d hd (block, v) (by simp) (by simp [hex])⟩)).mono
          fun r t h => ?_
        obtain ⟨hr, hde⟩ := h
        obtain ⟨d', hd', hk⟩ := hr.keeps.drafts _ _ hd
        refine (ih (fun d'' hd'' e he hs => ?_) (hE.imp_right fun h => ?_)).mono
          fun rest' u h => ?_
        · obtain rfl := Option.mem_unique hd' hd''
          exact ha d hd e (by simp [he]) (hk.exits ▸ hs)
        · refine ⟨hr.keeps.size ▸ h.1, fun d'' hd'' e he hs => ?_⟩
          obtain rfl := Option.mem_unique hd' hd''
          exact (h.2 d hd e (by simp [he]) (hk.exits ▸ hs)).keeps hr.keeps
        · obtain ⟨hr', hres⟩ := h
          refine ⟨hr.trans hr', fun d'' hd'' => ?_⟩
          obtain rfl := Option.mem_unique hd hd''
          exact .cons hex (hde.keeps hr'.keeps) (hk.exits ▸ hres d' hd')
      | none =>
        have hre : ReadStep src allowed s
          { s with problems := Problem.note s.problems (.missingIncoming i block) } := .report (hre block)
        simp only [Act.sat_bind, sat_report]
        refine (ih (s := { s with problems := Problem.note s.problems (.missingIncoming i block) })
          (fun d' hd' e he hs => ha d' hd' e (by simp [he]) hs)
          (hE.imp_right fun h => ⟨h.1, fun d' hd' e he hs => ?_⟩)).mono fun rest' u h => ?_
        · exact (h.2 d' hd' e (by simp [he]) hs).keeps hre.keeps
        · obtain ⟨hr, hres⟩ := h
          refine ⟨hr.head hre, fun d' hd' => ?_⟩
          obtain rfl := Option.mem_unique hd hd'
          refine .skip (i := i) hex ?_ (hres d hd)
          exact hr.keeps.problems _ (Problem.mem_note.mpr (.inr rfl))
    · exact Act.fault_of_array_none (hE.imp_right And.left) hn

theorem asked_keeps (hk : s.Keeps t) (pred : Option BlockId) (inst : Inst) :
    src.asked t scope pred inst = src.asked s scope pred inst := by
  have hl : t.left scope = s.left scope := by
    unfold left
    cases hd : s.drafts[scope.val]? with
    | none =>
      rw [Array.getElem?_eq_none_iff.mpr (hk.size ▸ Array.getElem?_eq_none_iff.mp hd)]
    | some d =>
      obtain ⟨d', hd', hk'⟩ := hk.drafts _ _ hd
      simp [hd', hk'.exits]
  rw [asked, asked, hl, hk.types]

/-- An instruction can be copied into a scope: what it needs exists and can be had there. -/
structure CanCopy (src : Source) (s : Emission) (scope : Scope) (pred : Option BlockId)
    (i : InstId) (inst : Inst) : Prop where
  scope_lt : scope.val < s.drafts.size
  inst_lt : i < src.func.numInsts
  asks : ∀ v ∈ src.asked s scope pred inst, src.Ready s scope v
  global_lt : ∀ addr g, inst.op.address? = some addr → addr.global? = some g →
    g < src.program.numGlobals ∧ g < src.table.globals.size
  owner_lt : ∀ g owner, src.table.globalScope g = some owner → owner.val < s.drafts.size
  callee_lt : ∀ callee args, inst.op = .call (.direct callee) args →
    callee < src.program.decls.length

theorem CanCopy.keeps
    (h : src.CanCopy s scope pred i inst) (hk : s.Keeps t) : src.CanCopy t scope pred i inst :=
  ⟨hk.size ▸ h.scope_lt, h.inst_lt, fun v hv => (h.asks v (asked_keeps hk pred inst ▸ hv)).keeps hk,
    h.global_lt, fun g owner hg => hk.size ▸ h.owner_lt g owner hg, h.callee_lt⟩

/-- Copying an instruction may do what it leads to: ask for the operands, read the load itself if it
is moved to the scope of its binding, and report problems of its own. -/
structure MayRead (src : Source) (allowed : Permit) (s : Emission) (scope : Scope)
    (pred : Option BlockId) (i : InstId) (inst : Inst) : Prop where
  asks : ∀ v ∈ src.asked s scope pred inst, src.Allows allowed scope v
  raised : ∀ owner g path, inst.op = .load (.member g path) →
    src.table.globalScope g = some owner → owner < scope → allowed.reads owner scope i
  address : allowed.reports (.unsupportedAddress i)
  indirect : allowed.reports (.indirectCall i)
  incoming : ∀ block, allowed.reports (.missingIncoming i block)

theorem MayRead.keeps
    (h : src.MayRead allowed s scope pred i inst) (hk : s.Keeps t) :
    src.MayRead allowed t scope pred i inst :=
  ⟨fun v hv => h.asks v (asked_keeps hk pred inst ▸ hv), h.raised, h.address, h.indirect, h.incoming⟩

/-- A problem of an instruction in a scope: one of its operands, or its own. The operands of a call
of what is only known as a value are not looked at. -/
inductive Hinders (src : Source) (scope : Scope) (i : InstId) (inst : Inst) : Problem → Prop
  | operand {v : Value} {p : Problem} : v ∈ inst.op.operands →
      (∀ callee args, inst.op ≠ .call (.indirect callee) args) → src.Refuses scope v p →
      Hinders src scope i inst p
  | address : Hinders src scope i inst (.unsupportedAddress i)
  | indirect : Hinders src scope i inst (.indirectCall i)
  | incoming (block : BlockId) : Hinders src scope i inst (.missingIncoming i block)

/-- All that copying an instruction needs: its operands from earlier scopes, itself if it is moved to
one, and its problems. -/
def permit (src : Source) (s : Emission) (scope : Scope) (pred : Option BlockId) (i : InstId)
    (inst : Inst) : Permit where
  reads owner dst j := dst = scope ∧
    (.inst j ∈ src.asked s scope pred inst ∧ src.table.instScope j = some owner ∨
      j = i ∧ ∃ g path, inst.op = .load (.member g path) ∧ src.table.globalScope g = some owner)
  reports := src.Hinders scope i inst

theorem mayRead_permit (src : Source) (s : Emission) (scope : Scope) (pred : Option BlockId)
    (i : InstId) (inst : Inst) :
    src.MayRead (src.permit s scope pred i inst) s scope pred i inst := by
  refine ⟨fun v hv => ⟨?_, fun p hp => ?_⟩, ?_, .address, .indirect, .incoming⟩
  · rintro j owner rfl ho -
    exact ⟨rfl, .inl ⟨hv, ho⟩⟩
  · obtain ⟨hop, hd, -⟩ := mem_resolved hv
    exact .operand hop hd hp
  · intro owner g path hop hg _
    exact ⟨rfl, .inr ⟨rfl, g, path, hop, hg⟩⟩

def Finishes (src : Source) (allowed : Permit) (scope : Scope)
    (pred : Option BlockId) (i : InstId) (inst : Inst) (s : Emission) (r : Value)
    (t : Emission) : Prop :=
  t.drafts.size = s.drafts.size ∧ ∀ d, t.drafts[scope.val]? = some d →
    Copied src allowed scope pred i inst s (t.setDraft scope (d.addCopy i r))

theorem sat_emit {ty : TypeId} {Q : Value → Emission → Prop}
    (hE : Act.Tolerant E ∨ scope.val < s.drafts.size)
    (h : ∀ d, s.drafts[scope.val]? = some d →
      Q (.inst (d.emit ty op).1) (s.setDraft scope (d.emit ty op).2)) :
    Act.Sat E (Emission.emit scope ty op) s Q := by
  unfold Emission.emit
  simp only [Act.sat_bind, sat_editDraft, Act.sat_pure]
  refine ⟨h, fun hn => ?_⟩
  exact Act.fault_of_array_none hE hn

theorem finishes_emitted {d : Draft} (hr : Reads src allowed s t)
    (hd : t.drafts[scope.val]? = some d) (hop : Renders src t scope inst.op op)
    (hp : inst.op.isPhi → pred = none) (hs : StaysIn src scope inst.op) :
    Finishes src allowed scope pred i inst s (.inst (d.emit inst.copyType op).1)
      (t.setDraft scope (d.emit inst.copyType op).2) := by
  refine ⟨by rw [size_setDraft, hr.keeps.size], fun d' hd' => ?_⟩
  obtain rfl := Option.mem_unique (getElem?_setDraft_self hd) hd'
  rw [setDraft_setDraft]
  exact .emitted hr hd hop hp hs

theorem staysIn_of_not_load (h : ∀ addr, op ≠ .load addr) :
    StaysIn src scope op := fun addr _ _ hop => absurd hop (h addr)

theorem declare_spec (p : Program) (decl : FunctionDecl) :
    ∃ decl', (p.declare decl).2.decls[(p.declare decl).1]? = some decl' ∧
      decl'.name = decl.name := by
  unfold Program.declare
  cases h : p.declNamed? decl.name with
  | some id =>
    obtain ⟨hlt, hid, -⟩ := List.findIdx?_eq_some_iff_getElem.mp h
    exact ⟨_, List.getElem?_eq_getElem hlt, by simpa using hid⟩
  | none => exact ⟨decl, by simp, rfl⟩

section Copy

variable {pred : Option BlockId} {i : InstId} {inst : Inst} {addr : Address}

theorem finishes_unsupported (hop : inst.op = .load addr)
    (ha : (∀ g path, addr ≠ .member g path) ∧ src.asked s scope pred inst = [])
    (hi : src.func.insts[i]? = some inst) {t : Emission} (hr : Reads src allowed s t)
    (hp : .unsupportedAddress i ∈ t.problems) :
    Act.Sat E (src.undef i) t fun r u => Finishes src allowed scope pred i inst s r u := by
  have hlt : i < src.func.numInsts := (Array.getElem?_eq_some_iff.mp hi).1
  refine sat_undef (.inr hlt) fun inst' hi' => ?_
  obtain rfl := Option.mem_unique hi hi'
  exact ⟨hr.keeps.size, fun d hd => .unsupported hop ha hr hp hd⟩

theorem sat_earlierOwner (hop : inst.op = .load addr)
    (hE : Act.Tolerant E ∨ src.CanCopy s scope pred i inst) :
    Act.Sat E (src.earlierOwner scope addr) s fun owner t => t = s ∧
      (∀ o, owner = some o → o < scope ∧ ∀ g, addr.global? = some g →
        src.table.globalScope g = some o) ∧ (owner = none → StaysIn src scope inst.op) := by
  unfold earlierOwner
  cases hg : addr.global? with
  | none =>
    simp only [Act.sat_pure]
    refine ⟨trivial, by simp, fun _ addr' g owner hop' hg' => ?_⟩
    obtain rfl : addr = addr' := Operation.load.inj (hop.symm.trans hop')
    exact absurd (hg.symm.trans hg') (by simp)
  | some g =>
    simp only [Act.sat_bind, Act.sat_ofOption, Act.sat_pure]
    have hs : ∀ info, src.table.globals[g]? = some info →
        src.table.globalScope g = info.usedScope := fun info hi => by
      simp [Classification.globalScope, Classification.global, hi]
    refine ⟨fun info hi => ⟨trivial, fun o ho => ?_, fun hno addr' g' owner hop' hg' ho => ?_⟩,
      fun hn => ?_⟩
    · obtain ⟨hu, hlt⟩ := Option.filter_eq_some_iff.mp ho
      refine ⟨by simpa using hlt, fun g' hg' => ?_⟩
      obtain rfl : g = g' := Option.some.inj hg'
      rw [hs info hi, hu]
    · obtain rfl : addr = addr' := Operation.load.inj (hop.symm.trans hop')
      obtain rfl := Option.mem_unique hg hg'
      rw [hs info hi] at ho
      simpa [ho] using hno
    · exact Act.fault_of_array_none
        (hE.imp_right fun h => (h.global_lt addr g (by rw [hop]; rfl) hg).2) hn

section

variable (ha : src.MayRead allowed s scope pred i inst)
  (hE : Act.Tolerant E ∨ src.CanCopy s scope pred i inst) {owner : Scope} {g : GlobalId}

include ha hE

/-- A read of an element from an earlier scope waits for its address, or is reported. -/
theorem sat_copyArrayRead {path : List Step} (hin : src.func.insts[i]? = some inst)
    (hop : inst.op = .load (.element g path)) (ho : src.table.globalScope g = some owner)
    (hlt : owner < scope) :
    Act.Sat E (src.copyArrayRead owner scope i inst.ty g path) s fun r t =>
      Finishes src allowed scope pred i inst s r t := by
  have hrep : Reads src allowed s
      { s with problems := Problem.note s.problems (.unsupportedAddress i) } :=
    .single (.report ha.address)
  unfold copyArrayRead
  split
  · next index hi =>
    simp only [Act.sat_bind, Act.sat_ofOption, Act.sat_get]
    refine ⟨fun decl hde => ?_, fun hn => ?_⟩
    · split
      · next len hl =>
        have hm : index ∈ src.asked s scope pred inst := by
          simp [asked, resolved, hop, ho, hi, slotLength, hde, hl]
        simp only [Act.sat_bind, sat_editDraft, Act.sat_modify, Act.sat_pure]
        refine (sat_getValue (ha.asks index hm) (hE.imp_right fun h =>
          ⟨h.scope_lt, h.asks index hm⟩)).mono fun r t h => ?_
        obtain ⟨hre, hr⟩ := h
        refine ⟨fun d hd => ⟨?_, fun d' hd' => ?_⟩, fun hn => ?_⟩
        · show (t.setDraft scope _).drafts.size = _
          rw [size_setDraft, hre.keeps.size]
        · obtain rfl := Option.mem_unique (getElem?_setDraft_self hd) hd'
          have : Copied src allowed scope pred i inst s _ :=
            .array hop ho hlt hi hde (by rw [hre.keeps.types]; exact hl) hre hr hd
          simp only [setDraft, Array.setIfInBounds_setIfInBounds]
          exact this
        · exact Act.fault_of_array_none (hE.imp_right fun h => hre.keeps.size ▸ h.scope_lt) hn
      · next hl =>
        have hno : src.asked s scope pred inst = [] := by
          simp [asked, resolved, hop, ho, hlt, slotLength, hde, hl]
        simp only [Act.sat_bind, sat_report]
        exact finishes_unsupported hop ⟨by simp, hno⟩ hin hrep (Problem.mem_note.mpr (.inr rfl))
    · exact Act.fault_of_list_none
        (hE.imp_right fun h => (h.global_lt _ g (by rw [hop]; rfl) rfl).1) hn
  · next hi =>
    have hl : (path.filterMap Step.dynamic?).length ≠ 1 := fun hon =>
      (List.length_eq_one_iff.mp hon).elim hi
    have hno : src.asked s scope pred inst = [] := by
      simp [asked, resolved, hop, ho, hlt, hl]
    simp only [Act.sat_bind, sat_report]
    exact finishes_unsupported hop ⟨by simp, hno⟩ hin hrep (Problem.mem_note.mpr (.inr rfl))

theorem sat_copyRaised {path : List Nat} (hop : inst.op = .load (.member g path))
    (ho : src.table.globalScope g = some owner) (hlt : owner < scope) :
    Act.Sat E (do
      let g ← src.getGlobal owner g
      Emission.updateDraft owner fun d =>
        let (copy, d) := d.append d.entry inst.ty (.load (.member g path))
        d.addCopy i (.inst copy)
      src.transferValue owner scope i) s fun r t =>
        Finishes src allowed scope pred i inst s r t := by
  simp only [Act.sat_bind, sat_updateDraft]
  have hge : Act.Sat E (src.getGlobal owner g) s fun copy t =>
      Reads src allowed s t ∧ Denotes src t owner (.global g) (.global copy) :=
    sat_getGlobal (hE.imp_right fun h =>
      ⟨h.owner_lt g owner ho, (h.global_lt _ g (by rw [hop]; rfl) rfl).1⟩)
  refine hge.mono fun copy t h => ?_
  obtain ⟨hre, hg⟩ := h
  refine ⟨fun e he => ?_, fun hn => ?_⟩
  · refine (sat_transferValue hlt (ha.raised owner g path hop ho hlt)
      (hE.imp_right fun h => ?_)).mono fun r u h => ?_
    · exact ⟨by rw [size_setDraft, hre.keeps.size]; exact h.scope_lt, h.inst_lt⟩
    · obtain ⟨hr', d, hd, hr⟩ := h
      refine ⟨by rw [hr'.keeps.size, size_setDraft, hre.keeps.size], fun d' hd' => ?_⟩
      obtain rfl := Option.mem_unique hd hd'
      exact .raised hop ho hlt hre he hg hr' hd hr
  · exact Act.fault_of_array_none
      (hE.imp_right fun h => hre.keeps.size ▸ h.owner_lt g owner ho) hn

/-- A load that stays in its scope reads the address there, or is undefined. -/
theorem sat_copyLoadHere (hop : inst.op = .load addr)
    (hs : StaysIn src scope inst.op) (hin : src.func.insts[i]? = some inst) :
    Act.Sat E (do
      match ← src.copyAddress scope i addr with
      | some addr => Emission.emit scope inst.ty (.load addr)
      | none => src.undef i) s fun r t => Finishes src allowed scope pred i inst s r t := by
  have hi : ∀ v ∈ addr.indexValues, v ∈ src.asked s scope pred inst := by
    intro v hv
    cases addr with
    | member g path => rwa [asked, hop]
    | element g path =>
      have hh : (src.table.globalScope g).any (· < scope) = false := by
        rw [Option.any_eq_false_iff_get]
        intro hso
        simpa using hs _ g _ hop rfl (Option.some_get hso).symm
      rw [asked, hop, resolved, hh]
      exact hv
    | pending => rwa [asked, hop]
  have hre : src.CanCopy s scope pred i inst → src.AddressReady s scope addr := fun h =>
    ⟨fun g hg => (h.global_lt addr g (by rw [hop]; rfl) hg).1,
      fun v hv => h.asks v (hi v hv)⟩
  have hty : inst.copyType = inst.ty := by simp [Inst.copyType, hop]
  simp only [Act.sat_bind]
  refine (sat_copyAddress (fun v hv => ha.asks v (hi v hv)) ha.address
    (hE.imp_right fun h => ⟨h.scope_lt, hre h⟩)).mono fun addr' t h => ?_
  obtain ⟨hr, had⟩ := h
  rcases had with ⟨a, rfl, had⟩ | ⟨rfl, rfl, hp⟩
  · refine sat_emit (hE.imp_right fun h => hr.keeps.size ▸ h.scope_lt) fun d hd => ?_
    rw [← hty]
    exact finishes_emitted hr hd (by rw [hop]; exact .load had) (by simp [hop, Operation.isPhi])
      hs
  · exact finishes_unsupported hop ⟨by simp, by rw [asked, hop]; rfl⟩ hin hr hp

theorem sat_copyLoad (hop : inst.op = .load addr) (hi : src.func.insts[i]? = some inst) :
    Act.Sat E (src.copyLoad scope i inst.ty addr) s fun r t =>
      Finishes src allowed scope pred i inst s r t := by
  unfold copyLoad
  simp only [Act.sat_bind]
  refine (sat_earlierOwner hop hE).mono fun owner t h => ?_
  obtain ⟨rfl, ho, hs⟩ := h
  cases owner with
  | none =>
    cases addr with
    | member g path | element g path | pending => exact sat_copyLoadHere ha hE hop (hs rfl) hi
  | some o =>
    obtain ⟨hlt, hg⟩ := ho o rfl
    cases addr with
    | member g path => exact sat_copyRaised ha hE hop (hg g rfl) hlt
    | element g path => exact sat_copyArrayRead ha hE hi hop (hg g rfl) hlt
    | pending =>
      refine sat_copyLoadHere ha hE hop (fun addr g _ hop' hg' => ?_) hi
      obtain rfl := Operation.load.inj (hop.symm.trans hop')
      exact absurd hg' (by simp [Address.global?])

/-- Along a known edge a phi is the value of the edge; else it is copied with the edges at hand. -/
theorem sat_copyPhi {incoming : List (BlockId × Value)} (hop : inst.op = .phi incoming)
    (hi : src.func.insts[i]? = some inst) :
    Act.Sat E (match pred with
      | some pred => do return some (← src.copyKnownPhi scope i pred incoming)
      | none => do
        let incoming ← src.copyIncoming scope i incoming
        return some (← Emission.emit scope inst.ty (.phi incoming))) s
      fun r t => ∃ v, r = some v ∧ Finishes src allowed scope pred i inst s v t := by
  have hty : inst.copyType = inst.ty := by simp [Inst.copyType, hop]
  cases pred with
  | some q =>
    simp only [Act.sat_bind, Act.sat_pure]
    have hm : ∀ v, incoming.lookup q = some v → v ∈ src.asked s scope (some q) inst :=
      fun v hv => by simp [asked, resolved, hop, hv]
    refine (sat_copyKnownPhi (fun v hv => ha.asks v (hm v hv)) (ha.incoming q)
      (hE.imp_right fun h =>
        ⟨h.scope_lt, h.inst_lt, fun v hv => h.asks v (hm v hv)⟩)).mono
      fun r t h => ⟨r, rfl, h.1.keeps.size, fun d hd => ?_⟩
    obtain ⟨hre, hr⟩ := h
    rcases hr with ⟨v, hv, hde⟩ | ⟨hq, hp, inst', hi', rfl⟩
    · exact .known hop rfl hv hre hde hd
    · obtain rfl := Option.mem_unique hi hi'
      exact .missing hop rfl hq hre hp hd
  | none =>
    simp only [Act.sat_bind, Act.sat_pure]
    have hm : ∀ d, s.drafts[scope.val]? = some d → ∀ e ∈ incoming,
        (d.exits.lookup e.1).isSome → e.2 ∈ src.asked s scope none inst := by
      intro d hd e he hex
      rw [asked, hop]
      refine List.mem_map_of_mem (List.mem_filter.mpr ⟨he, ?_⟩)
      exact List.contains_iff_mem.mpr (mem_left.mpr ⟨d, hd, hex⟩)
    refine (sat_copyIncoming (fun d hd e he hex => ha.asks _ (hm d hd e he hex))
      ha.incoming (hE.imp_right fun h =>
        ⟨h.scope_lt, fun d hd e he hex => h.asks _ (hm d hd e he hex)⟩)).mono
      fun incoming' t h => ?_
    obtain ⟨hre, hin⟩ := h
    refine sat_emit (hE.imp_right fun h => hre.keeps.size ▸ h.scope_lt)
      fun d hd => ⟨_, rfl, ?_⟩
    rw [← hty]
    refine finishes_emitted hre hd ?_ (by simp) (staysIn_of_not_load (by simp [hop]))
    rw [hop]
    have hlt : scope.val < s.drafts.size := by
      rw [← hre.keeps.size]
      exact (Array.getElem?_eq_some_iff.mp hd).1
    obtain ⟨d', hd', hk⟩ := hre.keeps.drafts _ _ (Array.getElem?_eq_getElem hlt)
    obtain rfl := Option.mem_unique hd hd'
    refine .phi hd ?_
    rw [hk.exits]
    exact hin _ (Array.getElem?_eq_getElem hlt)

/-- A store writes the copied value to the copied address, or is left out and reported. -/
theorem sat_copyStore {v : Value} (hop : inst.op = .store v addr) :
    Act.Sat E (do
      let v ← src.getValue scope v
      match ← src.copyAddress scope i addr with
      | some addr => return some (← Emission.emit scope TypeId.void (.store v addr))
      | none => return none) s fun r t =>
        (∃ v, r = some v ∧ Finishes src allowed scope pred i inst s v t) ∨
          r = none ∧ Copied src allowed scope pred i inst s t := by
  have hty : inst.copyType = TypeId.void := by simp [Inst.copyType, hop]
  have hp : inst.op.isPhi = false := by rw [hop]; rfl
  have hv : v ∈ src.asked s scope pred inst := by simp [asked, resolved, hop, Operation.operands]
  have hi : ∀ w ∈ addr.indexValues, w ∈ src.asked s scope pred inst := fun w hw => by
    simp [asked, resolved, hop, Operation.operands, hw]
  simp only [Act.sat_bind]
  refine (sat_getValue (ha.asks v hv) (hE.imp_right fun h =>
    ⟨h.scope_lt, h.asks v hv⟩)).mono fun r t h => ?_
  obtain ⟨hre, hr⟩ := h
  refine (sat_copyAddress (fun w hw => ha.asks w (hi w hw)) ha.address
    (hE.imp_right fun h =>
    ⟨hre.keeps.size ▸ h.scope_lt, fun g hg => (h.global_lt addr g (by rw [hop]; rfl) hg).1,
      fun w hw => (h.asks w (hi w hw)).keeps hre.keeps⟩)).mono
    fun addr' u h => ?_
  obtain ⟨hr', had⟩ := h
  have hall : Reads src allowed s u := hre.trans hr'
  rcases had with ⟨a, rfl, had⟩ | ⟨rfl, rfl, -⟩
  · simp only [Act.sat_bind, Act.sat_pure]
    refine sat_emit (hE.imp_right fun h => hall.keeps.size ▸ h.scope_lt)
      fun d hd => .inl ⟨_, rfl, ?_⟩
    rw [← hty]
    exact finishes_emitted hall hd (by rw [hop]; exact .store (hr.keeps hr'.keeps) had)
      (by simp [hp]) (staysIn_of_not_load (by simp [hop]))
  · simp only [Act.sat_pure]
    exact .inr ⟨trivial, .skipped (.inr ⟨v, hop, r, hr.keeps hr'.keeps⟩) hall⟩

/-- A call declares its callee in the part first, then reads its arguments. -/
theorem sat_copyCall {callee : FuncId} {args : List Value}
    (hop : inst.op = .call (.direct callee) args) :
    Act.Sat E (do
      let decl ← Act.ofOption src.program.decls[callee]?
      let callee ← Emission.editDraft scope (·.declare decl)
      let args ← args.mapM (src.getValue scope)
      return some (← Emission.emit scope inst.ty (.call (.direct callee) args))) s fun r t =>
        ∃ v, r = some v ∧ Finishes src allowed scope pred i inst s v t := by
  have hty : inst.copyType = inst.ty := by simp [Inst.copyType, hop]
  have hp : inst.op.isPhi = false := by rw [hop]; rfl
  have har : ∀ v ∈ args, v ∈ src.asked s scope pred inst := fun v hv => by
    simp [asked, resolved, hop, Operation.operands, hv]
  simp only [Act.sat_bind, Act.sat_ofOption, sat_editDraft, Act.sat_pure]
  refine ⟨fun decl hde => ⟨fun d hd => ?_, fun hn => ?_⟩, fun hn => ?_⟩
  · have hs : ReadStep src allowed s (s.setDraft scope (d.declare decl).2) := .declare hd hde
    refine (sat_getValues (fun v hv => ha.asks v (har v hv))
      fun v hv => hE.imp_right fun h => ⟨hs.keeps.size ▸ h.scope_lt,
        (h.asks v (har v hv)).keeps hs.keeps⟩).mono
      fun args' t h => ?_
    obtain ⟨hr, ha'⟩ := h
    have hal : Reads src allowed s t := hr.head hs
    refine sat_emit (hE.imp_right fun h => hal.keeps.size ▸ h.scope_lt)
      fun d' hd' => ⟨_, rfl, ?_⟩
    rw [← hty]
    refine finishes_emitted hal hd' ?_ (by simp [hp]) (staysIn_of_not_load (by simp [hop]))
    rw [hop]
    obtain ⟨decl', hc, hna⟩ := declare_spec d.program decl
    obtain ⟨d'', hd'', hk⟩ := hr.keeps.drafts _ _ (getElem?_setDraft_self hd)
    obtain rfl := Option.mem_unique hd' hd''
    exact .call ⟨d', decl, decl', hd', hde, getElem?_extend hk.decls hc, hna⟩ ha'
  · exact Act.fault_of_array_none (hE.imp_right (·.scope_lt)) hn
  · exact Act.fault_of_list_none (hE.imp_right (·.callee_lt callee args hop)) hn

theorem sat_copyPlain (hp : inst.op.isPlain) :
    Act.Sat E (do
      let operands ← inst.op.operands.mapM (src.getValue scope)
      return some (← Emission.emit scope inst.ty (inst.op.withOperands operands))) s fun r t =>
        ∃ v, r = some v ∧ Finishes src allowed scope pred i inst s v t := by
  have hty : inst.copyType = inst.ty := by
    unfold Inst.copyType
    split
    · next h => simp [h, Operation.isPlain] at hp
    · rfl
  have hph : inst.op.isPhi = false := by
    cases hop : inst.op <;> simp_all [Operation.isPlain, Operation.isPhi]
  have has : src.asked s scope pred inst = inst.op.operands := by
    unfold asked resolved
    split <;> simp_all [Operation.isPlain]
  simp only [Act.sat_bind, Act.sat_pure]
  refine (sat_getValues (has ▸ ha.asks) fun v hv => hE.imp_right fun h =>
    ⟨h.scope_lt, h.asks v (has ▸ hv)⟩).mono fun operands t h => ?_
  obtain ⟨hr, ho⟩ := h
  refine sat_emit (hE.imp_right fun h => hr.keeps.size ▸ h.scope_lt) fun d hd => ⟨_, rfl, ?_⟩
  rw [← hty]
  refine finishes_emitted hr hd (.plain hp ho) (by simp [hph])
    (staysIn_of_not_load fun addr hop => ?_)
  simp [hop, Operation.isPlain] at hp

theorem sat_copyOperation (hin : src.func.insts[i]? = some inst) :
    Act.Sat E (src.copyOperation scope pred i inst) s fun r t =>
      (∃ v, r = some v ∧ Finishes src allowed scope pred i inst s v t) ∨
        r = none ∧ Copied src allowed scope pred i inst s t := by
  unfold copyOperation
  split
  · next incoming hop =>
    exact (sat_copyPhi ha hE hop hin).mono fun _ _ h => .inl h
  · next addr hop =>
    simp only [Act.sat_bind, Act.sat_pure]
    exact (sat_copyLoad ha hE hop hin).mono fun r _ h => .inl ⟨r, rfl, h⟩
  · next v addr hop => exact sat_copyStore ha hE hop
  · next callee args hop =>
    exact (sat_copyCall ha hE hop).mono fun _ _ h => .inl h
  · next v args hop =>
    simp only [Act.sat_bind, sat_report, Act.sat_pure]
    exact .inr ⟨trivial, .skipped (.inl ⟨v, args, hop⟩) (.single (.report ha.indirect))⟩
  · next hp hl hs hd hi =>
    refine (sat_copyPlain ha hE ?_).mono fun _ _ h => .inl h
    cases hop : inst.op with
    | phi incoming => exact absurd hop (hp incoming)
    | load addr => exact absurd hop (hl addr)
    | store v addr => exact absurd hop (hs v addr)
    | call callee args =>
      cases callee with
      | direct callee => exact absurd hop (hd callee args)
      | indirect v => exact absurd hop (hi v args)
    | _ => rfl

end

theorem Draft.keeps_noteVisit (d : Draft) (pred : Option BlockId) (i : InstId) :
    d.Keeps (d.noteVisit pred i) :=
  ⟨rfl, rfl, rfl, rfl, rfl, rfl, fun _ _ h => h, fun _ _ h => h, List.prefix_rfl, List.prefix_rfl⟩

/-- An instruction is copied as `Copied` says, if its operands can be had in the scope. -/
theorem sat_copyInst {allowed : Inst → Permit} (ha : ∀ inst, src.func.insts[i]? = some inst →
      src.MayRead (allowed inst) s scope pred i inst)
    (hE : Act.Tolerant E ∨ ∃ inst, src.func.insts[i]? = some inst ∧
      src.CanCopy s scope pred i inst) :
    Act.Sat E (src.copyInst scope pred i) s fun _ t => ∃ inst d,
      src.func.insts[i]? = some inst ∧ s.drafts[scope.val]? = some d ∧
      Copied src (allowed inst) scope pred i inst (s.setDraft scope (d.noteVisit pred i)) t := by
  unfold copyInst
  simp only [Source.inst, Act.sat_bind, Act.sat_ofOption, sat_updateDraft]
  refine ⟨fun inst hi => ⟨fun d hd => ?_, fun hn => ?_⟩, fun hn => ?_⟩
  · have hk : s.Keeps (s.setDraft scope (d.noteVisit pred i)) :=
      keeps_setDraft hd (Draft.keeps_noteVisit d pred i)
    have hE' : Act.Tolerant E ∨
        src.CanCopy (s.setDraft scope (d.noteVisit pred i)) scope pred i inst := by
      refine hE.imp_right fun h => ?_
      obtain ⟨inst', hi', h⟩ := h
      obtain rfl := Option.mem_unique hi hi'
      exact h.keeps hk
    refine (sat_copyOperation ((ha inst hi).keeps hk) hE' hi).mono fun r t h => ?_
    rcases h with ⟨v, rfl, h⟩ | ⟨rfl, h⟩
    · rw [sat_updateDraft]
      refine ⟨fun d' hd' => ⟨inst, d, hi, hd, h.2 d' hd'⟩, fun hn => ?_⟩
      have hlt : scope.val < t.drafts.size := by
        rw [h.1, size_setDraft]
        exact (Array.getElem?_eq_some_iff.mp hd).1
      exact absurd hlt (Nat.not_lt.mpr (Array.getElem?_eq_none_iff.mp hn))
    · exact ⟨inst, d, hi, hd, h⟩
  · refine Act.fault_of_array_none (hE.imp_right fun h => ?_) hn
    obtain ⟨_, _, h⟩ := h
    exact h.scope_lt
  · rcases hE with hE | ⟨inst, hi, _⟩
    · exact hE _
    · rw [hi] at hn
      exact absurd hn (by simp)

end Copy

end Source

end Stagewise
