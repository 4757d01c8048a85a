import Stagewise.Proofs.Emission.Projection
import Stagewise.Proofs.Emission.Sourcing

namespace Stagewise

def Address.field? : Address → Option Nat
  | .member _ (k :: _) => some k
  | .element _ (.fixed k :: _) => some k
  | _ => none

def TransferLayout.Touches (l : TransferLayout) (x : Scope) : Prop := x = l.src ∨ x = l.dst

def Ledger.ReadOf (l : Ledger) (types : TypePool) (key : RecordKey) (e : InstId) : Prop :=
  (∃ slot ∈ l.valuesOf types key, e = slot.read) ∨
    ∃ slot ∈ l.arraysOf types key, ∃ r ∈ slot.reads, e = r.1

theorem Program.getOrAddGlobal_eq (p : Program) (decl : GlobalDecl) :
    (p.getOrAddGlobal decl).2 = { p with globals := (p.getOrAddGlobal decl).2.globals } := by
  unfold getOrAddGlobal
  split <;> rfl

theorem Function.filter_instsOf_insertAt {f : Function} {b c : BlockId} {pos : Nat} {ty : TypeId}
    {op : Operation} (h : ∀ e ∈ f.instsOf c, e < f.numInsts) :
    ((f.insertAt b pos ty op).2.instsOf c).filter (· < f.numInsts) = f.instsOf c := by
  have hs : (f.instsOf c).filter (· < f.numInsts) = f.instsOf c :=
    List.filter_eq_self.mpr fun e he => decide_eq_true (h e he)
  by_cases hc : c = b
  · subst hc
    by_cases hlt : c < f.numBlocks
    · rw [insertAt_instsOf _ _ _ hlt, List.filter_append, List.filter_cons_of_neg (by simp),
        ← List.filter_append, List.take_append_drop, hs]
    · rw [instsOf_eq_nil (Nat.not_lt.mp hlt),
        instsOf_eq_nil (by rw [insertAt_numBlocks]; exact Nat.not_lt.mp hlt)]
      rfl
  · rw [insertAt_instsOf_ne _ _ _ hc, hs]

namespace Draft

variable {src : Source} {L M : TransferLayout → Prop} {F G : Nat → Prop} {x : Scope}
  {R S : InstId → Prop} {d d' d'' : Draft} {l : TransferLayout} {op : Operation}

def Redeclares (src : Source) (d : Draft) (g copy : GlobalId) : Prop :=
  ∃ decl, src.program.globals[g]? = some decl ∧ d.Calls copy decl.name

variable {g : GlobalId} {addr : Address} {copy : GlobalId}

theorem Redeclares.of_grown (h : d.Redeclares src g copy)
    (hbefore : d.program.globals <+: d'.program.globals) : d'.Redeclares src g copy := by
  obtain ⟨decl, hd, hc⟩ := h
  exact ⟨decl, hd, hc.of_grown hbefore⟩

theorem Redeclares.mirrors (h : d.Redeclares src g copy) : d.Mirrors src copy := by
  obtain ⟨decl, hd, decl', hd', hn⟩ := h
  exact ⟨decl', hd', decl, List.mem_of_getElem? hd, hn.symm⟩

/-- A binding of a part is that of one of some records, and the record has one of some fields. -/
structure Opens (L : TransferLayout → Prop) (F : Nat → Prop) (d : Draft) (l : TransferLayout)
    (record : GlobalId) (k : Nat) : Prop where
  layout : L l
  field : F k
  lt : k < l.fields.length
  calls : d.Calls record l.name

/-- The operations that laying out some fields of some records writes into the part of a scope. -/
inductive Wires (src : Source) (L : TransferLayout → Prop) (F : Nat → Prop) (x : Scope) (d : Draft) :
    Operation → Prop
  | lane {v : Value} : v.Sourced src d → Wires src L F x d (.extract v (.const (.int TypeId.int 0)))
  | element {g copy : GlobalId} (path : List Nat) : src.table.globalScope g = some x →
      d.Redeclares src g copy → Wires src L F x d (.load (.member copy path))
  | store {l : TransferLayout} {v : Value} {record : GlobalId} {k : Nat} : d.Opens L F l record k →
      x = l.src → v.Sourced src d → Wires src L F x d (.store v (.member record [k]))
  | storeElement {l : TransferLayout} {j : InstId} {record : GlobalId} {k : Nat} (position : Nat) :
      d.Opens L F l record k → x = l.src →
      Wires src L F x d (.store (.inst j) (.member record [k, position]))
  | load {l : TransferLayout} {record : GlobalId} {k : Nat} : d.Opens L F l record k → x = l.dst →
      Wires src L F x d (.load (.member record [k]))
  | loadElement {l : TransferLayout} {v : Value} {record : GlobalId} {k : Nat} :
      d.Opens L F l record k → x = l.dst → v.Sourced src d →
      Wires src L F x d (.load (.element record [.fixed k, .dynamic v]))

section Wires

variable (hL : ∀ l, L l → M l) (hF : ∀ k, F k → G k)
  (hbefore : d.program.globals <+: d'.program.globals)
include hL hF hbefore

theorem Opens.of_grown {record : GlobalId} {k : Nat} (h : d.Opens L F l record k) :
    d'.Opens M G l record k :=
  ⟨hL l h.layout, hF k h.field, h.lt, h.calls.of_grown hbefore⟩

theorem Wires.of_grown (h : d.Wires src L F x op) : d'.Wires src M G x op := by
  cases h with
  | lane hv => exact .lane (hv.of_grown hbefore)
  | element path hs hg => exact .element path hs (hg.of_grown hbefore)
  | store ho hx hv => exact .store (ho.of_grown hL hF hbefore) hx (hv.of_grown hbefore)
  | storeElement position ho hx => exact .storeElement position (ho.of_grown hL hF hbefore) hx
  | load ho hx => exact .load (ho.of_grown hL hF hbefore) hx
  | loadElement ho hx hv => exact .loadElement (ho.of_grown hL hF hbefore) hx (hv.of_grown hbefore)

end Wires

theorem Wires.grown (h : d.Wires src L F x op)
    (hbefore : d.program.globals <+: d'.program.globals) : d'.Wires src L F x op :=
  h.of_grown (fun _ => id) (fun _ => id) hbefore

theorem Wires.address (h : d.Wires src L F x op)
    (ha : op.address? = some addr) (hg : addr.global? = some g) :
    (∃ g0, src.table.globalScope g0 = some x ∧ d.Redeclares src g0 g) ∨
      ∃ l k, d.Opens L F l g k ∧ addr.field? = some k := by
  cases h with
  | lane _ => cases ha
  | element path hs hc =>
    cases ha
    cases hg
    exact .inl ⟨_, hs, hc⟩
  | store ho _ _ | storeElement _ ho _ | load ho _ | loadElement ho _ _ =>
    cases ha
    cases hg
    exact .inr ⟨_, _, ho, rfl⟩

theorem Wires.global_lt (h : d.Wires src L F x op)
    (ha : op.address? = some addr) (hg : addr.global? = some g) : g < d.program.numGlobals := by
  rcases h.address ha hg with ⟨-, -, -, -, _, hd, -⟩ | ⟨-, -, ⟨-, -, -, _, hd, -⟩, -⟩ <;>
    exact (List.getElem?_eq_some_iff.mp hd).1

def Patched (l : TransferLayout) (d : Draft) (e : InstId) : Prop :=
  ∃ inst addr record k, d.builder.func.insts[e]? = some inst ∧ inst.op = .load addr ∧
    addr.global? = some record ∧ addr.field? = some k ∧ d.Calls record l.name ∧
    k < l.fields.length

def recode (d : Draft) (decls : List GlobalDecl) (globals : List (GlobalId × GlobalId))
    (func : Function) : Draft :=
  { d with
    program := { d.program with globals := decls }
    globals := globals
    builder := { d.builder with func := func } }

/-- What laying out relies on: instructions stand where they say, and copies and bindings are there and
name only bindings of the source program. -/
structure Rooted (src : Source) (d : Draft) : Prop where
  entry_lt : d.entry < d.builder.func.numBlocks
  homed : d.builder.func.Homed
  listed : ∀ b, ∀ e ∈ d.builder.func.instsOf b, e < d.builder.func.numInsts
  copies : ∀ y ∈ d.copies, y.2.Placed d ∧ y.2.Sourced src d
  globals : ∀ g copy, d.globals.lookup g = some copy → d.Redeclares src g copy
  addresses : ∀ (e : InstId) (inst : Inst) (addr : Address) (g : GlobalId),
    d.builder.func.insts[e]? = some inst → inst.op.address? = some addr → addr.global? = some g →
    g < d.program.numGlobals

/-- What laying out some fields of some records may do to the part of a scope: the reads get another
address, and there are more instructions and bindings. -/
structure Edits (src : Source) (L : TransferLayout → Prop) (F : Nat → Prop) (x : Scope)
    (R : InstId → Prop) (d d' : Draft) : Prop where
  rooted : d'.Rooted src
  same : d' = d.recode d'.program.globals d'.globals d'.builder.func
  entry : d'.entry = d.entry
  numBlocks : d'.builder.func.numBlocks = d.builder.func.numBlocks
  ends : ∀ b, d'.builder.func.terminator? b = d.builder.func.terminator? b
  listed : ∀ b, (d'.builder.func.instsOf b).filter (· < d.builder.func.numInsts)
    = d.builder.func.instsOf b
  bindings : d.program.globals <+: d'.program.globals
  known : d.globals ⊆ d'.globals
  names : ∀ decl ∈ d'.program.globals, decl ∈ d.program.globals ∨
    (∃ decl' ∈ src.program.globals, decl'.name = decl.name) ∨
      ∃ l, L l ∧ l.Touches x ∧ decl = .plain l.name l.record
  distinct : (d.program.globals.map GlobalDecl.name).Nodup →
    (d'.program.globals.map GlobalDecl.name).Nodup
  kept : ∀ (e : InstId) (inst : Inst), d.builder.func.insts[e]? = some inst → ¬R e →
    d'.builder.func.insts[e]? = some inst
  patched : ∀ (e : InstId) (inst : Inst), d.builder.func.insts[e]? = some inst → R e →
    (∃ addr, inst.op = .load addr) ∧
      (∃ addr, d'.builder.func.insts[e]? = some { inst with op := .load addr }) ∧
      ∃ l, L l ∧ d'.Patched l e
  written : ∀ (e : InstId) (inst : Inst), d'.builder.func.insts[e]? = some inst →
    (d.builder.func.insts[e]? = some inst ∧ ¬R e) ∨ d'.Wires src L F x inst.op

theorem Edits.refl (h : d.Rooted src) : d.Edits src L F x (fun _ => False) d :=
  ⟨h, rfl, rfl, rfl, fun _ => rfl, fun b => List.filter_eq_self.mpr fun e he =>
    decide_eq_true (h.listed b e he), List.prefix_rfl, List.Subset.refl _, fun _ hd => .inl hd, id,
    fun _ _ he _ => he, fun _ _ _ => False.elim, fun _ _ he => .inl ⟨he, id⟩⟩

section Edits

variable (h : d.Edits src L F x R d')
include h

theorem Edits.copies : d'.copies = d.copies := by
  rw [h.same]
  rfl

theorem Edits.reads : d'.reads = d.reads := by
  rw [h.same]
  rfl

theorem Edits.retains : d.Retains d' :=
  ⟨h.copies ▸ List.Subset.refl _, h.reads ▸ List.Subset.refl _, h.known⟩

variable {e : InstId} {inst : Inst}

theorem Edits.exists_inst (he : d.builder.func.insts[e]? = some inst) :
    d'.builder.func.insts[e]? = some inst ∧ ¬R e ∨
      R e ∧ (∃ addr, inst.op = .load addr) ∧
        ∃ addr, d'.builder.func.insts[e]? = some { inst with op := .load addr } := by
  by_cases hR : R e
  · obtain ⟨hl, hl', -⟩ := h.patched e inst he hR
    exact .inr ⟨hR, hl, hl'⟩
  · exact .inl ⟨h.kept e inst he hR, hR⟩

theorem Edits.loads (he : d.Loads e) : d'.Loads e := by
  obtain ⟨inst, addr, hi, hop⟩ := he
  rcases h.exists_inst hi with ⟨he', -⟩ | ⟨-, -, addr', he'⟩
  · exact ⟨inst, addr, he', hop⟩
  · exact ⟨_, addr', he', rfl⟩

theorem Edits.getElem? (he : d.builder.func.insts[e]? = some inst)
    (hop : ∀ addr, inst.op ≠ .load addr) : d'.builder.func.insts[e]? = some inst := by
  rcases h.exists_inst he with ⟨he', -⟩ | ⟨-, ⟨addr, ha⟩, -⟩
  · exact he'
  · exact absurd ha (hop addr)

theorem Edits.numInsts_le : d.builder.func.numInsts ≤ d'.builder.func.numInsts := by
  by_contra hlt
  have he := Array.getElem?_eq_getElem (Nat.not_le.mp hlt)
  rcases h.exists_inst he with ⟨he', -⟩ | ⟨-, -, addr, he'⟩ <;>
    exact absurd (Array.getElem?_eq_some_iff.mp he').1 (Nat.lt_irrefl _)

theorem Edits.sublist (b : BlockId) :
    (d.builder.func.instsOf b).Sublist (d'.builder.func.instsOf b) :=
  h.listed b ▸ List.filter_sublist

theorem Edits.patched_of (he : d.Patched l e) (hR : ¬R e) : d'.Patched l e := by
  obtain ⟨inst, addr, record, k, hi, hop, hr, hk, hc, hlt⟩ := he
  exact ⟨inst, addr, record, k, h.kept e inst hi hR, hop, hr, hk,
    hc.of_grown h.bindings, hlt⟩

theorem Edits.trans (h' : d'.Edits src L F x S d'') :
    d.Edits src L F x (fun e => R e ∨ S e) d'' := by
  refine ⟨h'.rooted, h'.same.trans (by rw [h.same]; rfl), h'.entry.trans h.entry,
    h'.numBlocks.trans h.numBlocks, fun b => (h'.ends b).trans (h.ends b), fun b => ?_,
    h.bindings.trans h'.bindings, List.Subset.trans h.known h'.known,
    fun decl hd => (h'.names decl hd).elim (h.names decl) .inr,
    fun hn => h'.distinct (h.distinct hn), fun e inst he hR => ?_, fun e inst he hR => ?_,
    fun e inst he => ?_⟩
  · rw [← h.listed b, ← h'.listed b, List.filter_filter]
    refine List.filter_congr fun e _ => ?_
    have hle := h.numInsts_le
    by_cases he : e < d.builder.func.numInsts <;> simp [he]
    omega
  · exact h'.kept e inst (h.kept e inst he fun hr => hR (.inl hr)) fun hr => hR (.inr hr)
  · rcases h.exists_inst he with ⟨he', hRe⟩ | ⟨hRe, hlo, addr, he'⟩
    · exact h'.patched e inst he' (hR.resolve_left hRe)
    · rcases h'.exists_inst he' with ⟨he'', hSe⟩ | ⟨hSe, -⟩
      · obtain ⟨l, hl, hp⟩ := (h.patched e inst he hRe).2.2
        exact ⟨hlo, ⟨addr, he''⟩, l, hl, h'.patched_of hp hSe⟩
      · obtain ⟨-, ⟨addr', he''⟩, hp⟩ := h'.patched e _ he' hSe
        exact ⟨hlo, ⟨addr', he''⟩, hp⟩
  · rcases h'.written e inst he with ⟨hm, hn'⟩ | hne
    · rcases h.written e inst hm with ⟨ho, hno⟩ | hw
      · exact .inl ⟨ho, fun hr => hr.elim hno hn'⟩
      · exact .inr (hw.grown h'.bindings)
    · exact .inr hne

theorem Edits.congr (hR : ∀ e, R e ↔ S e) : d.Edits src L F x S d' := by
  obtain rfl : R = S := funext fun e => propext (hR e)
  exact h

theorem Edits.mono (hL : ∀ l, L l → M l) (hF : ∀ k, F k → G k) : d.Edits src M G x R d' := by
  refine ⟨h.rooted, h.same, h.entry, h.numBlocks, h.ends, h.listed, h.bindings, h.known, fun decl hd => ?_,
    h.distinct, h.kept, fun e inst he hR => ?_, fun e inst he => ?_⟩
  · exact (h.names decl hd).imp_right fun hn => hn.imp_right fun ⟨l, hl, hr⟩ =>
      ⟨l, hL l hl, hr⟩
  · obtain ⟨hlo, hl', l, hl, hp⟩ := h.patched e inst he hR
    exact ⟨hlo, hl', l, hL l hl, hp⟩
  · exact (h.written e inst he).imp_right fun hw => hw.of_grown hL hF List.prefix_rfl

end Edits

theorem Edits.then (h : d.Edits src L F x (fun _ => False) d')
    (h' : d'.Edits src L F x S d'') : d.Edits src L F x S d'' :=
  (h.trans h').congr fun _ => by simp

section

variable (h : d.Rooted src) {block : BlockId}
include h

theorem edits_globals {decls : List GlobalDecl} {globals : List (GlobalId × GlobalId)}
    (hbefore : d.program.globals <+: decls) (hk : d.globals ⊆ globals)
    (hgl : ∀ g copy, globals.lookup g = some copy →
      (d.recode decls globals d.builder.func).Redeclares src g copy)
    (hn : ∀ decl ∈ decls, decl ∈ d.program.globals ∨
      (∃ decl' ∈ src.program.globals, decl'.name = decl.name) ∨
        ∃ l, L l ∧ l.Touches x ∧ decl = .plain l.name l.record)
    (hd : (d.program.globals.map GlobalDecl.name).Nodup →
      (decls.map GlobalDecl.name).Nodup) :
    d.Edits src L F x (fun _ => False) (d.recode decls globals d.builder.func) := by
  refine ⟨⟨h.entry_lt, h.homed, h.listed, fun y hy => ⟨(h.copies y hy).1,
    (h.copies y hy).2.of_grown hbefore⟩, hgl, fun e inst addr g he ha hg => ?_⟩, rfl, rfl, rfl,
    fun _ => rfl, (Edits.refl (L := L) (F := F) (x := x) h).listed, hbefore, hk, hn, hd,
    fun _ _ he _ => he, fun _ _ _ => False.elim, fun _ _ he => .inl ⟨he, id⟩⟩
  exact Nat.lt_of_lt_of_le (h.addresses e inst addr g he ha hg) hbefore.length_le

theorem edits_declareRecord (hl : L l) (hx : l.Touches x) :
    d.Edits src L F x (fun _ => False) (d.declareRecord (.plain l.name l.record)).2 := by
  have hbefore := d.program.globals_getOrAddGlobal (.plain l.name l.record)
  have heq : (d.declareRecord (.plain l.name l.record)).2 = d.recode
      (d.program.getOrAddGlobal (.plain l.name l.record)).2.globals d.globals d.builder.func :=
    congrArg (fun p => { d with program := p }) (Program.getOrAddGlobal_eq ..)
  rw [heq]
  refine edits_globals h hbefore (List.Subset.refl _) (fun g copy hg => (h.globals g copy hg).of_grown hbefore)
    (fun decl hd => ?_) fun hn => Program.nodup_getOrAddGlobal hn _
  rcases mem_globals_declareRecord hd with ho | rfl
  · exact .inl ho
  · exact .inr (.inr ⟨l, hl, hx, rfl⟩)

theorem edits_declareGlobal {decl : GlobalDecl} (hd : src.program.globals[g]? = some decl) :
    d.Edits src L F x (fun _ => False) (d.declareGlobal g decl).2 := by
  have hbefore := d.program.globals_getOrAddGlobal decl
  have heq : (d.declareGlobal g decl).2 = d.recode (d.program.getOrAddGlobal decl).2.globals
      ((g, (d.program.getOrAddGlobal decl).1) :: d.globals) d.builder.func :=
    congrArg (fun p : Program => { d with
      program := p, globals := (g, (d.program.getOrAddGlobal decl).1) :: d.globals })
      (d.program.getOrAddGlobal_eq decl)
  rw [heq]
  refine edits_globals h hbefore (List.subset_cons_self ..) (fun g' copy hg' => ?_) (fun decl' hd' => ?_)
    fun hn => Program.nodup_getOrAddGlobal hn _
  · rw [List.lookup_cons] at hg'
    split at hg'
    · next hs =>
      obtain rfl := beq_iff_eq.mp hs
      obtain rfl := Option.some.inj hg'
      exact ⟨decl, hd, d.program.getOrAddGlobal_name decl⟩
    · exact (h.globals g' copy hg').of_grown hbefore
  · rcases mem_globals_declareRecord hd' with ho | rfl
    · exact .inl ho
    · exact .inr (.inl ⟨_, List.mem_of_getElem? hd, rfl⟩)

theorem edits_insertAt (hb : block < d.builder.func.numBlocks) (pos : Nat) (ty : TypeId)
    (hop : d.Wires src L F x op) :
    d.Edits src L F x (fun _ => False) { d with builder := { d.builder with
      func := (d.builder.func.insertAt block pos ty op).2 } } := by
  have hle : d.builder.func.numInsts ≤ (d.builder.func.insertAt block pos ty op).2.numInsts := by
    rw [Function.insertAt_numInsts]
    exact Nat.le_succ _
  refine ⟨⟨?_, h.homed.insertAt _ _ _ hb, fun _ => Function.listed_insertAt h.listed,
    fun y hy => ⟨(h.copies y hy).1.mono hle, (h.copies y hy).2⟩, h.globals,
    fun e inst addr g he ha hg => ?_⟩, rfl, rfl, Function.insertAt_numBlocks ..,
    fun _ => Function.insertAt_terminator? .., fun b => Function.filter_instsOf_insertAt (h.listed b),
    List.prefix_rfl, List.Subset.refl _, fun _ hd => .inl hd, id, fun e inst he _ => ?_,
    fun _ _ _ => False.elim,
    fun e inst he => ?_⟩
  · show d.entry < (d.builder.func.insertAt block pos ty op).2.numBlocks
    rw [Function.insertAt_numBlocks]
    exact h.entry_lt
  · rcases Function.insertAt_getElem?_cases he with ho | ⟨-, rfl⟩
    · exact h.addresses e inst addr g ho ha hg
    · exact hop.global_lt ha hg
  · exact (Function.insertAt_getElem?_insts _ _ _ _ (Array.getElem?_eq_some_iff.mp he).1).trans he
  · rcases Function.insertAt_getElem?_cases he with ho | ⟨-, rfl⟩
    · exact .inl ⟨ho, id⟩
    · exact .inr (hop.grown List.prefix_rfl)

theorem edits_append (hb : block < d.builder.func.numBlocks) (ty : TypeId)
    (hop : d.Wires src L F x op) : d.Edits src L F x (fun _ => False) (d.append block ty op).2 :=
  edits_insertAt h hb _ ty hop

/-- Giving a load the address of an open field is an edit, and the load is the one read it patches.
-/
theorem edits_setOp {e : InstId} (hl : d.Loads e) {record : GlobalId} {k : Nat}
    (hop : d.Wires src L F x (.load addr)) (hgl : addr.global? = some record)
    (hf : addr.field? = some k) (ho : d.Opens L F l record k) :
    d.Edits src L F x (fun e' => e' = e) (d.setOp e (.load addr)) := by
  have hge : ∀ e', (d.setOp e (.load addr)).builder.func.insts[e']?
      = if e = e' then (d.builder.func.insts[e']?).map ({ · with op := .load addr })
        else d.builder.func.insts[e']? := fun e' => Function.setOp_getElem?_insts ..
  have hs : (d.setOp e (.load addr)).builder.func.numInsts = d.builder.func.numInsts :=
    Function.setOp_numInsts ..
  refine ⟨⟨h.entry_lt, fun e' inst he => ?_, fun b e' he => hs ▸ h.listed b e' he,
    fun y hy => ⟨(h.copies y hy).1.mono (Nat.le_of_eq hs.symm), (h.copies y hy).2⟩, h.globals,
    fun e' inst addr' g he ha hg => ?_⟩, rfl, rfl, rfl, fun _ => rfl,
    (Edits.refl (L := L) (F := F) (x := x) h).listed, List.prefix_rfl, List.Subset.refl _,
    fun _ hd => .inl hd, id, fun e' inst he hne => ?_, fun e' inst he heq => ?_, fun e' inst he => ?_⟩
  · rcases Function.setOp_getElem?_cases he with ⟨hol, -⟩ | ⟨-, inst', hol, rfl⟩
    · exact h.homed e' inst hol
    · exact h.homed e' inst' hol
  · rcases Function.setOp_getElem?_cases he with ⟨hol, -⟩ | ⟨-, inst', -, rfl⟩
    · exact h.addresses e' inst addr' g hol ha hg
    · exact hop.global_lt ha hg
  · rw [hge, if_neg (Ne.symm hne), he]
  · have hn : (d.setOp e (.load addr)).builder.func.insts[e']? = some { inst with op := .load addr } := by
      rw [hge, if_pos heq.symm, he]
      rfl
    obtain ⟨inst', addr', hi', hop'⟩ := hl
    obtain rfl := Option.mem_unique (heq ▸ hi') he
    exact ⟨⟨addr', hop'⟩, ⟨addr, hn⟩, l, ho.layout, _, addr, record, k, hn, rfl, hgl, hf,
      ho.calls, ho.lt⟩
  · rcases Function.setOp_getElem?_cases he with hol | ⟨-, inst', -, rfl⟩
    · exact .inl hol
    · exact .inr (hop.grown List.prefix_rfl)

end

section Records

variable {record : GlobalId} {k : Nat}

variable {v : Value}

section

variable (h : d.Rooted src)
include h

theorem Rooted.mem_homeOf (hv : v.Placed d) :
    v.inst?.toList.Sublist (d.builder.func.instsOf (d.homeOf v)) := by
  cases v with
  | inst j =>
    have hj := Array.getElem?_eq_getElem (hv j rfl)
    have hm := h.homed j _ hj
    simp only [homeOf, hj, Option.elim]
    exact List.singleton_sublist.mpr hm
  | const c | global g => exact List.nil_sublist _

theorem Rooted.homeOf_lt (hv : v.Placed d) : d.homeOf v < d.builder.func.numBlocks := by
  cases v with
  | inst j =>
    have hm : j ∈ d.builder.func.instsOf (d.homeOf (.inst j)) :=
      (h.mem_homeOf hv).subset (by simp [Value.inst?])
    exact Function.lt_of_mem_instsOf hm
  | const c | global g => exact h.entry_lt

theorem edits_storeField (slot : ValueSlot) (hv : v.Placed d) (hso : v.Sourced src d)
    (ho : d.Opens L F l record k) (hx : x = l.src) :
    d.Edits src L F x (fun _ => False) (d.storeField record k slot v) := by
  have hh := h.homeOf_lt hv
  cases hs : slot.scalarized with
  | false =>
    rw [storeField_whole hs]
    exact edits_append h hh _ (.store ho hx hso)
  | true =>
    rw [storeField_lane hs]
    have hl := edits_append (L := L) (F := F) (x := x) h hh slot.ty (.lane hso)
    refine hl.then (edits_append hl.rooted ?_ _ (.store (ho.of_grown (fun _ => id) (fun _ => id)
      hl.bindings) hx .of_inst))
    rw [hl.numBlocks]
    exact hh

theorem edits_copyElements (slot : ArraySlot) {g copy : GlobalId}
    (hsc : src.table.globalScope g = some x) (hg : d.Redeclares src g copy)
    (ho : d.Opens L F l record k) (hx : x = l.src) :
    d.Edits src L F x (fun _ => False) (d.copyElements record k slot copy) := by
  unfold copyElements
  induction List.range slot.len generalizing d with
  | nil => exact .refl h
  | cons position rest ih =>
    have hl := edits_insertAt (L := L) (F := F) (x := x) h h.entry_lt (2 * position) slot.elem
      (.element (slot.path.map (·.getD position)) hsc hg)
    have hs : d.Edits src L F x (fun _ => False) (copyPosition record k slot copy d position) :=
      hl.then (edits_insertAt hl.rooted hl.rooted.entry_lt (2 * position + 1) TypeId.void
        (.storeElement position (ho.of_grown (fun _ => id) (fun _ => id) hl.bindings) hx))
    exact hs.then (ih hs.rooted (hg.of_grown hs.bindings)
      (ho.of_grown (fun _ => id) (fun _ => id) hs.bindings))

theorem edits_patchReads (slot : ArraySlot) (hr : ∀ r ∈ slot.reads, d.Loads r.1 ∧ r.2.Sourced src d)
    (ho : d.Opens L F l record k) (hx : x = l.dst) :
    d.Edits src L F x (fun e => ∃ r ∈ slot.reads, e = r.1) (d.patchReads record k slot) := by
  unfold patchReads
  generalize slot.reads = reads at hr ⊢
  induction reads generalizing d with
  | nil => exact (Edits.refl h).congr fun e => by simp
  | cons r rest ih =>
    obtain ⟨hl, hs⟩ := hr r List.mem_cons_self
    have hst := edits_setOp h hl (.loadElement ho hx hs) rfl rfl ho
    have hre := ih hst.rooted (ho.of_grown (fun _ => id) (fun _ => id) hst.bindings) fun y hy => by
      obtain ⟨hl, hs⟩ := hr y (List.mem_cons_of_mem _ hy)
      exact ⟨hst.loads hl, hs.of_grown hst.bindings⟩
    exact (hst.trans hre).congr fun e => by simp

end

end Records

end Draft

namespace Emission

variable {src : Source} {L M : TransferLayout → Prop} {F G : Nat → Prop}
  {R S : Scope → InstId → Prop} {s t u : Emission} {scope : Scope} {d d' : Draft}

structure Rooted (src : Source) (s : Emission) : Prop where
  drafts : ∀ (x : Scope) (d : Draft), s.drafts[x.val]? = some d → d.Rooted src
  loads : ∀ (x : Scope) e, s.Expects x.val e → s.Meets x (·.Loads e)
  indices : ∀ slot ∈ s.ledger.arrays, ∀ r ∈ slot.reads, s.Meets slot.dst (r.2.Sourced src)
  owned : ∀ slot ∈ s.ledger.arrays, src.table.globalScope slot.global = some slot.src

/-- What laying out some fields of some records may do to the parts. -/
structure Edits (src : Source) (L : TransferLayout → Prop) (F : Nat → Prop)
    (R : Scope → InstId → Prop) (s t : Emission) : Prop where
  rooted : t.Rooted src
  types : s.types.Extends t.types
  size : t.drafts.size = s.drafts.size
  values : t.ledger.values = s.ledger.values
  arrays : t.ledger.arrays = s.ledger.arrays
  drafts : ∀ (x : Scope) (d : Draft), s.drafts[x.val]? = some d →
    ∃ d', t.drafts[x.val]? = some d' ∧ d.Edits src L F x (R x) d'
  others : ∀ n, 256 ≤ n → t.drafts[n]? = s.drafts[n]?

theorem edits_of_drafts_eq (h : s.Rooted src) (ht : s.types.Extends t.types)
    (hdr : t.drafts = s.drafts) (hv : t.ledger.values = s.ledger.values)
    (ha : t.ledger.arrays = s.ledger.arrays) : s.Edits src L F (fun _ _ => False) t := by
  refine ⟨⟨hdr ▸ h.drafts, ?_, ?_, ha ▸ h.owned⟩, ht, by rw [hdr], hv, ha,
    fun x d hd => ⟨d, hdr ▸ hd, .refl (h.drafts x d hd)⟩, fun n _ => by rw [hdr]⟩
  · simpa only [Expects, Meets, hdr, hv, ha] using h.loads
  · rw [ha]
    exact fun slot hs r hr d hd => h.indices slot hs r hr d (hdr ▸ hd)

theorem Edits.refl (h : s.Rooted src) : s.Edits src L F (fun _ _ => False) s :=
  edits_of_drafts_eq h (.refl _) rfl rfl rfl

section Edits

variable (h : s.Edits src L F R t)
include h

theorem Edits.back (hd' : t.drafts[scope.val]? = some d') :
    ∃ d, s.drafts[scope.val]? = some d ∧ d.Edits src L F scope (R scope) d' := by
  obtain ⟨hlt, -⟩ := Array.getElem?_eq_some_iff.mp hd'
  have hd := Array.getElem?_eq_getElem (h.size ▸ hlt : scope.val < s.drafts.size)
  obtain ⟨d'', hd'', he⟩ := h.drafts scope _ hd
  obtain rfl := Option.mem_unique hd'' hd'
  exact ⟨_, hd, he⟩

theorem Edits.trans (h' : t.Edits src L F S u) :
    s.Edits src L F (fun x e => R x e ∨ S x e) u := by
  refine ⟨h'.rooted, h.types.trans h'.types, h'.size.trans h.size, h'.values.trans h.values,
    h'.arrays.trans h.arrays, fun x d hd => ?_, fun n hn => (h'.others n hn).trans (h.others n hn)⟩
  obtain ⟨d', hd', he⟩ := h.drafts x d hd
  obtain ⟨d'', hd'', he'⟩ := h'.drafts x d' hd'
  exact ⟨d'', hd'', he.trans he'⟩

theorem Edits.congr (hR : ∀ x e, R x e ↔ S x e) : s.Edits src L F S t := by
  obtain rfl : R = S := funext fun x => funext fun e => propext (hR x e)
  exact h

theorem Edits.mono (hL : ∀ l, L l → M l) (hF : ∀ k, F k → G k) : s.Edits src M G R t :=
  ⟨h.rooted, h.types, h.size, h.values, h.arrays, fun x d hd => by
    obtain ⟨d', hd', he⟩ := h.drafts x d hd
    exact ⟨d', hd', he.mono hL hF⟩, h.others⟩

end Edits

theorem Edits.then (h : s.Edits src L F (fun _ _ => False) t) (h' : t.Edits src L F S u) :
    s.Edits src L F S u :=
  (h.trans h').congr fun _ _ => by simp

theorem edits_setDraft {R : InstId → Prop} (h : s.Rooted src) (hd : s.drafts[scope.val]? = some d)
    (he : d.Edits src L F scope R d') :
    s.Edits src L F (fun x e => x = scope ∧ R e) (s.setDraft scope d') := by
  refine ⟨⟨fun x e' he' => ?_, fun x e hx => (h.loads x e hx).setDraft hd he.loads,
    fun slot hsl r hr => (h.indices slot hsl r hr).setDraft hd fun hr => hr.of_grown he.bindings,
    h.owned⟩, .refl _, size_setDraft .., rfl, rfl, fun x e hx => ?_,
    fun n hn => getElem?_setDraft_ne (by have := scope.isLt; omega)⟩
  · rcases setDraft_scope_cases hd he' with ⟨rfl, rfl⟩ | ⟨-, he'⟩
    · exact he.rooted
    · exact h.drafts x e' he'
  · by_cases hs : x = scope
    · subst hs
      obtain rfl := Option.mem_unique hd hx
      exact ⟨d', getElem?_setDraft_self hd, he.congr fun i => by simp⟩
    · refine ⟨e, by rw [getElem?_setDraft_ne fun hv => hs (Fin.ext hv), hx], ?_⟩
      exact (Draft.Edits.refl (h.drafts x e hx)).congr fun i => by simp [hs]

theorem edits_setDraft_none (h : s.Rooted src) (hd : s.drafts[scope.val]? = some d)
    (he : d.Edits src L F scope (fun _ => False) d') :
    s.Edits src L F (fun _ _ => False) (s.setDraft scope d') :=
  (edits_setDraft h hd he).congr fun _ _ => by simp

def Holds (l : TransferLayout) (x : Scope) (s : Emission) : Prop :=
  ∃ d g, s.drafts[x.val]? = some d ∧ d.Calls g l.name

theorem Holds.edits {l : TransferLayout} {x : Scope} (h : Holds l x s) (he : s.Edits src L F R t) :
    Holds l x t := by
  obtain ⟨d, g, hd, hg⟩ := h
  obtain ⟨d', hd', hed⟩ := he.drafts _ d hd
  exact ⟨d', g, hd', hg.of_grown hed.bindings⟩

section Wiring

variable {l : TransferLayout} {values : List ValueSlot} {arrays : List ArraySlot} {k : Nat}
  {stored loaded : GlobalId} {e : Draft}

theorem edits_wireValue {slot : ValueSlot} {v : Value} (hs : s.Rooted src)
    (hk : k < l.fields.length) (hsl : slot ∈ s.ledger.values) (hds : slot.dst = l.dst)
    (hd : s.drafts[l.src.val]? = some d) (hsto : d.Calls stored l.name)
    (hv : d.copies.lookup slot.source = some v)
    (he : (s.setDraft l.src (d.storeField stored k slot v)).drafts[l.dst.val]? = some e)
    (hl : e.Calls loaded l.name) :
    s.Edits src (· = l) (· = k) (fun x i => x = l.dst ∧ i = slot.read)
      ((s.setDraft l.src (d.storeField stored k slot v)).setDraft l.dst
        (e.setOp slot.read (.load (.member loaded [k])))) := by
  obtain ⟨hp, hso⟩ := (hs.drafts _ d hd).copies (slot.source, v) (mem_of_lookup hv)
  have hst := edits_setDraft_none hs hd (Draft.edits_storeField (L := (· = l)) (F := (· = k))
    (hs.drafts _ d hd) slot hp hso ⟨rfl, rfl, hk, hsto⟩ rfl)
  have ho : e.Opens (· = l) (· = k) l loaded k := ⟨rfl, rfl, hk, hl⟩
  exact hst.then (edits_setDraft hst.rooted he (Draft.edits_setOp (hst.rooted.drafts _ e he)
    (hst.rooted.loads _ _ (.inl ⟨slot, hsl, congrArg Fin.val hds, rfl⟩) e he) (.load ho rfl) rfl rfl
    ho))

theorem edits_wireArray {slot : ArraySlot} {g : GlobalId} (hs : s.Rooted src)
    (hk : k < l.fields.length) (hsl : slot ∈ s.ledger.arrays) (hsr : slot.src = l.src)
    (hds : slot.dst = l.dst) (hd : s.drafts[l.src.val]? = some d) (hst : d.Calls stored l.name)
    (hg : d.globals.lookup slot.global = some g)
    (he : (s.setDraft l.src (d.copyElements stored k slot g)).drafts[l.dst.val]? = some e)
    (hl : e.Calls loaded l.name) :
    s.Edits src (· = l) (· = k) (fun x i => x = l.dst ∧ ∃ r ∈ slot.reads, i = r.1)
      ((s.setDraft l.src (d.copyElements stored k slot g)).setDraft l.dst
        (e.patchReads loaded k slot)) := by
  have hc := edits_setDraft_none hs hd (Draft.edits_copyElements (L := (· = l)) (F := (· = k))
    (hs.drafts _ d hd) slot (hsr ▸ hs.owned slot hsl) ((hs.drafts _ d hd).globals _ g hg)
    ⟨rfl, rfl, hk, hst⟩ rfl)
  exact hc.then (edits_setDraft hc.rooted he (Draft.edits_patchReads (hc.rooted.drafts _ e he)
    slot (fun r hr => ⟨hc.rooted.loads _ _ (.inr ⟨slot, hsl, congrArg Fin.val hds, r, hr, rfl⟩) e he,
      hc.rooted.indices slot hsl r hr e (hds ▸ he)⟩) ⟨rfl, rfl, hk, hl⟩ rfl))

/-- An instruction reads a field of a record: the arrays come after the values. -/
def ReadsAt (values : List ValueSlot) (arrays : List ArraySlot) (f : Nat) (e : InstId) : Prop :=
  (∃ slot, values[f]? = some slot ∧ e = slot.read) ∨
    ∃ j slot, f = values.length + j ∧ arrays[j]? = some slot ∧ ∃ r ∈ slot.reads, e = r.1

theorem exists_readsAt_iff {i : InstId} :
    (∃ f, f < values.length + arrays.length ∧ ReadsAt values arrays f i) ↔
      (∃ slot ∈ values, i = slot.read) ∨ ∃ slot ∈ arrays, ∃ r ∈ slot.reads, i = r.1 := by
  constructor
  · rintro ⟨f, -, ⟨slot, hs, heq⟩ | ⟨j, slot, -, hs, hr⟩⟩
    · exact .inl ⟨slot, List.mem_of_getElem? hs, heq⟩
    · exact .inr ⟨slot, List.mem_of_getElem? hs, hr⟩
  · rintro (⟨slot, hs, heq⟩ | ⟨slot, hs, hr⟩)
    · obtain ⟨f, hf⟩ := List.mem_iff_getElem?.mp hs
      exact ⟨f, Nat.lt_add_right _ (List.getElem?_eq_some_iff.mp hf).1, .inl ⟨slot, hf, heq⟩⟩
    · obtain ⟨j, hj⟩ := List.mem_iff_getElem?.mp hs
      exact ⟨_, Nat.add_lt_add_left (List.getElem?_eq_some_iff.mp hj).1 _, .inr ⟨j, slot, rfl, hj, hr⟩⟩

/-- Wiring fields writes to these fields and gives their reads an address, and no more. -/
theorem WireStep.edits {k' : Nat} (h : WireStep src l values arrays s k k' t) (hs : s.Rooted src)
    (hfi : values.length + arrays.length ≤ l.fields.length)
    (hva : ∀ slot ∈ values, slot ∈ s.ledger.values ∧ slot.dst = l.dst)
    (ha : ∀ slot ∈ arrays, slot ∈ s.ledger.arrays ∧ slot.src = l.src ∧ slot.dst = l.dst) :
    s.Edits src (· = l) (fun f => k ≤ f ∧ f < k')
      (fun x e => x = l.dst ∧ ∃ f, (k ≤ f ∧ f < k') ∧ ReadsAt values arrays f e) t := by
  cases h with
  | @global _ d g decl hd _ hde =>
    refine (edits_setDraft_none hs hd (Draft.edits_declareGlobal (hs.drafts _ d hd) hde)).congr
      fun x e => ⟨False.elim, fun ⟨_, f, hf, _⟩ => ?_⟩
    omega
  | @value _ slot stored loaded v d e hsl hd hst hv he hl =>
    have hlt := (List.getElem?_eq_some_iff.mp hsl).1
    obtain ⟨hm, hds⟩ := hva slot (List.mem_of_getElem? hsl)
    refine ((edits_wireValue hs (by omega) hm hds hd hst hv he hl).mono (fun _ => id)
      fun f hf => by omega).congr fun x i => and_congr_right fun _ => ⟨fun hi => ?_, ?_⟩
    · exact ⟨k, ⟨Nat.le_refl _, Nat.lt_succ_self _⟩, .inl ⟨slot, hsl, hi⟩⟩
    · rintro ⟨f, hf, ⟨slot', hs', rfl⟩ | ⟨j, _, rfl, _⟩⟩
      · obtain rfl : f = k := by omega
        rw [Option.mem_unique hs' hsl]
      · omega
  | @array j slot stored loaded g d e hsl hd hst hg he hl =>
    have hlt := (List.getElem?_eq_some_iff.mp hsl).1
    obtain ⟨hm, hsr, hds⟩ := ha slot (List.mem_of_getElem? hsl)
    refine ((edits_wireArray hs (by omega) hm hsr hds hd hst hg he hl).mono (fun _ => id)
      fun f hf => by omega).congr fun x i => and_congr_right fun _ => ⟨fun hi => ?_, ?_⟩
    · exact ⟨_, ⟨Nat.le_refl _, Nat.lt_succ_self _⟩, .inr ⟨j, slot, rfl, hsl, hi⟩⟩
    · rintro ⟨f, hf, ⟨slot', hs', -⟩ | ⟨j', slot', rfl, hs', hi⟩⟩
      · have hlt' := (List.getElem?_eq_some_iff.mp hs').1
        omega
      · obtain rfl : j' = j := by omega
        exact Option.mem_unique hs' hsl ▸ hi

theorem Wiring.edits (h : Wiring src l values arrays s k t) (hs : s.Rooted src)
    (hfie : values.length + arrays.length ≤ l.fields.length)
    (hv : ∀ slot ∈ values, slot ∈ s.ledger.values ∧ slot.dst = l.dst)
    (ha : ∀ slot ∈ arrays, slot ∈ s.ledger.arrays ∧ slot.src = l.src ∧ slot.dst = l.dst) :
    s.Edits src (· = l) (· < k) (fun x e => x = l.dst ∧ ∃ f, f < k ∧ ReadsAt values arrays f e) t ∧
      ∀ x, l.Touches x → Holds l x t := by
  induction h with
  | @declared d e hd he =>
    have hfi := edits_setDraft_none hs hd (Draft.edits_declareRecord (L := (· = l)) (F := (· < 0))
      (hs.drafts _ d hd) rfl (.inl rfl))
    have hse := edits_setDraft_none hfi.rooted he (Draft.edits_declareRecord (L := (· = l))
      (F := (· < 0)) (hfi.rooted.drafts _ e he) rfl (.inr rfl))
    refine ⟨(hfi.then hse).congr fun x i => by simp, fun x hx => ?_⟩
    rcases hx with rfl | rfl
    · exact Holds.edits ⟨_, _, getElem?_setDraft_self hd, d.calls_declareRecord _⟩ hse
    · exact ⟨_, _, getElem?_setDraft_self he, e.calls_declareRecord _⟩
  | @step k k' t u _ hst ih =>
    have hle : k ≤ k' := by cases hst <;> omega
    have hn := hst.edits ih.1.rooted hfie (by rwa [ih.1.values]) (by rwa [ih.1.arrays])
    refine ⟨((ih.1.mono (fun _ => id) fun _ hf => Nat.lt_of_lt_of_le hf hle).trans (hn.mono
      (fun _ => id) fun _ hf => hf.2)).congr fun x i => ?_, fun x hx => (ih.2 x hx).edits hn⟩
    rw [← and_or_left]
    refine and_congr_right fun _ => ⟨?_, fun ⟨f, hf, hr⟩ => ?_⟩
    · rintro (⟨f, hf, hr⟩ | ⟨f, hf, hr⟩)
      · exact ⟨f, Nat.lt_of_lt_of_le hf hle, hr⟩
      · exact ⟨f, hf.2, hr⟩
    · rcases Nat.lt_or_ge f k with hlt | hge
      · exact .inl ⟨f, hlt, hr⟩
      · exact .inr ⟨f, ⟨hge, hf⟩, hr⟩

end Wiring

end Emission

namespace Source

open Emission

variable {src : Source} {s t : Emission} {key : RecordKey}

theorem LayingOut.edits {name : String} {o : Option TransferLayout}
    (h : LayingOut src key name s o t) (hs : s.Rooted src) :
    s.Edits src (· ∈ o) (fun _ => True) (fun x e => x = key.dst ∧ s.ledger.ReadOf s.types key e) t ∧
      t.ledger.fixed = key :: s.ledger.fixed ∧
      ∀ l ∈ o, l.name = name ∧ l.key = key ∧ ∀ x, l.Touches x → Holds l x t := by
  cases h with
  | empty hv ha =>
    have hsa : s.Edits src (· ∈ (none : Option TransferLayout)) (fun _ => True) (fun _ _ => False)
        { s with ledger := s.ledger.markFixed key } := edits_of_drafts_eq hs (.refl _) rfl rfl rfl
    exact ⟨hsa.congr fun x e => by simp [Ledger.ReadOf, hv, ha], rfl, by simp⟩
  | @wired l types _ _ hla hw =>
    obtain ⟨ids, hf, -, hi⟩ := hla.fields
    obtain rfl := hla.key
    have hst : s.Edits src (· ∈ some l) (fun _ => True) (fun _ _ => False)
        { s with ledger := s.ledger.markFixed l.key, types := types } :=
      edits_of_drafts_eq hs hla.grows rfl rfl rfl
    obtain ⟨he, hh⟩ := hw.edits hst.rooted
      (by rw [hf, List.length_append, List.length_map, hi.length_eq]) (fun slot hsl => by
        obtain ⟨hm, hk⟩ := Ledger.mem_valuesOf.mp hsl
        exact ⟨hm, congrArg RecordKey.dst hk⟩) fun slot hsl => by
        obtain ⟨hm, hk⟩ := Ledger.mem_arraysOf.mp hsl
        exact ⟨hm, congrArg RecordKey.src hk, congrArg RecordKey.dst hk⟩
    refine ⟨(hst.then (he.mono (fun _ hl => hl ▸ rfl) fun _ _ => trivial)).congr fun x e => ?_,
      ?_, fun l' hl' => Option.mem_unique rfl hl' ▸ ⟨hla.name, rfl, hh⟩⟩
    · exact and_congr_right fun _ => exists_readsAt_iff
    · obtain ⟨drafts, rfl, -⟩ := hw.frame
      rfl

theorem rooted_of_copyAll {tree : PostDominators} {types : TypePool} {scopes : List String}
    (hcop : (src.copyAll tree).run (Emission.start src types scopes) = (.ok (), s)) :
    s.Rooted src := by
  have hco := (sat_copyAll_copying tree _).of_run hcop
  have hpo := hco.posted (posted_start src types scopes)
  have ha := hco.accounted (posted_start src types scopes) (accounted_start ..)
  have hp := (sat_copyAll_pictured tree types scopes).of_run hcop
  refine ⟨fun x d hd => ?_, fun x e he d hd => ?_, fun slot hs r hr d hd => ?_,
    fun slot hs => (ha.spans slot hs).owned⟩
  · have hc := hpo.closed _ d hd
    have hsh := hp.scopes x d hd
    refine ⟨hc.entry_lt, hsh.homed, hsh.listed, fun y hy => ⟨hc.copies y hy,
      (ha.sourced _ d hd).copies y hy⟩, fun g copy hg => ?_, hc.addresses⟩
    obtain ⟨decl, decl', hde, hd', hn⟩ := hsh.names g copy hg
    exact ⟨decl, hde, decl', hd', hn⟩
  · rcases he with ⟨slot, hs, hds, rfl⟩ | ⟨slot, hs, hds, r, hr, rfl⟩
    · exact hp.values slot hs d (hds ▸ hd)
    · exact hp.arrays slot hs r hr d (hds ▸ hd)
  · obtain ⟨_, _, _, _, -, -, -, -, -, hre⟩ := ha.fetched slot hs r hr d hd
    exact hre.sourced (hpo.closed _ d hd) (ha.sourced _ d hd)

theorem sat_emitTable_edits (tree : PostDominators) (table : ScopeTable) (types : TypePool) :
    Act.Sat Act.Any (src.emitTable tree table) (Emission.start src types table.scopes)
      fun layouts t => ∃ s R, (src.copyAll tree).run (Emission.start src types table.scopes)
          = (.ok (), s) ∧ s.Edits src (· ∈ layouts) (fun _ => True) R t ∧
        ∀ l ∈ layouts, ∀ x, l.Touches x → Holds l x t := by
  refine (sat_emitTable_of_step (P := fun _ layouts t => ∃ s R,
    (src.copyAll tree).run (Emission.start src types table.scopes) = (.ok (), s) ∧
      s.Edits src (· ∈ layouts) (fun _ => True) R t ∧
      ∀ l ∈ layouts, ∀ x, l.Touches x → Holds l x t) (fun _ layouts t r ht => ?_) ?_).mono
    fun layouts t ⟨_, _, _, ht⟩ => ht
  · obtain ⟨s, R, hc, he, hh⟩ := ht
    refine (sat_layOut_layingOut r.1 r.2 t).mono fun o u hu => ?_
    obtain ⟨hs, -, hn⟩ := hu.edits he.rooted
    refine ⟨s, _, hc, (he.mono (fun l hl => List.mem_append_left _ hl) fun _ => id).trans
      (hs.mono (fun l hl => List.mem_append_right _ (Option.mem_toList.mpr hl)) fun _ => id),
      fun l hl x hx => ?_⟩
    rcases List.mem_append.mp hl with hl | hl
    · exact (hh l hl x hx).edits hs
    · exact (hn l (Option.mem_toList.mp hl)).2.2 x hx
  · exact Act.sat_any_iff.mpr fun _ s hc => ⟨s, _, hc, .refl (rooted_of_copyAll hc), by simp⟩

end Source

end Stagewise
