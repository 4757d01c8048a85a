import Stagewise.Proofs.Emission.Layout
import Stagewise.Proofs.Semantics.Simulation

namespace Stagewise

def TypePool.InBounds (p : TypePool) : TypeId → List Nat → Prop
  | _, [] => True
  | ty, k :: path => (∀ len, p.lengthOf ty = some len → k < len) ∧
      ∀ elem, p.member ty k = some elem → p.InBounds elem path

instance TypePool.decidableInBounds (p : TypePool) :
    (ty : TypeId) → (path : List Nat) → Decidable (p.InBounds ty path)
  | _, [] => .isTrue trivial
  | ty, k :: path =>
    have := fun elem => decidableInBounds p elem path
    inferInstanceAs (Decidable ((∀ len ∈ p.lengthOf ty, k < len) ∧
      ∀ elem ∈ p.member ty k, p.InBounds elem path))

namespace Scenario

variable {α : Type}

/-- The results of a source without branches are computed from each other, with room for the records
among its bindings and types. -/
structure Consistent (c : Scenario α) : Prop where
  types : c.pool.Extends c.types
  int : c.types.get TypeId.int = .int
  operand : ∀ i ∈ c.order, ∀ inst, c.source.func.insts[i]? = some inst →
    ∀ j, .inst j ∈ inst.op.operands → j ∈ c.order
  not_phi : ∀ i ∈ c.order, ∀ inst, c.source.func.insts[i]? = some inst → inst.op.isPhi = false
  computed : ∀ i ∈ c.order, ∀ inst, c.source.func.insts[i]? = some inst →
    c.machine.compute c.source.program c.eval c.memory inst = c.values i
  typed : ∀ i ∈ c.order, ∀ inst, c.source.func.insts[i]? = some inst → inst.ty < c.pool.size
  mask : ∀ i ∈ c.order, ∀ inst, c.source.func.insts[i]? = some inst →
    ∀ a b mask, inst.op = .shuffle a b mask → c.pool.lengthOf inst.ty = some mask.length
  inBounds : ∀ i ∈ c.order, ∀ inst, c.source.func.insts[i]? = some inst →
    ∀ g path decl, inst.op = .load (.element g path) → c.source.program.globals[g]? = some decl →
      c.pool.InBounds decl.ty (path.map (c.machine.position c.eval))
  fresh : ∀ decl ∈ c.source.program.globals, decl.name ∉ c.records

/-- The elements of an array slot are read from a binding that the source reads, as many as there
are. -/
structure Ranges (c : Scenario α) (slot : ArraySlot) (decl : GlobalDecl) : Prop where
  global : c.source.program.globals[slot.global]? = some decl
  reads : c.Reads decl.name
  len : (c.pool.memberPath decl.ty (ArraySlot.leading slot.path)).bind c.pool.lengthOf
    = some slot.len
  elem_lt : slot.elem < c.pool.size

theorem part_arrayDatum (c : Scenario α) {slot : ArraySlot} {k : Nat} (hk : k < slot.len) :
    (c.arrayDatum slot).part k = c.element slot k := by
  simp [arrayDatum, Datum.part, Datum.parts, hk]

end Scenario

namespace Draft

variable {α : Type} {c : Scenario α} {w w' : InstId → Datum α} {d d' : Draft} {r : InstId × Value}

structure Gets (c : Scenario α) (w : InstId → Datum α) (slot : ValueSlot) (d : Draft) : Prop where
  loads : d.Loads slot.read
  value : w slot.read = c.slotDatum slot

structure Picks (c : Scenario α) (w : InstId → Datum α) (slot : ArraySlot) (r : InstId × Value)
    (d : Draft) : Prop where
  loads : d.Loads r.1
  before : ∀ j, r.2 = .inst j → [j, r.1].Sublist (d.builder.func.instsOf d.entry)
  global_lt : ∀ g, r.2 = .global g → g < d.program.numGlobals
  reads : ∀ name, d.program.operandName? r.2 = some name → c.Reads name
  index_lt : c.machine.index (c.evalIn d w r.2) < slot.len
  value : w r.1 = (c.arrayDatum slot).part (c.machine.index (c.evalIn d w r.2))

theorem Loads.lt {e : InstId} (h : d.Loads e) : e < d.builder.func.numInsts := by
  obtain ⟨inst, -, hi, -⟩ := h
  exact (Array.getElem?_eq_some_iff.mp hi).1

theorem Gets.evolves {slot : ValueSlot} (h : d.Gets c w slot) (hd : d.Evolves c w w' d') :
    d'.Gets c w' slot :=
  ⟨hd.loads _ h.loads, (hd.values _ h.loads.lt).trans h.value⟩

theorem evalIn_evolves (hd : d.Evolves c w w' d') {v : Value}
    (hi : ∀ j, v = .inst j → j < d.builder.func.numInsts)
    (hg : ∀ g, v = .global g → g < d.program.numGlobals) :
    d'.program.operandName? v = d.program.operandName? v ∧ c.evalIn d' w' v = c.evalIn d w v := by
  cases v with
  | const k => exact ⟨rfl, rfl⟩
  | inst j => exact ⟨rfl, hd.values j (hi j rfl)⟩
  | global g =>
    have hn := Machine.globalName?_extends hd.bindings (hg g rfl)
    exact ⟨hn, by simp only [Scenario.evalIn, Machine.operand, hn]⟩

theorem Picks.of_path {slot slot' : ArraySlot} (h : d.Picks c w slot r)
    (hg : slot'.global = slot.global) (hp : slot'.path = slot.path) (hl : slot'.len = slot.len) :
    d.Picks c w slot' r := by
  have he : c.element slot' = c.element slot := by
    funext k
    simp only [Scenario.element, hg, hp]
  have hd : c.arrayDatum slot' = c.arrayDatum slot := by
    simp only [Scenario.arrayDatum, he, hl]
  exact ⟨h.loads, h.before, h.global_lt, h.reads, hl ▸ h.index_lt, hd ▸ h.value⟩

theorem Picks.evolves {slot : ArraySlot} (h : d.Picks c w slot r) (hs : d.Straight)
    (hd : d.Evolves c w w' d') : d'.Picks c w' slot r := by
  have hi : ∀ j, r.2 = .inst j → j < d.builder.func.numInsts := fun j hj =>
    (hs.listed j).mp ((h.before j hj).subset List.mem_cons_self)
  obtain ⟨hn, hv⟩ := evalIn_evolves hd hi h.global_lt
  refine ⟨hd.loads _ h.loads, fun j hj => (h.before j hj).trans hd.listed,
    fun g hg => Nat.lt_of_lt_of_le (h.global_lt g hg) hd.bindings.length_le, ?_, ?_, ?_⟩
  · rw [hn]
    exact h.reads
  · rw [hv]
    exact h.index_lt
  · rw [hv, hd.values _ h.loads.lt]
    exact h.value

end Draft

namespace Emission

variable {α : Type} {c : Scenario α} {s t u : Emission} {scope : Scope} {d d' : Draft}
  {E E' : Scope → List (Effect α)} {W W' W'' : Scope → InstId → Datum α}

def Evolves (c : Scenario α) (W W' : Scope → InstId → Datum α) (s t : Emission) : Prop :=
  ∀ (x : Scope) (d : Draft), s.drafts[x.val]? = some d →
    ∃ d', t.drafts[x.val]? = some d' ∧ d.Evolves c (W x) (W' x) d'

theorem evolves_setDraft (hd : s.drafts[scope.val]? = some d) (hW : ∀ x, x ≠ scope → W' x = W x)
    (h : d.Evolves c (W scope) (W' scope) d') : s.Evolves c W W' (s.setDraft scope d') := by
  intro x e he
  by_cases hx : x = scope
  · subst hx
    obtain rfl := Option.mem_unique hd he
    exact ⟨d', getElem?_setDraft_self hd, h⟩
  · refine ⟨e, (getElem?_setDraft_ne fun hv => hx (Fin.ext hv)).trans he, ?_⟩
    rw [hW x hx]
    exact .refl c (W x) e

structure Tracks (c : Scenario α) (E : Scope → List (Effect α)) (W : Scope → InstId → Datum α)
    (s : Emission) : Prop where
  parts : ∀ (x : Scope) (d : Draft), s.drafts[x.val]? = some d →
    d.Follows c (c.Hands x) (E x) (W x)
  values : ∀ slot ∈ s.ledger.values, slot.src < slot.dst ∧
    ∃ d, s.drafts[slot.dst.val]? = some d ∧ d.Gets c (W slot.dst) slot
  arrays : ∀ slot ∈ s.ledger.arrays, slot.src < slot.dst ∧ (∃ decl, c.Ranges slot decl) ∧
    ∀ r ∈ slot.reads, ∃ d, s.drafts[slot.dst.val]? = some d ∧ d.Picks c (W slot.dst) slot r

section

variable (h : s.Tracks c E W)
include h

theorem Tracks.congr (hd : t.drafts = s.drafts) (hv : t.ledger.values = s.ledger.values)
    (ha : t.ledger.arrays = s.ledger.arrays) : t.Tracks c E W := by
  refine ⟨?_, ?_, ?_⟩ <;> simp only [hd, hv, ha]
  exacts [h.parts, h.values, h.arrays]

theorem Tracks.setDraft (hd : s.drafts[scope.val]? = some d) (hE : ∀ x, x ≠ scope → E' x = E x)
    (hW : ∀ x, x ≠ scope → W' x = W x) (hevo : d.Evolves c (W scope) (W' scope) d')
    (hf : d'.Follows c (c.Hands scope) (E' scope) (W' scope)) :
    (s.setDraft scope d').Tracks c E' W' := by
  have hse : (s.setDraft scope d').drafts[scope.val]? = some d' := getElem?_setDraft_self hd
  have ho : ∀ x : Scope, x ≠ scope →
      (s.setDraft scope d').drafts[x.val]? = s.drafts[x.val]? :=
    fun x hx => getElem?_setDraft_ne fun hv => hx (Fin.ext hv)
  have ha : s.Evolves c W W' (s.setDraft scope d') := evolves_setDraft hd hW hevo
  refine ⟨fun x e he => ?_, fun slot hs => ?_, fun slot hs => ?_⟩
  · by_cases hx : x = scope
    · subst hx
      obtain rfl := Option.mem_unique hse he
      exact hf
    · rw [hE x hx, hW x hx]
      exact h.parts x e (ho x hx ▸ he)
  · obtain ⟨hlt, e, he, hg⟩ := h.values slot hs
    obtain ⟨e', he', hev⟩ := ha _ e he
    exact ⟨hlt, e', he', hg.evolves hev⟩
  · obtain ⟨hlt, hra, hre⟩ := h.arrays slot hs
    refine ⟨hlt, hra, fun r hr => ?_⟩
    obtain ⟨e, he, hp⟩ := hre r hr
    obtain ⟨e', he', hev⟩ := ha _ e he
    exact ⟨e', he', hp.evolves (h.parts _ e he).straight hev⟩

theorem Tracks.setDraft_same (hd : s.drafts[scope.val]? = some d)
    (hf : d'.Follows c (c.Hands scope) (E scope) (W scope) ∧ d.Evolves c (W scope) (W scope) d') :
    (s.setDraft scope d').Tracks c E W :=
  h.setDraft hd (fun _ _ => rfl) (fun _ _ => rfl) hf.2 hf.1

theorem Tracks.addValue {slot : ValueSlot} (hlt : slot.src < slot.dst)
    (hd : s.drafts[slot.dst.val]? = some d) (hg : d.Gets c (W slot.dst) slot) :
    Tracks c E W { s with ledger := s.ledger.addValue slot } := by
  refine ⟨h.parts, fun x hx => ?_, h.arrays⟩
  rcases List.mem_append.mp hx with hx | hx
  · exact h.values x hx
  · obtain rfl := List.mem_singleton.mp hx
    exact ⟨hlt, d, hd, hg⟩

theorem Tracks.addArray {slot : ArraySlot} {decl : GlobalDecl}
    (hlt : slot.src < slot.dst) (hra : c.Ranges slot decl) (hre : ∀ r ∈ slot.reads,
      ∃ d, s.drafts[slot.dst.val]? = some d ∧ d.Picks c (W slot.dst) slot r) :
    Tracks c E W { s with ledger := s.ledger.addArray slot } := by
  refine ⟨h.parts, h.values, fun x hx => ?_⟩
  rcases Ledger.mergeArray_cases hx with hx | rfl | ⟨y, hy, ⟨-, hds, hg, hpa⟩, rfl⟩
  · exact h.arrays x hx
  · exact ⟨hlt, ⟨decl, hra⟩, hre⟩
  · obtain ⟨hlt', ⟨decl', hr'⟩, hre'⟩ := h.arrays y hy
    -- Both slots are along the same path, and so of the same length.
    have hl : y.len = slot.len := by
      obtain rfl : decl' = decl :=
        Option.mem_unique hr'.global (hg ▸ hra.global)
      exact Option.mem_unique hr'.len (hpa ▸ hra.len)
    refine ⟨hlt', ⟨decl', hr'.global, hr'.reads, hr'.len, hr'.elem_lt⟩, fun r hr => ?_⟩
    rcases List.mem_append.mp hr with hr | hr
    · obtain ⟨d, hd, hp⟩ := hre' r hr
      exact ⟨d, hd, hp.of_path rfl rfl rfl⟩
    · obtain ⟨d, hd, hp⟩ := hre r hr
      rw [← hds] at hd hp
      exact ⟨d, hd, hp.of_path hg hpa hl⟩

end

theorem tracks_start (c : Scenario α) (W : Scope → InstId → Datum α) (src : Source)
    (types : TypePool) (scopes : List String) :
    (start src types scopes).Tracks c (fun _ => []) W := by
  refine ⟨fun x d hd => ?_, ?_, ?_⟩
  · obtain ⟨name, rfl⟩ := getElem?_start hd
    exact ⟨Draft.straight_empty .., Draft.simulates_empty ..⟩
  · simp [start, Ledger.empty]
  · simp [start, Ledger.empty]

end Emission

end Stagewise
