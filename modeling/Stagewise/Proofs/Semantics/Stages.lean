import Stagewise.Proofs.Semantics.Filling

namespace Stagewise

namespace Datum.HasType

variable {α : Type} {types : TypePool} {d : Datum α} {ty : TypeId}

theorem of_struct {fields : List TypeId} {packed : Bool} (h : d.HasType types ty)
    (hty : types.get ty = .struct fields packed) :
    ∃ parts, d = .node parts ∧ List.Forall₂ (HasType types) parts fields := by
  cases h with
  | array hty' _ _ | vector hty' _ _ => simp [hty] at hty'
  | other d hs _ _ => exact absurd hty (hs _ _)
  | struct hty' hp =>
    obtain ⟨rfl, rfl⟩ := (Ty.struct.injEq ..).mp (hty.symm.trans hty')
    exact ⟨_, rfl, hp⟩

theorem has_of_array {elem : TypeId} {len k : Nat} (h : d.HasType types ty)
    (hty : types.get ty = .array elem len) (hk : k < len) : d.Has [k] := by
  cases h with
  | struct hty' _ | vector hty' _ _ => simp [hty] at hty'
  | other d _ ha _ => exact absurd hty (ha _ _)
  | array hty' hl _ =>
    obtain ⟨rfl, rfl⟩ := (Ty.array.injEq ..).mp (hty.symm.trans hty')
    exact ⟨_, List.getElem?_eq_getElem (hl ▸ hk), trivial⟩

end Datum.HasType

namespace Memory

variable {α : Type} {m shared : Memory α} {records : List String} {name : String}

def withRecords (m : Memory α) (records : List String) (shared : Memory α) : Memory α :=
  fun name => if name ∈ records then shared name else m name

theorem withRecords_of_mem (h : name ∈ records) : m.withRecords records shared name = shared name :=
  if_pos h

theorem withRecords_of_not_mem (h : name ∉ records) : m.withRecords records shared name = m name :=
  if_neg h

end Memory

namespace Effect

variable {α : Type} {effects : List (Effect α)} {m t : Memory α} {y : Place}

def writesTo (name : String) : Effect α → Bool
  | .write x _ => x.binding == name
  | .call _ _ => false

theorem foldl_on_filter (effects : List (Effect α)) {m' : Memory α} {name : String}
    (h : m name = m' name) :
    effects.foldl on m name = (effects.filter (writesTo name)).foldl on m' name := by
  induction effects generalizing m m' with
  | nil => exact h
  | cons e effects ih =>
    cases e with
    | call callee args => exact ih h
    | write x v =>
      by_cases hx : x.binding = name
      · subst hx
        have hw : m.write x v x.binding = m'.write x v x.binding := by
          rw [Memory.write_self, Memory.write_self, h]
        simpa [writesTo, on] using ih hw
      · have hk : m.write x v name = m' name := (Memory.write_ne v (Ne.symm hx)).trans h
        simpa [writesTo, hx, on] using ih hk

section Copies

variable (hcopies : ∀ x v, .write x v ∈ effects → x.binding = y.binding → v = t.read x)

include hcopies

theorem read_foldl_copies (h : m.read y = t.read y) :
    (effects.foldl on m).read y = t.read y := by
  induction effects generalizing m with
  | nil => exact h
  | cons e effects ih =>
    refine ih (fun x v hx => hcopies x v (List.mem_cons_of_mem _ hx)) ?_
    cases e with
    | call callee args => exact h
    | write x v =>
      by_cases hx : x.binding = y.binding
      · obtain rfl := hcopies x v List.mem_cons_self hx
        exact Memory.read_write_copy x h
      · show (m.write x v).read y = t.read y
        rw [Memory.read, Memory.write_ne v (Ne.symm hx)]
        exact h

theorem has_foldl_copies (hm : (m y.binding).Has y.path) (ht : (t y.binding).Has y.path) :
    (effects.foldl on m y.binding).Has y.path := by
  induction effects generalizing m with
  | nil => exact hm
  | cons e effects ih =>
    refine ih (fun x v hx => hcopies x v (List.mem_cons_of_mem _ hx)) ?_
    cases e with
    | call callee args => exact hm
    | write x v =>
      by_cases hx : x.binding = y.binding
      · obtain rfl := hcopies x v List.mem_cons_self hx
        exact Memory.has_write_copy x hm ht
      · show (m.write x v y.binding).Has y.path
        rw [Memory.write_ne v (Ne.symm hx)]
        exact hm

theorem read_foldl_copied (hme : .write y (t.read y) ∈ effects) (hm : (m y.binding).Has y.path)
    (ht : (t y.binding).Has y.path) : (effects.foldl on m).read y = t.read y := by
  obtain ⟨before, after, rfl⟩ := List.append_of_mem hme
  have hb : (before.foldl on m y.binding).Has y.path :=
    has_foldl_copies (fun x v hx => hcopies x v (List.mem_append_left _ hx)) hm ht
  rw [List.foldl_append, List.foldl_cons]
  refine read_foldl_copies (fun x v hx => hcopies x v ?_) (Memory.read_write_self _ hb)
  exact List.mem_append_right _ (List.mem_cons_of_mem _ hx)

end Copies

end Effect

namespace Program

variable {p : Program} {op : Operation} {name : String}

theorem exists_decl_of_globalName? {g : GlobalId} (h : p.globalName? g = some name) :
    ∃ decl ∈ p.globals, decl.name = name := by
  obtain ⟨decl, hd, rfl⟩ := Option.map_eq_some_iff.mp h
  exact ⟨decl, List.mem_of_getElem? hd, rfl⟩

theorem exists_decl_of_mem_readNames (h : name ∈ p.readNames op) :
    ∃ decl ∈ p.globals, decl.name = name := by
  rcases List.mem_append.mp h with h | h
  · obtain ⟨v, -, hv⟩ := List.mem_filterMap.mp h
    cases v with
    | global g => exact exists_decl_of_globalName? hv
    | inst i | const k => cases hv
  · cases op with
    | load addr =>
      obtain ⟨g, -, hg⟩ := Option.bind_eq_some_iff.mp (Option.mem_toList.mp h)
      exact exists_decl_of_globalName? hg
    | _ => cases h

end Program

namespace Machine

variable {α : Type} (M : Machine α) {types : TypePool} {p : Program} {eval : Value → Datum α}

def runPart (types : TypePool) (part : Partition) (m : Memory α) : Run α :=
  part.program.functions.head?.elim (.start m) fun f => M.run types part.program f m

/-- Runs of parts in their order. Each hands on what the records hold; other bindings hold for every
part what they hold in the memory `m`. -/
def runParts (types : TypePool) (records : List String) (m : Memory α) :
    Memory α → List Partition → List (Run α)
  | _, [] => []
  | shared, part :: parts =>
    let r := M.runPart types part (m.withRecords records shared)
    r :: runParts types records m r.memory parts

theorem length_runParts (types : TypePool) (records : List String) (m shared : Memory α)
    (parts : List Partition) : (M.runParts types records m shared parts).length = parts.length := by
  induction parts generalizing shared with
  | nil => rfl
  | cons part parts ih => simp [runParts, ih]

theorem runPart_finish {d : Draft} (hfunctions : d.finish.program.functions = [d.builder.finish])
    (m : Memory α) : M.runPart types d.finish m = (d.builder.func.instsOf d.entry).foldl
      (M.step types d.program d.builder.func) (.start m) := by
  have hi : d.builder.finish.instsOf d.builder.finish.entry = d.builder.func.instsOf d.entry :=
    Function.close_instsOf ..
  rw [runPart, hfunctions]
  show M.run types d.finish.program d.builder.finish m = _
  rw [run, hi]
  rfl

theorem exists_mem_reads {op : Operation} {name : String} (h : name ∈ p.readNames op) :
    ∃ y ∈ M.reads p eval op, y.binding = name := by
  rcases List.mem_append.mp h with h | h
  · exact ⟨⟨name, []⟩, List.mem_append_left _ (List.mem_map_of_mem h), rfl⟩
  · cases op with
    | load addr =>
      obtain ⟨g, hg, hn⟩ := Option.bind_eq_some_iff.mp (Option.mem_toList.mp h)
      obtain ⟨path, hp⟩ : ∃ path, M.place? p eval addr = some ⟨name, path⟩ := by
        cases addr with
        | pending => cases hg
        | member g' path =>
          obtain rfl := Option.some.inj hg
          exact ⟨path, by rw [place?, hn, Option.map_some]⟩
        | element g' path =>
          obtain rfl := Option.some.inj hg
          exact ⟨path.map (M.position eval), by rw [place?, hn, Option.map_some]⟩
      exact ⟨_, List.mem_append_right _ (Option.mem_toList.mpr hp), rfl⟩
    | _ => cases h

end Machine

def Program.Separates (p : Program) (f : Function) : Prop :=
  ∀ i ∈ f.instsOf f.entry, ∀ inst ∈ f.insts[i]?, ∀ j ∈ f.instsOf f.entry, ∀ inst' ∈ f.insts[j]?,
    ∀ name ∈ p.readNames inst'.op, p.storeName? inst.op ≠ some name

instance (p : Program) (f : Function) : Decidable (p.Separates f) :=
  inferInstanceAs (Decidable (∀ i ∈ f.instsOf f.entry, ∀ inst ∈ f.insts[i]?,
    ∀ j ∈ f.instsOf f.entry, ∀ inst' ∈ f.insts[j]?,
      ∀ name ∈ p.readNames inst'.op, p.storeName? inst.op ≠ some name))

namespace Scenario

variable {α : Type} {c : Scenario α} {l : TransferLayout} {y : Place}

theorem FieldOf.binding (h : c.FieldOf l y) : y.binding = l.name := by
  cases h <;> rfl

theorem Stocked.has (h : c.Stocked) (hl : l ∈ c.layouts) (hy : c.FieldOf l y) :
    (c.memory y.binding).Has y.path := by
  rw [hy.binding, h l hl]
  cases hy with
  | @value f slot hs =>
    have hlt := (List.getElem?_eq_some_iff.mp hs).1
    exact ⟨_, List.getElem?_eq_getElem (by simp [Datum.parts]; omega), trivial⟩
  | @element f k slot hs hk =>
    refine ⟨c.arrayDatum slot, ?_, c.element slot k, ?_, trivial⟩
    · simp [Datum.parts, List.getElem?_append_right, hs]
    · simp [arrayDatum, Datum.parts, hk]

theorem Shaped.has {types : TypePool} (h : c.Shaped types l) {d : Datum α}
    (hd : d.HasType types l.record) (hy : c.FieldOf l y) : d.Has y.path := by
  obtain ⟨arrays, hr, ha⟩ := h
  obtain ⟨parts, rfl, hp⟩ := hd.of_struct hr
  have hl := hp.length_eq
  rw [List.length_append, List.length_map, ← ha.length_eq] at hl
  cases hy with
  | @value f slot hs =>
    have hlt := (List.getElem?_eq_some_iff.mp hs).1
    exact ⟨_, List.getElem?_eq_getElem (by simp only [Datum.parts]; omega), trivial⟩
  | @element f k slot hs hk =>
    obtain ⟨hlt, rfl⟩ := List.getElem?_eq_some_iff.mp hs
    have hlt' : f < arrays.length := ha.length_eq ▸ hlt
    have hpa : (c.valuesOf l).length + f < parts.length := by omega
    have ht : (parts[(c.valuesOf l).length + f]).HasType types arrays[f] := by
      simpa [List.getElem_append_right] using hp.get hpa (hp.length_eq ▸ hpa)
    exact ⟨_, List.getElem?_eq_getElem hpa, ht.has_of_array (ha.get hlt hlt') hk⟩

theorem Consistent.not_mem_records (hc : c.Consistent) {name : String} (h : c.Reads name) :
    name ∉ c.records := by
  obtain ⟨i, -, inst, -, hn⟩ := h
  obtain ⟨decl, hd, rfl⟩ := Program.exists_decl_of_mem_readNames hn
  exact hc.fresh decl hd

/-- What a run does that starts with a memory: it performs effects of the source, keeps in the
records what agrees with the memory of a scenario, and fills some places of them. -/
structure Performs (c : Scenario α) (E : List (Effect α)) (F : Place → Prop) (m : Memory α)
    (r : Run α) : Prop where
  memory : ∀ name, name ∉ c.records → r.memory name = E.foldl Effect.on m name
  calls : r.calls = E.filterMap Effect.call?
  keeps : ∀ y, y.binding ∈ c.records → m.read y = c.memory.read y →
    r.memory.read y = c.memory.read y
  has : ∀ y : Place, y.binding ∈ c.records → (m y.binding).Has y.path → (c.memory y.binding).Has y.path →
    (r.memory y.binding).Has y.path
  fills : ∀ y, F y → y.binding ∈ c.records → (m y.binding).Has y.path →
    (c.memory y.binding).Has y.path → r.memory.read y = c.memory.read y

/-- Writes to records write what the scenario has there, so the records keep what agrees with it. -/
theorem performs_of_effects {effects E : List (Effect α)} {F : Place → Prop} {m : Memory α}
    {r : Run α} (hE : effects.filter c.isPublic = E)
    (hcopies : ∀ y v, .write y v ∈ effects → y.binding ∈ c.records → v = c.memory.read y)
    (hF : ∀ y, F y → .write y (c.memory.read y) ∈ effects)
    (hme : r.memory = effects.foldl Effect.on m)
    (hca : r.calls = effects.filterMap Effect.call?) : c.Performs E F m r := by
  have hc' : ∀ y : Place, y.binding ∈ c.records → ∀ x v, .write x v ∈ effects →
      x.binding = y.binding → v = c.memory.read x :=
    fun y hy x v hx heq => hcopies x v hx (heq ▸ hy)
  subst hE
  refine ⟨fun name hn => ?_, ?_, fun y hy h => ?_, fun y hy hm ht => ?_,
    fun y hFy hy hm ht => ?_⟩
  · have hpublic : effects.filter (Effect.writesTo name)
        = (effects.filter c.isPublic).filter (Effect.writesTo name) := by
      rw [List.filter_filter]
      refine List.filter_congr fun e _ => ?_
      cases e with
      | call callee args => rfl
      | write x v =>
        by_cases hx : x.binding = name
        · simp [Effect.writesTo, isPublic, hx, hn]
        · simp [Effect.writesTo, hx]
    rw [hme, Effect.foldl_on_filter effects rfl, hpublic, ← Effect.foldl_on_filter _ rfl]
  · rw [hca, List.filterMap_filter]
    refine List.filterMap_congr fun e _ => ?_
    cases e with
    | call callee args => rfl
    | write x v => simp [Effect.call?]
  · rw [hme]
    exact Effect.read_foldl_copies (hc' y hy) h
  · rw [hme]
    exact Effect.has_foldl_copies (hc' y hy) hm ht
  · rw [hme]
    exact Effect.read_foldl_copied (hc' y hy) (hF y hFy) hm ht

end Scenario

namespace Draft

variable {α : Type} {c : Scenario α} {x : Scope} {w : InstId → Datum α} {d : Draft} {e : InstId}

theorem Straight.mem_of_effectIn (h : d.Straight) {effect : Effect α}
    (he : c.effectIn d w e = some effect) : e ∈ d.builder.func.instsOf d.entry := by
  refine (h.listed e).mpr (Nat.lt_of_not_le fun hle => ?_)
  rw [effectIn_eq_none hle] at he
  cases he

theorem Follows.not_mem_readNames (h : d.Follows c (c.Hands x) (c.script c.order x) w)
    (hseparates : c.source.program.Separates c.source.func) {y : Place} {v : Datum α}
    (he : c.effectIn d w e = some (.write y v)) (hy : y.binding ∉ c.records) {j : InstId}
    {inst : Inst} (hin : d.builder.func.insts[j]? = some inst) :
    y.binding ∉ d.program.readNames inst.op := by
  intro hm
  -- the write is one of the source
  have hsc : .write y v ∈ c.script c.order x := by
    rw [← h.simulates.script]
    refine List.mem_filter.mpr ⟨List.mem_filterMap.mpr ⟨e, h.straight.mem_of_effectIn he, he⟩, ?_⟩
    simp [Scenario.isPublic, hy]
  obtain ⟨i, hi, hef⟩ := List.mem_filterMap.mp hsc
  have hef : c.effectOf i = some (.write y v) := by
    split at hef
    · exact hef
    · cases hef
  obtain ⟨inst', hi', hs⟩ := Option.bind_eq_some_iff.mp hef
  have hs := Machine.storeName?_of_effect? hs
  -- and what is read is read by the source, or is a record
  obtain ⟨z, hz, hzy⟩ := c.machine.exists_mem_reads hm
  rcases h.simulates.reads j inst hin z hz with ⟨k, hk, inst'', hi'', hr⟩ | ⟨l, hl, -, hf⟩
  · exact hseparates i hi inst' hi' k hk inst'' hi'' _ (hzy ▸ hr) hs
  · exact hy (hzy ▸ hf.binding ▸ Source.mem_records hl)

/-- A part that follows a run of its source performs what it follows, as long as it finds in the
records what it is handed over. -/
theorem Follows.performs (h : d.Follows c (c.Hands x) (c.script c.order x) w) (hc : c.Consistent)
    (hseparates : c.source.program.Separates c.source.func)
    (ha : ∀ (e : InstId) (inst : Inst), d.builder.func.insts[e]? = some inst →
      inst.op.address? ≠ some .pending)
    (hfunctions : d.finish.program.functions = [d.builder.finish]) {m : Memory α}
    (hpublic : ∀ name, name ∉ c.records → m name = c.memory name)
    (hh : ∀ y, c.Hands x y → m.read y = c.memory.read y) :
    c.Performs (c.script c.order x) (d.Fills c w) m (c.machine.runPart c.types d.finish m) := by
  have hs := h.straight
  have hd : ∀ before e after, d.builder.func.instsOf d.entry = before ++ e :: after →
      ∀ inst, d.builder.func.insts[e]? = some inst →
      ∀ j, .inst j ∈ inst.op.operands → j ∈ before := by
    intro before e after heq inst hi j hj
    apply mem_of_pair_sublist (heq ▸ hs.nodup)
    rw [← heq]
    exact hs.ordered e inst hi j hj
  have hco : ∀ e ∈ d.builder.func.instsOf d.entry, ∀ inst,
      d.builder.func.insts[e]? = some inst →
      c.machine.compute d.program (c.evalIn d w) c.memory inst = w e := by
    intro e _ inst hi
    refine h.simulates.computed e inst hi fun hop => ha e inst hi ?_
    rw [hop]
    rfl
  have hw : ∀ e ∈ d.builder.func.instsOf d.entry, ∀ y v,
      c.effectIn d w e = some (.write y v) → v = c.memory.read y ∨
        ∀ j ∈ d.builder.func.instsOf d.entry, ∀ inst, d.builder.func.insts[j]? = some inst →
          y.binding ∉ d.program.readNames inst.op := by
    intro e _ y v hef
    by_cases hr : y.binding ∈ c.records
    · exact .inl (h.simulates.fills e y v hef hr)
    · exact .inr fun j _ inst hi => h.not_mem_readNames hseparates hef hr hi
  have hre : ∀ e ∈ d.builder.func.instsOf d.entry, ∀ inst,
      d.builder.func.insts[e]? = some inst →
      ∀ y ∈ c.machine.reads d.program (c.evalIn d w) inst.op, m.read y = c.memory.read y := by
    intro e _ inst hi y hy
    rcases h.simulates.reads e inst hi y hy with hrea | hg
    · rw [Memory.read, Memory.read, hpublic _ (hc.not_mem_records hrea)]
    · exact hh y hg
  obtain ⟨-, hm, hca⟩ := Machine.foldl_step (fun e he => (hs.listed e).mp he) hd
    hco hw (.start m) hre
  rw [← c.machine.runPart_finish hfunctions] at hm hca
  refine Scenario.performs_of_effects h.simulates.script (fun y v hy hr => ?_)
    (fun y hy => ?_) hm hca
  · obtain ⟨e, -, he⟩ := List.mem_filterMap.mp hy
    exact h.simulates.fills e y v he hr
  · obtain ⟨e, he⟩ := hy
    exact List.mem_filterMap.mpr ⟨e, hs.mem_of_effectIn he, he⟩

end Draft

namespace Scenario

variable {α : Type} {c : Scenario α}

structure Enacts (c : Scenario α) (x : Scope) (m : Memory α) (r : Run α) : Prop where
  memory : ∀ name, name ∉ c.records →
    r.memory name = (c.script c.order x).foldl Effect.on m name
  calls : r.calls = (c.script c.order x).filterMap Effect.call?

/-- The records have all their fields, and those that the first parts fill are filled. -/
structure Primed (c : Scenario α) (k : Nat) (m : Memory α) : Prop where
  has : ∀ l ∈ c.layouts, ∀ y, c.FieldOf l y → (m y.binding).Has y.path
  read : ∀ l ∈ c.layouts, l.src.val < k → ∀ y, c.FieldOf l y → m.read y = c.memory.read y

end Scenario

namespace Source.Completes

variable {α : Type} {c : Scenario α} {t : Emission} {l : TransferLayout} {y : Place}

theorem src_lt (h : Completes c t) (hy : c.FieldOf l y) : l.src < l.dst := by
  obtain ⟨W, ht, -⟩ := h.supplied
  cases hy with
  | @value f slot hs =>
    obtain ⟨hm, hke⟩ := Ledger.mem_valuesOf.mp (List.mem_of_getElem? hs)
    obtain ⟨hsr, hd, -⟩ := (RecordKey.mk.injEq ..).mp hke
    exact hsr ▸ hd ▸ (ht.values slot (h.values ▸ hm)).1
  | @element f k slot hs hk =>
    obtain ⟨hm, hke⟩ := Ledger.mem_arraysOf.mp (List.mem_of_getElem? hs)
    obtain ⟨hsr, hd, -⟩ := (RecordKey.mk.injEq ..).mp hke
    exact hsr ▸ hd ▸ (ht.arrays slot (h.arrays ▸ hm)).1

section Runs

variable {m shared : Memory α} (h : Completes c t) (hc : c.Consistent) (hstocked : c.Stocked)
  (hseparates : c.source.program.Separates c.source.func)
  (hfunctions : ∀ (n : Nat) (d : Draft), t.drafts[n]? = some d →
    d.finish.program.functions = [d.builder.finish])
  (hpublic : ∀ name, name ∉ c.records → m name = c.memory name) {r : Run α}

include h hc hstocked hseparates hfunctions hpublic

/-- A part that finds the records of the parts before it filled fills its own. -/
theorem enacts_runPart {x : Scope} {d : Draft} (hd : t.drafts[x.val]? = some d)
    (hpr : c.Primed x.val shared)
    (hr : r = c.machine.runPart c.types d.finish (m.withRecords c.records shared)) :
    c.Enacts x m r ∧ c.Primed (x.val + 1) r.memory := by
  obtain ⟨W, ht, hfi⟩ := h.supplied
  generalize hm' : m.withRecords c.records shared = m' at hr
  have hre : ∀ l ∈ c.layouts, ∀ y, c.FieldOf l y →
      y.binding ∈ c.records ∧ m' y.binding = shared y.binding := by
    intro l hl y hy
    have hm : y.binding ∈ c.records := hy.binding ▸ Source.mem_records hl
    exact ⟨hm, hm' ▸ Memory.withRecords_of_mem hm⟩
  have ho : ∀ name, name ∉ c.records → m' name = m name :=
    fun name hn => hm' ▸ Memory.withRecords_of_not_mem hn
  have hp := (ht.parts x d hd).performs hc hseparates
    (fun e inst => h.addressed _ d e inst hd) (hfunctions _ d hd)
    (fun name hn => (ho name hn).trans (hpublic name hn)) fun y hy => by
      obtain ⟨l, hl, rfl, hf⟩ := hy
      rw [Memory.read, (hre l hl y hf).2]
      exact hpr.read l hl (h.src_lt hf) y hf
  rw [← hr] at hp
  refine ⟨⟨fun name hn => ?_, hp.calls⟩, fun l hl y hy => ?_, fun l hl hlt y hy => ?_⟩
  · rw [hp.memory name hn, Effect.foldl_on_filter _ (ho name hn),
      ← Effect.foldl_on_filter _ rfl]
  · obtain ⟨hm, heq⟩ := hre l hl y hy
    exact hp.has y hm (heq ▸ hpr.has l hl y hy) (hstocked.has hl hy)
  · obtain ⟨hm, heq⟩ := hre l hl y hy
    rcases Nat.lt_succ_iff_lt_or_eq.mp hlt with hlt | hs
    · apply hp.keeps y hm
      rw [Memory.read, heq]
      exact hpr.read l hl hlt y hy
    · -- the part that makes the value stores it
      have hx : x = l.src := Fin.ext hs.symm
      obtain ⟨d', hd', hfil⟩ := hfi x y ⟨l, hl, hx, hy⟩
      obtain rfl := Option.mem_unique hd hd'
      exact hp.fills y hfil hm (heq ▸ hpr.has l hl y hy) (hstocked.has hl hy)

theorem enacts_runParts (hs : t.drafts.size ≤ Scope.limit) {parts : List Partition} {k : Nat}
    (hp : ∀ j, parts[j]? = t.partitions[k + j]?) (hpr : c.Primed k shared) {j : Nat} {x : Scope}
    (hx : x.val = k + j) (hr : (c.machine.runParts c.types c.records m shared parts)[j]? = some r) :
    c.Enacts x m r := by
  induction parts generalizing k j shared with
  | nil => simp [Machine.runParts] at hr
  | cons part parts ih =>
    obtain ⟨d, hd, hpa⟩ : ∃ d, t.drafts[k]? = some d ∧ d.finish = part := by
      have := hp 0
      simpa [Emission.partitions, eq_comm] using this
    have hk : k < 256 := by
      have := (Array.getElem?_eq_some_iff.mp hd).1
      unfold Scope.limit at hs
      omega
    subst hpa
    obtain ⟨hf, hn⟩ := h.enacts_runPart hc hstocked hseparates hfunctions hpublic
      (x := ⟨k, hk⟩) hd hpr rfl
    cases j with
    | zero =>
      obtain rfl : x = ⟨k, hk⟩ := Fin.ext hx
      obtain rfl := Option.some.inj hr
      exact hf
    | succ j =>
      refine ih (fun j => ?_) hn (show x.val = k + 1 + j by omega) hr
      have := hp (j + 1)
      rwa [List.getElem?_cons_succ, show k + (j + 1) = k + 1 + j by omega] at this

end Runs

end Source.Completes

end Stagewise
