import Stagewise.Proofs.Emission.Placeholders
import Stagewise.Proofs.Semantics.Copies

namespace Stagewise

namespace Scenario

variable {α : Type} {c : Scenario α} {l : TransferLayout}

def Stocked (c : Scenario α) : Prop :=
  ∀ l ∈ c.layouts, c.memory l.name
    = .node ((c.valuesOf l).map c.slotDatum ++ (c.arraysOf l).map c.arrayDatum)

theorem Stocked.read_value (h : c.Stocked) (hl : l ∈ c.layouts) {f : Nat} {slot : ValueSlot}
    (hs : (c.valuesOf l)[f]? = some slot) :
    c.memory.read ⟨l.name, [f]⟩ = c.slotDatum slot := by
  have hlt : f < ((c.valuesOf l).map c.slotDatum).length := by
    rw [List.length_map]
    exact (List.getElem?_eq_some_iff.mp hs).1
  have hp : ((c.valuesOf l).map c.slotDatum)[f]? = some (c.slotDatum slot) := by
    rw [List.getElem?_map, hs, Option.map_some]
  simp only [Memory.read, h l hl, Datum.get, Datum.part, Datum.parts,
    List.getElem?_append_left hlt, hp, Option.getD_some]

theorem Stocked.read_element (h : c.Stocked) (hl : l ∈ c.layouts) {f : Nat} {slot : ArraySlot}
    (hs : (c.arraysOf l)[f]? = some slot) (k : Nat) :
    c.memory.read ⟨l.name, [(c.valuesOf l).length + f, k]⟩ = (c.arrayDatum slot).part k := by
  have hle : ((c.valuesOf l).map c.slotDatum).length ≤ (c.valuesOf l).length + f := by
    rw [List.length_map]
    exact Nat.le_add_right _ _
  have hp : ((c.arraysOf l).map c.arrayDatum)[f]? = some (c.arrayDatum slot) := by
    rw [List.getElem?_map, hs, Option.map_some]
  have ha : (c.memory l.name).part ((c.valuesOf l).length + f) = c.arrayDatum slot := by
    rw [h l hl, Datum.part, Datum.parts, List.getElem?_append_right hle, List.length_map,
      Nat.add_sub_cancel_left, hp, Option.getD_some]
  simp only [Memory.read, Datum.get, ha]

def Shaped (c : Scenario α) (types : TypePool) (l : TransferLayout) : Prop :=
  ∃ arrays, types.get l.record = .struct ((c.valuesOf l).map ValueSlot.ty ++ arrays) true ∧
    List.Forall₂ (fun slot id => types.get id = .array slot.elem slot.len) (c.arraysOf l) arrays

theorem Shaped.extends {types types' : TypePool} (h : c.Shaped types l)
    (ht : types.Extends types') : c.Shaped types' l := by
  have hk : ∀ {id : TypeId} {t : Ty}, types.get id = t → t ≠ .void → types'.get id = t :=
    fun hg hne => (ht.get _ (TypePool.lt_size_of_get hg hne)).trans hg
  obtain ⟨arrays, hr, ha⟩ := h
  exact ⟨arrays, hk hr (by simp), ha.imp fun slot id hid => hk hid (by simp)⟩

end Scenario

namespace Draft

variable {α : Type} {c : Scenario α} {H : Place → Prop} {E : List (Effect α)}
  {w : InstId → Datum α} {d d' : Draft} {record : GlobalId} {name : String}

theorem Calls.globalName? (h : d.Calls record name) : d.program.globalName? record = some name := by
  obtain ⟨decl, hd, rfl⟩ := h
  rw [Program.globalName?, hd, Option.map_some]

theorem Calls.lt (h : d.Calls record name) : record < d.program.numGlobals := by
  obtain ⟨decl, hd, -⟩ := h
  exact (List.getElem?_eq_some_iff.mp hd).1

theorem Follows.declareRecord (h : d.Follows c H E w) (decl : GlobalDecl) :
    (d.declareRecord decl).2.Follows c H E w ∧ d.Evolves c w w (d.declareRecord decl).2 := by
  have hg := d.program.globals_getOrAddGlobal decl
  refine h.of_builder rfl hg ?_ (fun g copy hc => ?_) (fun _ _ hv => .inl hv) rfl
  · show _ <+: (d.program.getOrAddGlobal decl).2.decls
    rw [Program.decls_getOrAddGlobal]
  · obtain ⟨hlt, hn⟩ := h.simulates.globals g copy hc
    exact ⟨Nat.lt_of_lt_of_le hlt hg.length_le,
      (Machine.globalName?_extends hg hlt).trans hn⟩

section Insert

variable {pos : Nat} {ty : TypeId} {op : Operation} {x : Datum α}

theorem Follows.insert (h : d.Follows c H E w) (hg : d.Gains c pos ty op x d')
    (hop : d.Operates c H w ty op x)
    (ho : ∀ j, .inst j ∈ op.operands → j ∈ (d.builder.func.instsOf d.entry).take pos)
    (he : ∀ effect, c.machine.effect? d.program (c.evalIn d w) op = some effect →
      ∃ y, effect = .write y (c.memory.read y) ∧ y.binding ∈ c.records) :
    d'.Follows c H E (Function.update w d.builder.func.numInsts x) ∧
      d.Evolves c w (Function.update w d.builder.func.numInsts x) d' := by
  have hs := h.straight
  have hq : (c.machine.effect? d.program (c.evalIn d w) op).toList.filter c.isPublic = [] := by
    refine List.filter_eq_nil_iff.mpr fun effect hm => ?_
    obtain ⟨y, rfl, hy⟩ := he effect (Option.mem_toList.mp hm)
    simp [Scenario.isPublic, hy]
  refine ⟨⟨hs.insertAt hg.toInserts ho hop.holds, h.simulates.insert hs hg hop
    (fun y v heq _ => ?_) (by rw [hq, List.append_nil]) (.inr hq)⟩,
    evolves_insertAt hs hg.toInserts⟩
  obtain ⟨y', heq', -⟩ := he _ heq
  obtain ⟨rfl, rfl⟩ := (Effect.write.injEq ..).mp heq'
  rfl

theorem Follows.insertStore (h : d.Follows c H E w) {e : InstId} {path : List Nat}
    (hga : d.Gains c pos ty (.store (.inst e) (.member record path)) .blank d')
    (he : e ∈ (d.builder.func.instsOf d.entry).take pos)
    (hr : d.Calls record name) (hn : name ∈ c.records)
    (hv : w e = c.memory.read ⟨name, path⟩) :
    ∃ w', d'.Follows c H E w' ∧ d.Evolves c w w' d' ∧ d'.Fills c w' ⟨name, path⟩ := by
  have ho : ∀ j, Value.inst j ∈ (Operation.store (.inst e) (.member record path)).operands →
      j = e := by
    intro j hj
    exact Value.inst.inj (List.mem_singleton.mp hj)
  have hlt : e < d.builder.func.numInsts :=
    (h.straight.listed e).mp (List.mem_of_mem_take he)
  have hop : d.program.Holds (.store (.inst e) (.member record path)) := by
    refine ⟨fun g hg => ?_, fun addr g ha hg => ?_, fun callee args heq => (by cases heq)⟩
    · cases List.mem_singleton.mp hg
    · obtain rfl := Option.some.inj ha
      obtain rfl := Option.some.inj hg
      exact hr.lt
  have hef : c.machine.effect? d.program (c.evalIn d w) (.store (.inst e) (.member record path))
      = some (.write ⟨name, path⟩ (c.memory.read ⟨name, path⟩)) := by
    simp only [Machine.effect?, Machine.place?, hr.globalName?, Option.map_some]
    rw [← hv]
    rfl
  obtain ⟨hf, hev⟩ := h.insert hga ⟨hop, fun j hj => ho j hj ▸ hlt, fun _ => rfl,
    fun y hy => (by cases hy)⟩ (fun j hj => ho j hj ▸ he) fun effect heq =>
      ⟨_, (Option.mem_unique hef heq).symm, hn⟩
  refine ⟨_, hf, hev, d.builder.func.numInsts, ?_⟩
  rw [effectIn_insert_self hga.toInserts hop fun j hj => ho j hj ▸ hlt, hef]

end Insert

theorem Straight.homeOf (h : d.Straight) (v : Value) : d.homeOf v = d.entry := by
  cases v with
  | inst e =>
    cases he : d.builder.func.insts[e]? with
    | none => simp [Draft.homeOf, he]
    | some inst => simp [Draft.homeOf, he, h.homed e inst he]
  | global g => rfl
  | const k => rfl

variable {f : Nat} {i : InstId}

/-- Storing a value fills its field with what the run hands over. -/
theorem Follows.storeField (h : d.Follows c H E w) (hi : c.types.get TypeId.int = .int)
    {slot : ValueSlot} {v : Value} (hv : (slot.source, v) ∈ d.copies)
    (hr : d.Calls record name) (hn : name ∈ c.records)
    (hf : c.memory.read ⟨name, [f]⟩ = c.slotDatum slot) :
    ∃ w', (d.storeField record f slot v).Follows c H E w' ∧
      d.Evolves c w w' (d.storeField record f slot v) ∧
      (d.storeField record f slot v).Fills c w' ⟨name, [f]⟩ := by
  obtain ⟨e, rfl, he, hva⟩ := h.simulates.copies _ _ hv
  have hli : e ∈ d.builder.func.instsOf d.entry := (h.straight.listed e).mpr he
  cases hl : slot.scalarized with
  | false =>
    rw [storeField_whole hl, h.straight.homeOf]
    have hd : c.slotDatum slot = c.values slot.source := by simp [Scenario.slotDatum, hl]
    refine h.insertStore (gains_of_eq ⟨rfl, rfl, rfl⟩ rfl rfl rfl) ?_ hr hn ?_
    · rw [List.take_length]
      exact hli
    · rw [hf, hd, hva]
  | true =>
    rw [storeField_lane hl, h.straight.homeOf]
    generalize hd1 : (d.append d.entry slot.ty (.extract (.inst e)
      (.const (.int TypeId.int 0)))).2 = d1
    obtain ⟨w1, hw1, h1, hev1⟩ : ∃ w1, w1 d.builder.func.numInsts = (w e).part 0 ∧
        d1.Follows c H E w1 ∧ d.Evolves c w w1 d1 := by
      refine ⟨Function.update w d.builder.func.numInsts ((w e).part 0), Function.update_self .., ?_⟩
      rw [← hd1]
      refine h.append_local rfl (gains_of_eq ⟨rfl, rfl, rfl⟩ rfl rfl rfl) ?_ ?_
      · simp [Operation.operands, he]
      · simp only [Machine.compute, Scenario.evalIn, Machine.operand, c.machine.index_zero hi]
    have hen : d1.entry = d.entry := by rw [← hd1]; rfl
    have hn1 : d.builder.func.numInsts < d1.builder.func.numInsts := by
      rw [← hd1, numInsts_append]
      exact Nat.lt_succ_self _
    have hr1 : d1.Calls record name := by rw [← hd1]; exact hr
    have hd : c.slotDatum slot = (c.values slot.source).part 0 := by
      simp [Scenario.slotDatum, hl]
    rw [← hen]
    generalize hd2 : (d1.append d1.entry TypeId.void (.store (.inst d.builder.func.numInsts)
      (.member record [f]))).2 = d2
    obtain ⟨w2, h2, hev2, hfi⟩ : ∃ w2, d2.Follows c H E w2 ∧ d1.Evolves c w1 w2 d2 ∧
        d2.Fills c w2 ⟨name, [f]⟩ := by
      rw [← hd2]
      refine h1.insertStore (gains_of_eq ⟨rfl, rfl, rfl⟩ rfl rfl rfl) ?_ hr1 hn ?_
      · rw [List.take_length]
        exact (h1.straight.listed _).mpr hn1
      · rw [hw1, hf, hd, hva]
    exact ⟨w2, h2, hev1.trans hev2, hfi⟩

section Elements

variable {slot : ArraySlot} {f : Nat} {g : GlobalId} {decl : GlobalDecl}

/-- Copying one element fills its position with what the run hands over. -/
theorem Follows.copyPosition (h : d.Follows c H E w) (hr : c.Ranges slot decl)
    (hg : d.globals.lookup slot.global = some g) (hre : d.Calls record name)
    (hna : name ∈ c.records) {k : Nat}
    (hf : c.memory.read ⟨name, [f, k]⟩ = c.element slot k) :
    ∃ w', (copyPosition record f slot g d k).Follows c H E w' ∧
      d.Evolves c w w' (copyPosition record f slot g d k) ∧
      (copyPosition record f slot g d k).Fills c w' ⟨name, [f, k]⟩ := by
  obtain ⟨hlt, hc⟩ := h.simulates.globals _ _ hg
  have hs : c.source.program.globalName? slot.global = some decl.name := by
    rw [Program.globalName?, hr.global, Option.map_some]
  have hp : c.machine.place? d.program (c.evalIn d w) (.member g (slot.path.map (·.getD k)))
      = some ⟨decl.name, slot.path.map (·.getD k)⟩ := by
    simp only [Machine.place?, hc, hs, Option.map_some]
  have hh : d.program.Holds (.load (.member g (slot.path.map (·.getD k)))) := by
    refine ⟨fun g' hg' => (by cases hg'), fun addr g' ha hg' => ?_,
      fun callee args heq => (by cases heq)⟩
    obtain rfl := Option.some.inj ha
    obtain rfl := Option.some.inj hg'
    exact hlt
  let d1 : Draft := { d with builder := { d.builder with
    func := (d.builder.func.insertAt d.entry (2 * k) slot.elem
      (.load (.member g (slot.path.map (·.getD k))))).2 } }
  obtain ⟨w1, hw1, h1, hev1⟩ : ∃ w1, w1 d.builder.func.numInsts = c.element slot k ∧
      d1.Follows c H E w1 ∧ d.Evolves c w w1 d1 := by
    refine ⟨Function.update w d.builder.func.numInsts (c.element slot k),
      Function.update_self .., ?_⟩
    refine h.insert (gains_of_eq ⟨rfl, rfl, rfl⟩ rfl rfl rfl) ⟨hh, fun j hj => (by cases hj),
      fun _ => ?_, fun y hy => ?_⟩ (fun j hj => by cases hj) fun effect heq => (by cases heq)
    · simp only [Machine.compute, hp, Option.elim_some, Scenario.element, hs]
    · rw [Machine.reads, List.mem_append, Option.mem_toList] at hy
      rcases hy with hy | hy
      · cases hy
      · have hy : c.machine.place? d.program (c.evalIn d w)
            (.member g (slot.path.map (·.getD k))) = some y := hy
        obtain rfl := Option.mem_unique hp hy
        exact .inl hr.reads
  have hl : d1.builder.func.instsOf d1.entry = (d.builder.func.instsOf d.entry).take (2 * k) ++
      d.builder.func.numInsts :: (d.builder.func.instsOf d.entry).drop (2 * k) :=
    Function.insertAt_instsOf _ _ _ h.straight.entry_lt
  have hb : d.builder.func.numInsts
      ∈ (d1.builder.func.instsOf d1.entry).take (2 * k + 1) := by
    have hle : ((d.builder.func.instsOf d.entry).take (2 * k)).length ≤ 2 * k := by
      rw [List.length_take]
      exact Nat.min_le_left _ _
    rw [hl, List.take_append, List.mem_append]
    right
    obtain ⟨n, hn⟩ := Nat.exists_eq_add_of_le hle
    rw [show 2 * k + 1 - ((d.builder.func.instsOf d.entry).take (2 * k)).length = n + 1 by omega,
      List.take_succ_cons]
    exact List.mem_cons_self
  obtain ⟨w2, h2, hev2, hfi⟩ : ∃ w2, (Draft.copyPosition record f slot g d k).Follows c H E w2 ∧
      d1.Evolves c w1 w2 (Draft.copyPosition record f slot g d k) ∧
      (Draft.copyPosition record f slot g d k).Fills c w2 ⟨name, [f, k]⟩ :=
    h1.insertStore (gains_of_eq ⟨rfl, rfl, rfl⟩ rfl rfl rfl) hb hre hna (hw1.trans hf.symm)
  exact ⟨w2, h2, hev1.trans hev2, hfi⟩

/-- Copying the elements of an array one by one fills all positions of its field. -/
theorem Follows.copyElements (h : d.Follows c H E w) (hra : c.Ranges slot decl)
    (hg : d.globals.lookup slot.global = some g) (hr : d.Calls record name)
    (hn : name ∈ c.records)
    (hf : ∀ k, k < slot.len → c.memory.read ⟨name, [f, k]⟩ = c.element slot k) :
    ∃ w', (d.copyElements record f slot g).Follows c H E w' ∧
      d.Evolves c w w' (d.copyElements record f slot g) ∧
      ∀ k, k < slot.len → (d.copyElements record f slot g).Fills c w' ⟨name, [f, k]⟩ := by
  have key : ∀ (positions : List Nat) (d : Draft) (w : InstId → Datum α), d.Follows c H E w →
      d.globals.lookup slot.global = some g → d.Calls record name →
      (∀ k ∈ positions, k < slot.len) →
      ∃ w', (positions.foldl (Draft.copyPosition record f slot g) d).Follows c H E w' ∧
        d.Evolves c w w' (positions.foldl (Draft.copyPosition record f slot g) d) ∧
        ∀ k ∈ positions, (positions.foldl (Draft.copyPosition record f slot g) d).Fills c w'
          ⟨name, [f, k]⟩ := by
    intro positions
    induction positions with
    | nil => exact fun d w h _ _ _ => ⟨w, h, .refl c w d, by simp⟩
    | cons k rest ih =>
      intro d w h hg hr hlt
      obtain ⟨w1, h1, hev1, hf1⟩ := h.copyPosition hra hg hr hn
        (hf k (hlt k List.mem_cons_self))
      obtain ⟨w2, h2, hev2, hf2⟩ := ih (Draft.copyPosition record f slot g d k) w1 h1 hg hr
        fun j hj => hlt j (List.mem_cons_of_mem _ hj)
      refine ⟨w2, h2, hev1.trans hev2, fun j hj => ?_⟩
      rcases List.mem_cons.mp hj with rfl | hj
      · exact hev2.fills _ hf1
      · exact hf2 j hj
  obtain ⟨w', h', hev, hfi⟩ := key (List.range slot.len) d w h hg hr fun k hk =>
    List.mem_range.mp hk
  exact ⟨w', h', hev, fun k hk => hfi k (List.mem_range.mpr hk)⟩

end Elements

theorem evolves_setOp (c : Scenario α) (w : InstId → Datum α) (hi : d.Loads i) (addr : Address) :
    d.Evolves c w w (d.setOp i (.load addr)) := by
  refine ⟨?_, fun _ _ => rfl, fun e he => ?_, .refl _, List.prefix_rfl,
    fun y hy => hy.setOp fun _ => hi.exists_load⟩
  · show _ ≤ (d.builder.func.setOp i (.load addr)).numInsts
    rw [Function.setOp_numInsts]
  · obtain ⟨inst, addr', hin, hop⟩ := he
    by_cases heq : i = e
    · subst heq
      refine ⟨{ inst with op := .load addr }, addr, ?_, rfl⟩
      show (d.builder.func.setOp i (.load addr)).insts[i]? = _
      rw [Function.setOp_getElem?_insts, if_pos rfl, hin, Option.map_some]
    · refine ⟨inst, addr', ?_, hop⟩
      show (d.builder.func.setOp i (.load addr)).insts[e]? = _
      rw [Function.setOp_getElem?_insts, if_neg heq, hin]

theorem Follows.setOp (h : d.Follows c H E w) (hi : d.Loads i) {addr : Address}
    (ho : ∀ j, .inst j ∈ addr.indexValues → [j, i].Sublist (d.builder.func.instsOf d.entry))
    (hh : d.program.Holds (.load addr)) {y : Place}
    (hp : c.machine.place? d.program (c.evalIn d w) addr = some y) (hva : c.memory.read y = w i)
    (hH : H y)
    (hin : ∀ v ∈ addr.indexValues, ∀ name, d.program.operandName? v = some name → c.Reads name) :
    (d.setOp i (.load addr)).Follows c H E w := by
  refine ⟨h.straight.setOp ho hh, h.simulates.setOp (fun _ => hi.exists_load) ?_ fun z hz => ?_⟩
  · rw [hp, Option.elim_some, hva]
  · rw [Machine.reads, List.mem_append, Option.mem_toList] at hz
    rcases hz with hz | hz
    · obtain ⟨name, hn, rfl⟩ := List.mem_map.mp hz
      obtain ⟨v, hv, hv'⟩ := List.mem_filterMap.mp hn
      exact .inl (hin v hv name hv')
    · have hz : c.machine.place? d.program (c.evalIn d w) addr = some z := hz
      obtain rfl := Option.mem_unique hp hz
      exact .inr hH

theorem Follows.patchValue (h : d.Follows c H E w) {slot : ValueSlot} (hs : d.Gets c w slot)
    (hr : d.Calls record name)
    (hf : c.memory.read ⟨name, [f]⟩ = c.slotDatum slot) (hH : H ⟨name, [f]⟩) :
    (d.setOp slot.read (.load (.member record [f]))).Follows c H E w := by
  refine h.setOp hs.loads (fun j hj => by cases hj) ?_ ?_ (hf.trans hs.value.symm) hH
    fun v hv => (by cases hv)
  · refine ⟨fun g hg => (by cases hg), fun addr g ha hg => ?_,
      fun callee args heq => (by cases heq)⟩
    obtain rfl := Option.some.inj ha
    obtain rfl := Option.some.inj hg
    exact hr.lt
  · simp only [Machine.place?, hr.globalName?, Option.map_some]

/-- A read that gets the address of its field reads the value that it was given. -/
theorem Follows.patchReads (h : d.Follows c H E w) {slot : ArraySlot}
    (hs : ∀ r ∈ slot.reads, d.Picks c w slot r) (hre : d.Calls record name)
    (hf : ∀ k, k < slot.len → c.memory.read ⟨name, [f, k]⟩ = (c.arrayDatum slot).part k)
    (hH : ∀ k, k < slot.len → H ⟨name, [f, k]⟩) :
    (d.patchReads record f slot).Follows c H E w ∧
      d.Evolves c w w (d.patchReads record f slot) := by
  unfold Draft.patchReads
  generalize slot.reads = reads at hs
  induction reads generalizing d with
  | nil => exact ⟨h, .refl c w d⟩
  | cons r rest ih =>
    have hr := hs r List.mem_cons_self
    have hi :
        (Address.element record [.fixed f, .dynamic r.2]).indexValues = [r.2] := rfl
    have hse : (d.setOp r.1 (.load (.element record [.fixed f, .dynamic r.2]))).Follows c H E w := by
      refine h.setOp hr.loads (fun j hj => ?_) ⟨fun g hg => ?_, fun addr g ha hg => ?_,
        fun callee args heq => (by cases heq)⟩ ?_ ?_ (hH _ hr.index_lt) fun v hv name hv' => ?_
      · rw [hi, List.mem_singleton] at hj
        exact hr.before j hj.symm
      · exact hr.global_lt g (List.mem_singleton.mp hg).symm
      · obtain rfl := Option.some.inj ha
        obtain rfl := Option.some.inj hg
        exact hre.lt
      · simp only [Machine.place?, hre.globalName?, Option.map_some, List.map_cons, List.map_nil,
          Machine.position]
      · rw [hf _ hr.index_lt, hr.value]
      · rw [hi, List.mem_singleton] at hv
        exact hr.reads name (hv ▸ hv')
    have hev : d.Evolves c w w (d.setOp r.1 (.load (.element record [.fixed f, .dynamic r.2]))) :=
      evolves_setOp c w hr.loads _
    obtain ⟨h', hev'⟩ := ih hse hre fun r' hr' =>
      (hs r' (List.mem_cons_of_mem _ hr')).evolves h.straight hev
    exact ⟨h', hev.trans hev'⟩

end Draft

namespace Emission

variable {α : Type} {c : Scenario α} {s t : Emission} {E : Scope → List (Effect α)}
  {W W' : Scope → InstId → Datum α} {F G : Scope → Place → Prop} {scope : Scope} {d d' : Draft}
  {l : TransferLayout} {stored loaded : GlobalId} {P : Place → Prop}

def Filled (c : Scenario α) (W : Scope → InstId → Datum α) (F : Scope → Place → Prop)
    (s : Emission) : Prop :=
  ∀ x y, F x y → ∃ d, s.drafts[x.val]? = some d ∧ d.Fills c (W x) y

theorem Filled.evolves (h : s.Filled c W F) (hs : s.Evolves c W W' t) : t.Filled c W' F := by
  intro x y hy
  obtain ⟨d, hd, hf⟩ := h x y hy
  obtain ⟨d', hd', hev⟩ := hs x d hd
  exact ⟨d', hd', hev.fills y hf⟩

def Provides (c : Scenario α) (E : Scope → List (Effect α)) (F : Scope → Place → Prop)
    (s : Emission) : Prop :=
  ∃ W, s.Tracks c E W ∧ s.Filled c W F

theorem Provides.mono (h : s.Provides c E F) (hF : ∀ x y, G x y → F x y) : s.Provides c E G := by
  obtain ⟨W, hW, hf⟩ := h
  exact ⟨W, hW, fun x y hy => hf x y (hF x y hy)⟩

theorem Tracks.edit (h : s.Tracks c E W) (hfi : s.Filled c W F)
    (hd : s.drafts[scope.val]? = some d)
    (hed : ∃ w', d'.Follows c (c.Hands scope) (E scope) w' ∧ d.Evolves c (W scope) w' d' ∧
      ∀ y, P y → d'.Fills c w' y) :
    ∃ W', (s.setDraft scope d').Tracks c E W' ∧
      (s.setDraft scope d').Filled c W' (fun x y => F x y ∨ x = scope ∧ P y) ∧
      s.Evolves c W W' (s.setDraft scope d') := by
  obtain ⟨w', hf, he, hfil⟩ := hed
  have hW : ∀ x, x ≠ scope → Function.update W scope w' x = W x :=
    fun x hx => Function.update_of_ne hx ..
  have hs : Function.update W scope w' scope = w' := Function.update_self ..
  have ha : s.Evolves c W (Function.update W scope w') (s.setDraft scope d') :=
    evolves_setDraft hd hW (hs.symm ▸ he)
  refine ⟨Function.update W scope w', h.setDraft hd (fun _ _ => rfl) hW (hs.symm ▸ he)
    (hs.symm ▸ hf), fun x y hy => ?_, ha⟩
  rcases hy with hy | ⟨rfl, hy⟩
  · exact hfi.evolves ha x y hy
  · exact ⟨d', getElem?_setDraft_self hd, hs.symm ▸ hfil y hy⟩

theorem Provides.edit (h : s.Provides c E F) (hd : s.drafts[scope.val]? = some d)
    (he : ∀ W, s.Tracks c E W → ∃ w', d'.Follows c (c.Hands scope) (E scope) w' ∧
      d.Evolves c (W scope) w' d' ∧ ∀ y, P y → d'.Fills c w' y) :
    (s.setDraft scope d').Provides c E fun x y => F x y ∨ x = scope ∧ P y := by
  obtain ⟨W, hW, hf⟩ := h
  obtain ⟨W', hW', hf', -⟩ := hW.edit hf hd (he W hW)
  exact ⟨W', hW', hf'⟩

theorem Provides.patch (h : s.Provides c E F) (hd : s.drafts[scope.val]? = some d)
    (he : ∀ W, s.Tracks c E W → d'.Follows c (c.Hands scope) (E scope) (W scope) ∧
      d.Evolves c (W scope) (W scope) d') : (s.setDraft scope d').Provides c E F := by
  have hn : ∀ W, s.Tracks c E W → ∃ w', d'.Follows c (c.Hands scope) (E scope) w' ∧
      d.Evolves c (W scope) w' d' ∧ ∀ y, False → d'.Fills c w' y :=
    fun W hW => ⟨W scope, (he W hW).1, (he W hW).2, fun _ hy => hy.elim⟩
  exact (h.edit hd hn).mono fun _ _ hy => .inl hy

end Emission

namespace Source

open Emission

variable {α : Type} {c : Scenario α} {s : Emission} {E : Scope → List (Effect α)}
  {F : Scope → Place → Prop} {l : TransferLayout} {stored loaded : GlobalId} {f : Nat}
  {tree : PostDominators} {table : ScopeTable} {types : TypePool}

theorem mem_records (hl : l ∈ c.layouts) : l.name ∈ c.records := List.mem_map_of_mem hl

section Wiring

variable {k : Nat} {t : Emission}

def FieldBelow (c : Scenario α) (l : TransferLayout) (k : Nat) (y : Place) : Prop :=
  c.FieldOf l y ∧ ∀ f ∈ y.path.head?, f < k

variable {y : Place}

theorem not_fieldBelow_zero : ¬FieldBelow c l 0 y := by
  rintro ⟨hy, hb⟩
  cases hy <;> exact Nat.not_lt_zero _ (hb _ rfl)

theorem FieldBelow.value_succ (h : FieldBelow c l (k + 1) y)
    (hk : k < (c.valuesOf l).length) : FieldBelow c l k y ∨ y = ⟨l.name, [k]⟩ := by
  obtain ⟨hy, hb⟩ := h
  have hl := fun f hf => Nat.lt_succ_iff_lt_or_eq.mp (hb f hf)
  cases hy with
  | value hs =>
    rcases hl _ rfl with hlt | rfl
    · exact .inl ⟨.value hs, fun _ hf => Option.some.inj hf ▸ hlt⟩
    · exact .inr rfl
  | element hs hi =>
    have hlt := hb _ rfl
    omega

theorem FieldBelow.array_succ (h : FieldBelow c l ((c.valuesOf l).length + k + 1) y)
    {slot : ArraySlot} (hs : (c.arraysOf l)[k]? = some slot) :
    FieldBelow c l ((c.valuesOf l).length + k) y ∨
      ∃ i, i < slot.len ∧ y = ⟨l.name, [(c.valuesOf l).length + k, i]⟩ := by
  obtain ⟨hy, hb⟩ := h
  cases hy with
  | @value f _ hv =>
    have hf : f < (c.valuesOf l).length := (List.getElem?_eq_some_iff.mp hv).1
    exact .inl ⟨.value hv, fun _ h => Option.some.inj h ▸ Nat.lt_add_right k hf⟩
  | @element f i slot' hs' hi =>
    rcases Nat.lt_succ_iff_lt_or_eq.mp (hb _ rfl) with hlt | heq
    · exact .inl ⟨.element hs' hi, fun _ hf => Option.some.inj hf ▸ hlt⟩
    · obtain rfl := Nat.add_left_cancel heq
      obtain rfl := Option.mem_unique hs' hs
      exact .inr ⟨i, hi, rfl⟩

/-- Each field that is wired is provided by the part that its record comes from. -/
theorem provides_of_wiring (hsto : c.Stocked) (hin : c.types.get TypeId.int = .int)
    (hl : l ∈ c.layouts) (hva : s.ledger.values = c.ledger.values)
    (ha : s.ledger.arrays = c.ledger.arrays) (hs : s.Provides c E F)
    (h : Wiring c.source l (c.valuesOf l) (c.arraysOf l) s k t) :
    t.Provides c E fun x y => F x y ∨ x = l.src ∧ FieldBelow c l k y := by
  induction h with
  | declared hd he =>
    have h1 := hs.patch hd fun W hW => (hW.parts _ _ hd).declareRecord (.plain l.name l.record)
    have h2 := h1.patch he fun W hW => (hW.parts _ _ he).declareRecord (.plain l.name l.record)
    exact h2.mono fun x y hy => hy.resolve_right fun hb => not_fieldBelow_zero hb.2
  | @step k k' t u hw hste ih =>
    obtain ⟨drafts, rfl, -⟩ := hw.frame
    cases hste with
    | global hd _ hde => exact ih.patch hd fun W hW => (hW.parts _ _ hd).declareGlobal hde
    | @value _ slot stored loaded v d e hsl hd hst hv he hlo =>
      have hf := hsto.read_value hl hsl
      obtain ⟨hm, hk⟩ := Ledger.mem_valuesOf.mp (List.mem_of_getElem? hsl)
      have hds : slot.dst = l.dst := congrArg RecordKey.dst hk
      have h1 := ih.edit (P := fun y => y = ⟨l.name, [k]⟩) hd fun W hW => by
        obtain ⟨w', hfo, hev, hfi⟩ := (hW.parts _ _ hd).storeField hin
          (mem_of_lookup hv) hst (mem_records hl) hf
        exact ⟨w', hfo, hev, fun y hy => hy ▸ hfi⟩
      have h2 := h1.patch he fun W hW => by
        obtain ⟨-, e', he', hge⟩ := hW.values slot (hva ▸ hm)
        rw [hds] at he' hge
        obtain rfl := Option.mem_unique he he'
        exact ⟨(hW.parts _ _ he).patchValue hge hlo hf ⟨l, hl, rfl, .value hsl⟩,
          Draft.evolves_setOp c _ hge.loads _⟩
      refine h2.mono fun x y hy => ?_
      rcases hy with hy | ⟨rfl, hy⟩
      · exact .inl (.inl hy)
      · rcases hy.value_succ (List.getElem?_eq_some_iff.mp hsl).1 with hy | hy
        · exact .inl (.inr ⟨rfl, hy⟩)
        · exact .inr ⟨rfl, hy⟩
    | @array k slot stored loaded g d e hsl hd hst hg he hlo =>
      have hf := hsto.read_element hl hsl
      obtain ⟨hm, hk⟩ := Ledger.mem_arraysOf.mp (List.mem_of_getElem? hsl)
      have hds : slot.dst = l.dst := congrArg RecordKey.dst hk
      have h1 := ih.edit (P := fun y => ∃ i, i < slot.len ∧
          y = ⟨l.name, [(c.valuesOf l).length + k, i]⟩) hd fun W hW => by
        obtain ⟨-, ⟨decl, hra⟩, -⟩ := hW.arrays slot (ha ▸ hm)
        obtain ⟨w', hfo, hev, hfi⟩ := (hW.parts _ _ hd).copyElements hra hg hst
          (mem_records hl) fun i hi => (hf i).trans (c.part_arrayDatum hi)
        refine ⟨w', hfo, hev, ?_⟩
        rintro y ⟨i, hi, rfl⟩
        exact hfi i hi
      have h2 := h1.patch he fun W hW => by
        obtain ⟨-, -, hre⟩ := hW.arrays slot (ha ▸ hm)
        refine (hW.parts _ _ he).patchReads (fun r hr => ?_) hlo (fun i _ => hf i)
          fun i hi => ⟨l, hl, rfl, .element hsl hi⟩
        obtain ⟨e', he', hp⟩ := hre r hr
        rw [hds] at he' hp
        obtain rfl := Option.mem_unique he he'
        exact hp
      refine h2.mono fun x y hy => ?_
      rcases hy with hy | ⟨rfl, hy⟩
      · exact .inl (.inl hy)
      · rcases hy.array_succ hsl with hy | hy
        · exact .inl (.inr ⟨rfl, hy⟩)
        · exact .inr ⟨rfl, hy⟩

end Wiring

def Supplied (c : Scenario α) (E : Scope → List (Effect α)) (layouts : List TransferLayout)
    (s : Emission) : Prop :=
  ∃ W, s.Tracks c E W ∧ s.Filled c W fun x y => ∃ l ∈ layouts, x = l.src ∧ c.FieldOf l y

/-- Laying out a record supplies its fields, and those of other records stay supplied. -/
theorem sat_layOut_supplied (hst : c.Stocked) (hin : c.types.get TypeId.int = .int)
    {key : RecordKey} (hva : s.ledger.values = c.ledger.values)
    (har : s.ledger.arrays = c.ledger.arrays)
    (hv : s.ledger.valuesOf s.types key = c.ledger.valuesOf c.pool key)
    (ha : s.ledger.arraysOf s.types key = c.ledger.arraysOf c.pool key) (name : String)
    {layouts : List TransferLayout} (h : Supplied c E layouts s) :
    Act.Sat Act.Any (c.source.layOut key name) s fun o t => (∀ l ∈ o, l ∈ c.layouts) →
      Supplied c E (layouts ++ o.toList) t ∧ ∀ l ∈ o, c.Shaped t.types l := by
  have hfix : ∀ types : TypePool, Supplied c E layouts
      { s with ledger := s.ledger.markFixed key, types := types } := by
    intro types
    obtain ⟨W, hW, hfil⟩ := h
    exact ⟨W, hW.congr rfl rfl rfl, hfil⟩
  refine (sat_layOut_layingOut key name s).mono fun o t ht hm => ?_
  cases ht with
  | empty _ _ =>
    rw [Option.toList_none, List.append_nil]
    exact ⟨hfix s.types, by simp⟩
  | @wired l types _ _ hla hw =>
    have hl : l ∈ c.layouts := hm l rfl
    obtain ⟨-, rfl, -, ids, hfi, hr, hi⟩ := hla
    have hv : s.ledger.valuesOf s.types l.key = c.valuesOf l := hv
    have ha : s.ledger.arraysOf s.types l.key = c.arraysOf l := ha
    rw [hv, ha] at hw
    rw [hv] at hfi
    rw [ha] at hi
    have hal := provides_of_wiring
      (s := { s with ledger := s.ledger.markFixed l.key, types := types }) hst hin hl hva
      har (hfix types) hw
    refine ⟨hal.mono fun x y hy => ?_, fun l' hl' => ?_⟩
    · obtain ⟨l', hl', rfl, hy⟩ := hy
      rcases List.mem_append.mp hl' with hl' | hl'
      · exact .inl ⟨l', hl', rfl, hy⟩
      · obtain rfl := List.mem_singleton.mp hl'
        refine .inr ⟨rfl, hy, ?_⟩
        cases hy with
        | value hs =>
          have hlt := (List.getElem?_eq_some_iff.mp hs).1
          exact fun _ hf => Option.some.inj hf ▸ Nat.lt_add_right _ hlt
        | element hs _ =>
          have hlt := (List.getElem?_eq_some_iff.mp hs).1
          exact fun _ hf => Option.some.inj hf ▸ Nat.add_lt_add_left hlt _
    · obtain rfl := Option.some.inj hl'
      obtain ⟨drafts, rfl, -⟩ := hw.frame
      exact ⟨ids, hfi ▸ hr, hi⟩

/-- The parts of a source are complete: they follow a run, fill all records, and read from them. -/
structure Completes (c : Scenario α) (t : Emission) : Prop where
  supplied : Supplied c (c.script c.order) c.layouts t
  shaped : ∀ l ∈ c.layouts, c.Shaped t.types l
  values : t.ledger.values = c.ledger.values
  arrays : t.ledger.arrays = c.ledger.arrays
  addressed : ∀ (n : Nat) (d : Draft) (e : InstId) (inst : Inst), t.drafts[n]? = some d →
    d.builder.func.insts[e]? = some inst → inst.op.address? ≠ some .pending

/-- A run of a source that is copied expects the records of the slots that copying asks for. -/
structure Expects (c : Scenario α) (src : Source) (s : Emission) : Prop where
  source : c.source = src
  pool : c.pool = s.types
  ledger : c.ledger = s.ledger
  consistent : c.Consistent
  stocked : c.Stocked
  tracks : ∃ W, s.Tracks c (c.script c.order) W

section Records

variable {src : Source} {s₁ : Emission} {done : List (RecordKey × String)}
  {layouts : List TransferLayout}

structure Stocks (c : Scenario α) (src : Source) (s₁ : Emission) (done : List (RecordKey × String))
    (layouts : List TransferLayout) (s : Emission) : Prop where
  served : Served src s₁ done layouts s
  supplied : (∀ l ∈ layouts, l ∈ c.layouts) → Supplied c (c.script c.order) layouts s
  shaped : (∀ l ∈ layouts, l ∈ c.layouts) → ∀ l ∈ layouts, c.Shaped s.types l

theorem Stocks.sat_layOut (h : Stocks c src s₁ done layouts s) (hs1 : Waiting src s₁)
    (hc : Expects c src s₁) (r : RecordKey × String) :
    Act.Sat Act.Any (src.layOut r.1 r.2) s fun o t =>
      Stocks c src s₁ (done ++ [r]) (layouts ++ o.toList) t := by
  have hs := h.served
  have hn : Act.Sat Act.Any (src.layOut r.1 r.2) s fun o t =>
      (∀ l ∈ layouts, l ∈ c.layouts) → (∀ l ∈ o, l ∈ c.layouts) →
        Supplied c (c.script c.order) (layouts ++ o.toList) t ∧ ∀ l ∈ o, c.Shaped t.types l := by
    by_cases hsu : ∀ l ∈ layouts, l ∈ c.layouts
    · obtain ⟨rfl, hp, hle, hco, hst, -⟩ := hc
      refine (sat_layOut_supplied hst hco.int (hle ▸ hs.edits.values)
        (hle ▸ hs.edits.arrays) ?_ ?_ r.2 (h.supplied hsu)).mono fun o t ht _ => ht
      · rw [hle, hp, hs.valuesOf hs1]
      · rw [hle, hp, hs.arraysOf hs1]
    · exact Act.sat_any_iff.mpr fun _ _ _ h => absurd h hsu
  refine ((hs.sat_layOut hs1 r).and hn).mono fun o t ht => ?_
  obtain ⟨⟨hs', he⟩, hne⟩ := ht
  have ho : ∀ {P : TransferLayout → Prop}, (∀ l ∈ layouts ++ o.toList, P l) →
      (∀ l ∈ layouts, P l) ∧ ∀ l ∈ o, P l := fun hP =>
    ⟨fun l hl => hP l (List.mem_append_left _ hl),
      fun l hl => hP l (List.mem_append_right _ (Option.mem_toList.mpr hl))⟩
  refine ⟨hs', fun hsu => ?_, fun hsu l hl => ?_⟩
  · exact (hne (ho hsu).1 (ho hsu).2).1
  · rcases List.mem_append.mp hl with hl | hl
    · exact (h.shaped (ho hsu).1 l hl).extends he
    · exact (hne (ho hsu).1 (ho hsu).2).2 l (Option.mem_toList.mp hl)

end Records

/-- Laying out after copying serves every record, and stocks it in any scenario that fits. -/
theorem sat_emitTable_stocks (α : Type) {src : Source} (hty : types.Grounded)
    (hi : ∀ inst ∈ src.func.insts, inst.ty < types.size) :
    Act.Sat Act.Any (src.emitTable tree table) (Emission.start src types table.scopes)
      fun layouts t => ∃ s₁ done, (src.copyAll tree).run (Emission.start src types table.scopes)
          = (.ok (), s₁) ∧ s₁.types = types ∧ t.problems = s₁.problems ∧
        Served src s₁ done layouts t ∧
        ∀ c : Scenario α, Expects c src s₁ → Stocks c src s₁ done layouts t := by
  unfold emitTable layOutTable
  simp only [Act.sat_bind, Act.sat_get, Act.sat_pure]
  refine Act.sat_any_iff.mpr fun _ s₁ hco => ?_
  have hs1 := waiting_of_copyAll hco hty hi
  have hsa := ((sat_copyAll_copying tree _).of_run hco).sameRecords.1
  have hst : ∀ done layouts s r, (Served src s₁ done layouts s ∧
      ∀ c : Scenario α, Expects c src s₁ → Stocks c src s₁ done layouts s) →
      Act.Sat Act.Any (src.layOut r.1 r.2) s fun o t =>
        Served src s₁ (done ++ [r]) (layouts ++ o.toList) t ∧
        ∀ c : Scenario α, Expects c src s₁ →
          Stocks c src s₁ (done ++ [r]) (layouts ++ o.toList) t := by
    intro done layouts s r h
    refine ((h.1.sat_layOut hs1 r).mono fun _ _ ht => ht.1).and (Act.sat_any_iff.mpr fun o t hr c hc => ?_)
    exact ((h.2 c hc).sat_layOut hs1 hc r).of_run hr
  have hn : Served src s₁ [] [] s₁ ∧
      ∀ c : Scenario α, Expects c src s₁ → Stocks c src s₁ [] [] s₁ := by
    refine ⟨served_nil hs1, fun c hc => ⟨served_nil hs1, fun _ => ?_, by simp⟩⟩
    obtain ⟨W, hW⟩ := hc.tracks
    refine ⟨W, hW, ?_⟩
    rintro x y ⟨l, hl, -⟩
    cases hl
  refine ((sat_layOutAll_of_step hst [] hn _).and (sat_layOutAll_lays _)).mono
    fun named s hs => ?_
  refine ((sat_layOutAll_of_step hst _ hs.1 _).and (sat_layOutAll_lays _)).mono
    fun others t ht => ?_
  exact ⟨s₁, _, hco, hsa, Lays.problems (hs.2.trans ht.2), ht.1.1, ht.1.2⟩

theorem completes_of_emitTable (α : Type) {src : Source} (ht : types.Grounded)
    (hi : ∀ inst ∈ src.func.insts, inst.ty < types.size)
    (hre : src.func.terminator? src.func.entry = some .ret)
    (hsc : table.scopes.length ≤ Scope.limit) {layouts : List TransferLayout} {t : Emission}
    (hr : (src.emitTable tree table).run (Emission.start src types table.scopes) = (.ok layouts, t))
    (hcl : t.Clean) :
    types.Extends t.types ∧ ∃ ledger, ∀ c : Scenario α, c.source = src → c.pool = types →
      c.ledger = ledger → c.layouts = layouts → c.Consistent → c.Stocked → Completes c t := by
  obtain ⟨s₁, done, hco, hsa, hpr, hs, hsto⟩ :=
    (sat_emitTable_stocks α ht hi).of_run hr
  refine ⟨hsa ▸ hs.edits.types, s₁.ledger, fun c hso hpo hle hla hc hst => ?_⟩
  subst hso hpo hla
  obtain ⟨-, hm⟩ := (sat_copyAll_mirrors hc hre tree hsc).of_run hco
  obtain ⟨-, htr⟩ := hm fun p hp => hcl p (hpr ▸ hp)
  have hex : Expects c c.source s₁ := ⟨rfl, hsa.symm, hle, hc, hst, htr⟩
  obtain ⟨-, hsu, hsh⟩ := hsto c hex
  have hse : ∀ l ∈ c.layouts, l ∈ c.layouts := fun _ hl => hl
  refine ⟨hsu hse, hsh hse, hle ▸ hs.edits.values, hle ▸ hs.edits.arrays,
    fun n d e inst hd he => ?_⟩
  obtain ⟨s2, done', hs2, hs', -, ha⟩ := (sat_emitTable_served ht hi).of_run hr
  exact hs'.address?_ne_pending hs2 ha hd he

end Source

end Stagewise
