import Stagewise.Proofs.Emission.Patching
import Stagewise.Proofs.Emission.Visits

namespace Stagewise

def Program.shows (p : Program) (loud : String → Bool) (inst : Inst) : Bool :=
  inst.op.isPhi || (p.writeName? inst.op).any loud

def Source.keeps (src : Source) (loud : String → Bool) : Mark → Bool
  | .phi _ => true
  | .write i => src.func.insts[i]?.any fun inst => (src.program.writeName? inst.op).any loud

theorem Program.writeName?_eq_none (p : Program) {op : Operation} (h : op.isWrite = false) :
    p.writeName? op = none := by
  cases op with
  | store v addr => cases addr <;> first | rfl | cases h
  | call callee args => cases callee <;> first | rfl | cases h
  | _ => rfl

theorem Operation.isPhi_eq_false {op : Operation} (h : op.isWrite = true) : op.isPhi = false := by
  cases op <;> first | rfl | cases h

namespace Draft

/-- A part has the flow of control of a sketch, its phis, and its writes to the names of interest. -/
structure Figures (src : Source) (loud : String → Bool) (d : Draft) (k : Sketch) : Prop where
  entry : d.builder.func.entry = 0
  size : d.builder.func.numBlocks = k.size
  ends : ∀ b, d.Ends b (d.builder.func.terminator? b) (k.ends b)
  marks : ∀ b, List.Forall₂ (d.Marks src) (d.builder.func.selected (d.program.shows loud) b)
    ((k.marks b).filter (src.keeps loud))
  listed : ∀ b, ∀ e ∈ d.builder.func.instsOf b, e < d.builder.func.numInsts
  named : ∀ b, ∀ e ∈ d.builder.func.instsOf b, ∀ inst, d.builder.func.insts[e]? = some inst →
    inst.op.isWrite = true → ∃ name, d.program.writeName? inst.op = some name
  functions : d.program.functions = []
  clashes : d.builder.clashes = k.clashes

variable {src : Source} {loud : String → Bool} {d d' d'' : Draft} {k : Sketch}

theorem Marks.shows {e : InstId} {m : Mark} (h : d.Marks src e m) :
    d.builder.func.insts[e]?.any (d.program.shows loud) = src.keeps loud m := by
  cases h with
  | phi hi hop => simp [hi, Program.shows, hop, Operation.isPhi, Source.keeps]
  | @write i inst inst' name hi hs hw _ hn hn' =>
    have hp := Operation.isPhi_eq_false hw
    simp [hi, Program.shows, hp, hn, Source.keeps, hs, hn']

theorem Shows.figures (h : d.Shows src k) : d.Figures src loud k := by
  refine ⟨h.entry, h.size, h.ends, fun b => ?_, h.listed, fun b e he inst hi hw => ?_,
    h.functions, h.clashes⟩
  · have hma := List.rel_filter (p := fun e => d.builder.func.insts[e]?.any (d.program.shows loud))
      (q := src.keeps loud) (fun e m hm => Bool.eq_iff_iff.mp hm.shows) (h.marks b)
    have hs : (d.builder.func.marked b).filter
        (fun e => d.builder.func.insts[e]?.any (d.program.shows loud))
        = d.builder.func.selected (d.program.shows loud) b := by
      rw [Function.marked, Function.selected, List.filter_filter]
      refine List.filter_congr fun e _ => ?_
      cases d.builder.func.insts[e]? with
      | none => rfl
      | some inst =>
        cases hw : inst.op.isWrite with
        | false => simp [Program.shows, d.program.writeName?_eq_none hw, Operation.isMarked, hw]
        | true => simp [Operation.isMarked, hw]
    rw [hs] at hma
    exact hma
  · have hme : e ∈ d.builder.func.marked b :=
      List.mem_filter.mpr ⟨he, by simp [hi, Operation.isMarked, hw]⟩
    obtain ⟨m, -, hm⟩ := exists_of_forall₂ (h.marks b) hme
    cases hm with
    | phi hi' hop =>
      obtain rfl := Option.mem_unique hi hi'
      rw [hop] at hw
      cases hw
    | @write _ inst' _ name hi' _ _ _ hn _ =>
      obtain rfl := Option.mem_unique hi hi'
      exact ⟨name, hn⟩

section Edits

variable {L : TransferLayout → Prop} {F : Nat → Prop} {x : Scope} {R : InstId → Prop}
  {op : Operation}

theorem Wires.writeName? (h : d.Wires src L F x op) (hw : op.isWrite = true) :
    ∃ l, L l ∧ d.program.writeName? op = some l.name := by
  have hs : ∀ {l record k} {v : Value} {path}, d.Opens L F l record k →
      ∃ l, L l ∧ d.program.writeName? (.store v (.member record path)) = some l.name := by
    rintro l record k v path ⟨hl, -, -, decl, hd, hn⟩
    exact ⟨l, hl, by simp [Program.writeName?, Address.global?, hd, hn]⟩
  cases h with
  | store ho _ _ | storeElement _ ho _ => exact hs ho
  | lane _ | element _ _ _ | load _ _ | loadElement _ _ _ => cases hw

theorem Wires.shows (h : d.Wires src L F x op) (hlo : ∀ l, L l → loud l.name = false) (ty : TypeId)
    (b : BlockId) : d.program.shows loud ⟨op, ty, b⟩ = false := by
  cases hw : op.isWrite with
  | true =>
    obtain ⟨l, hl, hn⟩ := h.writeName? hw
    simp [Program.shows, Operation.isPhi_eq_false hw, hn, hlo l hl]
  | false =>
    have hp : op.isPhi = false := by cases h <;> rfl
    simp [Program.shows, hp, d.program.writeName?_eq_none hw]

theorem Loads.shows {e : InstId} (h : d.Loads e) :
    d.builder.func.insts[e]?.any (d.program.shows loud) = false := by
  obtain ⟨inst, addr, hi, hop⟩ := h
  simp [hi, Program.shows, hop, Program.writeName?, Operation.isPhi]

/-- If no record has a name of interest, laying out leaves the flow of control of a part, its phis, and
its writes to the names of interest. -/
theorem Edits.figures (h : d.Edits src L F x R d') (hlo : ∀ l, L l → loud l.name = false)
    (hk : d.Figures src loud k) : d'.Figures src loud k := by
  have hp : d'.program = { d.program with globals := d'.program.globals } :=
    congrArg Draft.program h.same
  have hd : d.program.decls <+: d'.program.decls := hp ▸ List.prefix_rfl
  have hn : ∀ {op name}, d.program.writeName? op = some name →
      d'.program.writeName? op = some name := Program.writeName?_of_grown h.bindings hd
  have hs : ∀ b, ∀ e ∈ d.builder.func.instsOf b,
      d'.builder.func.insts[e]?.any (d'.program.shows loud)
        = d.builder.func.insts[e]?.any (d.program.shows loud) := by
    intro b e he
    obtain ⟨inst, hi⟩ : ∃ inst, d.builder.func.insts[e]? = some inst :=
      ⟨_, Array.getElem?_eq_getElem (hk.listed b e he)⟩
    rcases h.exists_inst hi with ⟨hi', -⟩ | ⟨-, ⟨addr, hop⟩, -⟩
    · rw [hi', hi]
      simp only [Option.any_some, Program.shows]
      cases hw : inst.op.isWrite with
      | false => rw [Program.writeName?_eq_none _ hw, Program.writeName?_eq_none _ hw]
      | true =>
        obtain ⟨name, ho⟩ := hk.named b e he inst hi hw
        rw [ho, hn ho]
    · have hl : d.Loads e := ⟨inst, addr, hi, hop⟩
      rw [hl.shows, (h.loads hl).shows]
  have hma : ∀ e m, d.Marks src e m → d'.Marks src e m := by
    intro e m hm
    cases hm with
    | phi hi hop => exact .phi (h.getElem? hi (by simp [hop])) hop
    | @write _ inst _ name hi hsr hw hc ho hn' =>
      refine .write (h.getElem? hi fun addr hop => ?_) hsr hw (h.copies ▸ hc) (hn ho) hn'
      rw [hop] at hw
      cases hw
  refine ⟨h.entry.trans hk.entry, h.numBlocks.trans hk.size, fun b => ?_, fun b => ?_,
    h.rooted.listed, fun b e he inst hi hw => ?_, ?_, ?_⟩
  · rw [h.ends b]
    exact (hk.ends b).branches (h.same ▸ rfl)
  · -- what is new is not shown, and what is shown is as before
    have hsa : d'.builder.func.selected (d'.program.shows loud) b
        = d.builder.func.selected (d.program.shows loud) b := by
      rw [Function.selected, Function.selected, ← List.filter_congr (hs b), ← h.listed b,
        List.filter_filter]
      refine List.filter_congr fun e he => ?_
      by_cases hlt : e < d.builder.func.numInsts
      · simp [hlt]
      · have hi := Array.getElem?_eq_getElem (h.rooted.listed b e he)
        rcases h.written e _ hi with ⟨ho, -⟩ | hwi
        · exact absurd (Array.getElem?_eq_some_iff.mp ho).1 hlt
        · rw [hi, Option.any_some, hwi.shows hlo]
          rfl
    rw [hsa]
    exact (hk.marks b).imp hma
  · rcases h.written e inst hi with ⟨ho, -⟩ | hwi
    · have he' : e ∈ d.builder.func.instsOf b := by
        rw [← h.listed b]
        exact List.mem_filter.mpr ⟨he, decide_eq_true (Array.getElem?_eq_some_iff.mp ho).1⟩
      obtain ⟨name, ho⟩ := hk.named b e he' inst ho hw
      exact ⟨name, hn ho⟩
    · obtain ⟨l, -, hn⟩ := hwi.writeName? hw
      exact ⟨_, hn⟩
  · rw [hp]
    exact hk.functions
  · rw [h.same]
    exact hk.clashes

end Edits

end Draft

namespace Source

open Emission

variable {src : Source} {loud : String → Bool}

/-- If no record has a name of interest, the parts of a function have the flow of control of the
sketches of their scopes, their phis, and their writes to the names of interest. -/
theorem sat_emitTable_figures (tree : PostDominators) (table : ScopeTable) (types : TypePool) :
    Act.Sat Act.Any (src.emitTable tree table) (Emission.start src types table.scopes)
      fun layouts u => (∀ l ∈ layouts, loud l.name = false) →
        u.drafts.size = table.scopes.length ∧
        (∀ scope : Scope, u.Meets scope
          (·.Figures src loud (src.sketch tree table.scopes.length scope))) ∧
        ∀ (n : Nat) (d : Draft), 256 ≤ n → u.drafts[n]? = some d → d.Figures src loud .empty := by
  refine (sat_emitTable_edits tree table types).mono fun layouts u hu hl => ?_
  obtain ⟨s, R, hc, hed, -⟩ := hu
  have hp := (sat_copyAll_pictured tree types table.scopes).of_run hc
  obtain ⟨_, _, hr, -⟩ := (sat_copyAll_run tree _).of_run hc
  refine ⟨hed.size.trans (hr.size.trans (size_start types table.scopes)), fun x d' hd' => ?_,
    fun n d hn hd => (hp.others n d hn (hed.others n hn ▸ hd)).figures⟩
  obtain ⟨d, hd, he⟩ := hed.back hd'
  exact he.figures hl (hp.scopes x d hd).figures

end Source

end Stagewise
