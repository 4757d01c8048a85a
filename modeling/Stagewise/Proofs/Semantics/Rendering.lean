import Stagewise.Proofs.Emission.Copying
import Stagewise.Proofs.Semantics.Machine

namespace Stagewise

namespace Machine

variable {α : Type} {M : Machine α} {p p' : Program} {eval eval' : Value → Datum α} {m m' : Memory α}

theorem compute_withOperands {op : Operation} (h : op.isPlain = true) {vs : List Value}
    (hvs : op.operands.map eval = vs.map eval') (ty : TypeId) (b b' : BlockId) :
    M.compute p' eval' m' ⟨op.withOperands vs, ty, b'⟩ = M.compute p eval m ⟨op, ty, b⟩ := by
  have hl : vs.length = op.operands.length := by
    have := congrArg List.length hvs
    simpa using this.symm
  cases op with
  | unary _ _ | cast _ _ =>
    obtain ⟨a, rfl⟩ := List.length_eq_one_iff.mp hl
    simp only [Operation.operands, List.map_cons, List.cons.injEq] at hvs
    simp only [Operation.withOperands, refill, compute, hvs.1]
  | binary _ _ _ | compare _ _ _ | extract _ _ | shuffle _ _ _ =>
    obtain ⟨a, b, rfl⟩ := List.length_eq_two.mp hl
    simp only [Operation.operands, List.map_cons, List.cons.injEq] at hvs
    simp only [Operation.withOperands, refill, compute, hvs.1, hvs.2.1]
  | select _ _ _ | insert _ _ _ =>
    obtain ⟨a, b, c, rfl⟩ := List.length_eq_three.mp hl
    simp only [Operation.operands, List.map_cons, List.cons.injEq] at hvs
    simp only [Operation.withOperands, refill, compute, hvs.1, hvs.2.1, hvs.2.2.1]
  | load _ | store _ _ | phi _ | call _ _ => cases h

end Machine

namespace Emission

variable {α : Type} {M : Machine α} {src : Source} {s : Emission} {scope : Scope} {p : Program}
  {eval eval' : Value → Datum α} {m t : Memory α} {op op' : Operation}

/-- What stands in a part for operands and functions of the source has their values and names. -/
structure Reflects (src : Source) (s : Emission) (scope : Scope) (p : Program)
    (eval eval' : Value → Datum α) : Prop where
  value : ∀ v r, Denotes src s scope v r → eval' r = eval v
  name : ∀ v r, Denotes src s scope v r → p.operandName? r = src.program.operandName? v
  callee : ∀ f copy, DenotesFunction src s scope f copy →
    p.decls[copy]?.map FunctionDecl.name = src.program.decls[f]?.map FunctionDecl.name

theorem Reflects.globalName? (h : Reflects src s scope p eval eval') {g copy : GlobalId}
    (hg : Denotes src s scope (.global g) (.global copy)) :
    p.globalName? copy = src.program.globalName? g := h.name _ _ hg

theorem Reflects.map_eq (h : Reflects src s scope p eval eval') {vs rs : List Value}
    (hvs : List.Forall₂ (Denotes src s scope) vs rs) : vs.map eval = rs.map eval' := by
  induction hvs with
  | nil => rfl
  | cons hv _ ih => rw [List.map_cons, List.map_cons, ih, h.value _ _ hv]

theorem RendersAddress.place?_eq {a b : Address} (h : RendersAddress src s scope a b)
    (hr : Reflects src s scope p eval eval') :
    M.place? p eval' b = M.place? src.program eval a := by
  cases h with
  | member path hg => simp only [Machine.place?, hr.globalName? hg]
  | element hg hp =>
    have hs : ∀ {path path' : List Step}, List.Forall₂ (RendersStep src s scope) path path' →
        path'.map (M.position eval') = path.map (M.position eval) := by
      intro path path' hp
      induction hp with
      | nil => rfl
      | cons hst _ ih =>
        rw [List.map_cons, List.map_cons, ih]
        cases hst with
        | fixed k => rfl
        | dynamic hv => simp only [Machine.position, hr.value _ _ hv]
    simp only [Machine.place?, hr.globalName? hg, hs hp]

/-- An operation computes the same in a part and in the source. -/
theorem Renders.compute_eq {inst : Inst} (h : Renders src s scope inst.op op')
    (hop : inst.op.isPhi = false) (hr : Reflects src s scope p eval eval')
    (hm : ∀ x, M.loadPlace? src.program eval inst.op = some x → t.read x = m.read x) (b : BlockId) :
    M.compute p eval' t ⟨op', inst.copyType, b⟩ = M.compute src.program eval m inst := by
  obtain ⟨op, ty, home⟩ := inst
  simp only at h hop hm
  cases h with
  | plain hp hvs =>
    have hty : Inst.copyType ⟨op, ty, home⟩ = ty := by
      cases op <;> first | rfl | cases hp
    rw [hty]
    exact Machine.compute_withOperands hp (hr.map_eq hvs) ty home b
  | @load addr addr' ha =>
    simp only [Machine.compute, ha.place?_eq hr]
    cases hx : M.place? src.program eval addr with
    | none => rfl
    | some x => exact hm x hx
  | store _ _ => rfl
  | phi _ _ => cases hop
  | @call callee copy args args' hca har =>
    have hn := hr.callee _ _ hca
    have hma := hr.map_eq har
    simp only [Machine.compute, Inst.copyType]
    cases hc : src.program.decls[callee]? with
    | none =>
      rw [hc, Option.map_none, Option.map_eq_none_iff] at hn
      rw [hn]
      rfl
    | some decl =>
      rw [hc, Option.map_some] at hn
      obtain ⟨decl', hd', heq⟩ := Option.map_eq_some_iff.mp hn
      rw [hd', Option.elim_some, Option.elim_some, heq, hma]

theorem Renders.effect?_eq (h : Renders src s scope op op')
    (hr : Reflects src s scope p eval eval') :
    M.effect? p eval' op' = M.effect? src.program eval op := by
  cases h with
  | plain hp hvs =>
    cases op with
    | load _ | store _ _ | phi _ | call _ _ => cases hp
    | _ => rfl
  | load _ => rfl
  | store hv ha => simp only [Machine.effect?, ha.place?_eq hr, hr.value _ _ hv]
  | phi _ _ => rfl
  | @call callee copy args args' hc har =>
    have hn := hr.callee _ _ hc
    have hm := hr.map_eq har
    have hca : ∀ decl : Option FunctionDecl,
        decl.map (fun d => Effect.call d.name (args.map eval))
          = (decl.map FunctionDecl.name).map fun name => Effect.call name (args.map eval) := by
      intro decl
      cases decl <;> rfl
    simp only [Machine.effect?, ← hm, hca, hn]

theorem Renders.readNames_eq (h : Renders src s scope op op') (hop : op.isPhi = false)
    (hr : Reflects src s scope p eval eval') : p.readNames op' = src.program.readNames op := by
  have ho : ∀ {vs rs : List Value}, List.Forall₂ (Denotes src s scope) vs rs →
      rs.filterMap p.operandName? = vs.filterMap src.program.operandName? := by
    intro vs rs hvs
    induction hvs with
    | nil => rfl
    | cons hv _ ih => rw [List.filterMap_cons, List.filterMap_cons, ih, hr.name _ _ hv]
  have hl : p.loadName? op' = src.program.loadName? op := by
    cases h with
    | plain hp hvs =>
      cases op with
      | load _ | store _ _ | phi _ | call _ _ => cases hp
      | _ => rfl
    | load ha =>
      cases ha with
      | member path hg | element hg _ => exact hr.globalName? hg
    | store _ _ | phi _ _ | call _ _ => rfl
  rw [Program.readNames, Program.readNames, ho (h.operands hop), hl]

end Emission

end Stagewise
