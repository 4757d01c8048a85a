import Stagewise.Emission.State

namespace Stagewise

namespace Source

def isSplat (types : TypePool) (inst : Inst) : Bool :=
  match inst.op with
  | .shuffle _ _ mask => mask.all (· == 0) && types.isVector inst.ty
  | _ => false

def getGlobal (src : Source) (scope : Scope) (g : GlobalId) : Act Emission GlobalId := do
  let d ← Emission.draft scope
  match d.globals.lookup g with
  | some copy => return copy
  | none =>
    let decl ← Act.ofOption src.program.globals[g]?
    Emission.editDraft scope (·.declareGlobal g decl)

def transferValue (src : Source) (owner dst : Scope) (i : InstId) : Act Emission Value := do
  let d ← Emission.draft dst
  match d.reads.lookup i with
  | some value => return value
  | none =>
    let inst ← src.inst i
    let types := (← get).types
    let splat := isSplat types inst
    let fieldTy := if splat then (types.element inst.ty).getD inst.ty else inst.ty
    let lanes := if splat then some ((types.lengthOf inst.ty).getD 1) else none
    let (read, value) ← Emission.editDraft dst (·.openRead i inst.ty fieldTy lanes)
    modify fun s => { s with ledger := s.ledger.addValue ⟨owner, dst, i, fieldTy, splat, read⟩ }
    return value

def getValue (src : Source) (scope : Scope) : Value → Act Emission Value
  | .const c => return .const c
  | .global g => return .global (← src.getGlobal scope g)
  | .inst i => do
    let info ← Act.ofOption src.table.insts[i]?
    match info.usedScope with
    | none =>
      Emission.report (.undefinedValue i)
      src.undef i
    | some owner =>
      if owner = scope then
        match (← Emission.draft scope).copies.lookup i with
        | some value => return value
        | none => throw (.missingCopy i scope)
      else if owner < scope then src.transferValue owner scope i
      else
        Emission.report (.backwardTransfer i owner scope)
        src.undef i

end Source

end Stagewise
