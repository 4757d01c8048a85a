import Stagewise.Emission.Operand

namespace Stagewise

def Step.leading : List Step → List Nat
  | .fixed i :: path => i :: Step.leading path
  | _ => []

namespace Source

def copyStep (src : Source) (scope : Scope) : Step → Act Emission Step
  | .fixed i => return .fixed i
  | .dynamic v => return .dynamic (← src.getValue scope v)

def copyAddress (src : Source) (scope : Scope) (i : InstId) :
    Address → Act Emission (Option Address)
  | .member g path => return some (.member (← src.getGlobal scope g) path)
  | .element g path => do
    let g ← src.getGlobal scope g
    return some (.element g (← path.mapM (src.copyStep scope)))
  | .pending => do
    Emission.report (.unsupportedAddress i)
    return none

def copyKnownPhi (src : Source) (scope : Scope) (i : InstId) (pred : BlockId)
    (incoming : List (BlockId × Value)) : Act Emission Value :=
  match incoming.lookup pred with
  | some v => src.getValue scope v
  | none => do
    Emission.report (.missingIncoming i pred)
    src.undef i

def copyIncoming (src : Source) (scope : Scope) (i : InstId) :
    List (BlockId × Value) → Act Emission (List (BlockId × Value))
  | [] => return []
  | (block, v) :: rest => do
    match (← Emission.draft scope).exits.lookup block with
    | some exit =>
      let v ← src.getValue scope v
      return (exit, v) :: (← src.copyIncoming scope i rest)
    | none =>
      Emission.report (.missingIncoming i block)
      src.copyIncoming scope i rest

def copyArrayRead (src : Source) (owner scope : Scope) (i : InstId) (ty : TypeId) (g : GlobalId)
    (path : List Step) : Act Emission Value := do
  match path.filterMap Step.dynamic? with
  | [index] =>
    let decl ← Act.ofOption src.program.globals[g]?
    let types := (← get).types
    match (types.memberPath decl.ty (Step.leading path)).bind types.lengthOf with
    | some len =>
      let index ← src.getValue scope index
      let read ← Emission.editDraft scope (·.emit ty (.load .pending))
      let slot := ArraySlot.ofRead owner scope g path ty len read index
      modify fun s => { s with ledger := s.ledger.addArray slot }
      return .inst read
    | none =>
      Emission.report (.unsupportedAddress i)
      src.undef i
  | _ =>
    Emission.report (.unsupportedAddress i)
    src.undef i

def earlierOwner (src : Source) (scope : Scope) (addr : Address) : Act Emission (Option Scope) :=
  match addr.global? with
  | some g => do
    let info ← Act.ofOption src.table.globals[g]?
    return info.usedScope.filter (· < scope)
  | none => return none

/-- A load in a scope. A binding of an earlier scope is read there and handed over. -/
def copyLoad (src : Source) (scope : Scope) (i : InstId) (ty : TypeId) (addr : Address) :
    Act Emission Value := do
  match addr, ← src.earlierOwner scope addr with
  | .member g path, some owner =>
    let g ← src.getGlobal owner g
    Emission.updateDraft owner fun d =>
      let (copy, d) := d.append d.entry ty (.load (.member g path))
      d.addCopy i (.inst copy)
    src.transferValue owner scope i
  | .element g path, some owner => src.copyArrayRead owner scope i ty g path
  | addr, _ =>
    match ← src.copyAddress scope i addr with
    | some addr => Emission.emit scope ty (.load addr)
    | none => src.undef i

/-- The value in a scope of an instruction that is copied there, if it can be copied. -/
def copyOperation (src : Source) (scope : Scope) (pred : Option BlockId) (i : InstId)
    (inst : Inst) : Act Emission (Option Value) := do
  match inst.op with
  | .phi incoming =>
    match pred with
    | some pred => return some (← src.copyKnownPhi scope i pred incoming)
    | none =>
      let incoming ← src.copyIncoming scope i incoming
      return some (← Emission.emit scope inst.ty (.phi incoming))
  | .load addr => return some (← src.copyLoad scope i inst.ty addr)
  | .store v addr =>
    let v ← src.getValue scope v
    match ← src.copyAddress scope i addr with
    | some addr => return some (← Emission.emit scope TypeId.void (.store v addr))
    | none => return none
  | .call (.direct callee) args =>
    let decl ← Act.ofOption src.program.decls[callee]?
    let callee ← Emission.editDraft scope (·.declare decl)
    let args ← args.mapM (src.getValue scope)
    return some (← Emission.emit scope inst.ty (.call (.direct callee) args))
  | .call (.indirect _) _ =>
    Emission.report (.indirectCall i)
    return none
  | op =>
    let operands ← op.operands.mapM (src.getValue scope)
    return some (← Emission.emit scope inst.ty (op.withOperands operands))

def copyInst (src : Source) (scope : Scope) (pred : Option BlockId) (i : InstId) :
    Act Emission Unit := do
  let inst ← src.inst i
  Emission.updateDraft scope (·.noteVisit pred i)
  match ← src.copyOperation scope pred i inst with
  | some value => Emission.updateDraft scope (·.addCopy i value)
  | none => return ()

end Source

end Stagewise
