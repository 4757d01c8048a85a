import Stagewise.Classification.Propagation

namespace Stagewise

namespace Classifier

def absorbInst (c : Classifier) (t : Classification) (i : InstId) (info : ValueInfo) : ValueInfo :=
  if info.isUsed then
    match (c.func.insts[i]?).bind (·.op.loadedGlobal?) with
    | some g => { info with flags := info.flags.union (t.global g).flags }
    | none => info
  else info

def absorb (c : Classifier) (t : Classification) : Classification :=
  { t with insts := t.insts.mapIdx (c.absorbInst t) }

def operandScope (c : Classifier) (t : Classification) (i : InstId) (op : Operation)
    (flags : UsageFlags) : Option Scope :=
  match op with
  | .load addr =>
    match addr.global? with
    | some g => Scope.latest (t.global g).scope (addr.indexValues.map t.valueScope)
    | none => none
  | .phi incoming =>
    Scope.latest none (incoming.map fun e => Scope.later (t.valueScope e.2) (t.block e.1).scope)
  | .call (.direct callee) args =>
    match c.callRule? i callee args flags with
    | some rule => Scope.latest rule.floor (args.map t.valueScope)
    | none => none
  | .call (.indirect _) _ => none
  | op => Scope.latest none (op.operands.map t.valueScope)

/-- A used block is as late as the condition of its branch and as the blocks that decide whether
it runs. -/
def resolveBlock (c : Classifier) (t : Classification) (b : BlockId) : Classification :=
  let info := t.block b
  if info.isUsed then
    let scope := Scope.later info.scope ((c.func.cond? b).elim none t.valueScope)
    let scope := Scope.latest scope ((c.parents b).map fun p => (t.block p).scope)
    t.setBlock b { info with scope := scope }
  else t

def resolveTerminator (c : Classifier) (t : Classification) (b : BlockId) : Classification :=
  let info := t.terminator b
  if info.isUsed then
    match c.func.cond? b with
    | some cond => t.setTerminator b { info with scope := Scope.later info.scope (t.valueScope cond) }
    | none => t
  else t

/-- A used instruction goes where the strategy puts it, which may not be earlier than before or
earlier than its operands. -/
def resolveInst (c : Classifier) (t : Classification) (i : InstId) :
    Except Fault Classification :=
  let info := t.inst i
  match c.func.insts[i]? with
  | some inst =>
    if info.isUsed && !t.isPinned i then
      let computed := c.operandScope t i inst.op info.flags
      let scope := c.strategy.placeValue info computed
      if Scope.rank scope < Scope.rank info.scope || Scope.rank scope < Scope.rank computed then
        .error (.scopeLowered i (Scope.later info.scope computed) scope)
      else .ok (t.setInst i { info with scope := scope })
    else .ok t
  | none => .ok t

def resolveInsts (c : Classifier) : List InstId → Classification → Except Fault Unit × Classification
  | [], t => (.ok (), t)
  | i :: rest, t =>
    match c.resolveInst t i with
    | .ok t => c.resolveInsts rest t
    | .error e => (.error e, t)

def resolveRound (c : Classifier) (t : Classification) : Except Fault Unit × Classification :=
  let t := c.func.blockIds.foldl c.resolveBlock t
  let t := c.func.blockIds.foldl c.resolveTerminator t
  c.resolveInsts c.func.instIds t

def rankSum (infos : Array ValueInfo) : Nat :=
  infos.foldl (fun n info => n + Scope.rank info.scope) 0

/-- The ranks of all placements together. A round only raises placements, so it changes nothing if
it keeps this number. -/
def weight (t : Classification) : Nat :=
  rankSum t.insts + rankSum t.blocks + rankSum t.terminators

def settle (c : Classifier) : Nat → Classification → Except Fault Unit × Classification
  | 0, t => (.ok (), t)
  | fuel + 1, t =>
    match c.resolveRound t with
    | (.error e, next) => (.error e, next)
    | (.ok (), next) => if weight next == weight t then (.ok (), t) else c.settle fuel next

def raises (c : Classifier) : Nat := 256 * (c.func.numInsts + 2 * c.func.numBlocks)

def resolve (c : Classifier) (t : Classification) : Except Fault Unit × Classification :=
  c.settle (c.raises + 1) (c.absorb t)

end Classifier

end Stagewise
