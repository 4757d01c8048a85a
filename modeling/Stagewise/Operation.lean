import Stagewise.Address

namespace Stagewise

inductive BinaryOp
  | add | sub | mul | div | rem | and | or | xor | shl | shr
  deriving DecidableEq

inductive UnaryOp
  | neg | not
  deriving DecidableEq

inductive CastOp
  | zeroExtend | signExtend | truncate | floatExtend | floatTruncate
  | signedToFloat | unsignedToFloat | floatToSigned | floatToUnsigned
  deriving DecidableEq

inductive Comparison
  | eq | ne | lt | le | gt | ge
  deriving DecidableEq

/-- What a call goes to: a declared function, or one that is computed. -/
inductive Callee
  | direct (id : FuncId)
  | indirect (target : Value)
  deriving DecidableEq

inductive Operation
  | binary (op : BinaryOp) (lhs rhs : Value)
  | unary (op : UnaryOp) (value : Value)
  | cast (op : CastOp) (value : Value)
  | compare (op : Comparison) (lhs rhs : Value)
  | select (cond ifTrue ifFalse : Value)
  | insert (vector scalar index : Value)
  | extract (vector index : Value)
  /-- Lanes of two vectors, taken by their positions in both together. -/
  | shuffle (lhs rhs : Value) (mask : List Nat)
  | load (addr : Address)
  | store (value : Value) (addr : Address)
  /-- The value that belongs to the block from which control arrived. -/
  | phi (incoming : List (BlockId × Value))
  | call (callee : Callee) (args : List Value)
  deriving DecidableEq

namespace Callee

def operands : Callee → List Value
  | .direct _ => []
  | .indirect target => [target]

end Callee

namespace Operation

/-- The operands in their fixed order: a stored value before the indices of its address, a
computed callee before the arguments. -/
def operands : Operation → List Value
  | .binary _ lhs rhs => [lhs, rhs]
  | .unary _ value => [value]
  | .cast _ value => [value]
  | .compare _ lhs rhs => [lhs, rhs]
  | .select cond ifTrue ifFalse => [cond, ifTrue, ifFalse]
  | .insert vector scalar index => [vector, scalar, index]
  | .extract vector index => [vector, index]
  | .shuffle lhs rhs _ => [lhs, rhs]
  | .load addr => addr.indexValues
  | .store value addr => value :: addr.indexValues
  | .phi incoming => incoming.map Prod.snd
  | .call callee args => callee.operands ++ args

end Operation

/-- A place of an operand takes the next value of a list, and keeps its own if there is none. -/
def refill (old : Value) : List Value → Value × List Value
  | [] => (old, [])
  | v :: vs => (v, vs)

def refillAll : List Value → List Value → List Value × List Value
  | [], vs => ([], vs)
  | old :: olds, vs =>
    let (new, vs) := refill old vs
    let (news, vs) := refillAll olds vs
    (new :: news, vs)

/-- Takes the next values of a list for the steps of a path that depend on the run. -/
def refillSteps : List Step → List Value → List Step
  | [], _ => []
  | .fixed i :: path, vs => .fixed i :: refillSteps path vs
  | .dynamic old :: path, vs =>
    let (new, vs) := refill old vs
    .dynamic new :: refillSteps path vs

/-- Takes the next values of a list for the values that come from each block. -/
def refillIncoming : List (BlockId × Value) → List Value → List (BlockId × Value)
  | [], _ => []
  | (block, old) :: rest, vs =>
    let (new, vs) := refill old vs
    (block, new) :: refillIncoming rest vs

namespace Address

def withIndexValues (a : Address) (vs : List Value) : Address :=
  match a with
  | .element g path => .element g (refillSteps path vs)
  | other => other

end Address

namespace Operation

def withOperands (op : Operation) (vs : List Value) : Operation :=
  match op with
  | .binary op lhs rhs =>
    let (lhs, vs) := refill lhs vs
    let (rhs, _) := refill rhs vs
    .binary op lhs rhs
  | .unary op value => .unary op (refill value vs).1
  | .cast op value => .cast op (refill value vs).1
  | .compare op lhs rhs =>
    let (lhs, vs) := refill lhs vs
    let (rhs, _) := refill rhs vs
    .compare op lhs rhs
  | .select cond ifTrue ifFalse =>
    let (cond, vs) := refill cond vs
    let (ifTrue, vs) := refill ifTrue vs
    let (ifFalse, _) := refill ifFalse vs
    .select cond ifTrue ifFalse
  | .insert vector scalar index =>
    let (vector, vs) := refill vector vs
    let (scalar, vs) := refill scalar vs
    let (index, _) := refill index vs
    .insert vector scalar index
  | .extract vector index =>
    let (vector, vs) := refill vector vs
    let (index, _) := refill index vs
    .extract vector index
  | .shuffle lhs rhs mask =>
    let (lhs, vs) := refill lhs vs
    let (rhs, _) := refill rhs vs
    .shuffle lhs rhs mask
  | .load addr => .load (addr.withIndexValues vs)
  | .store value addr =>
    let (value, vs) := refill value vs
    .store value (addr.withIndexValues vs)
  | .phi incoming => .phi (refillIncoming incoming vs)
  | .call (.direct id) args => .call (.direct id) (refillAll args vs).1
  | .call (.indirect target) args =>
    let (target, vs) := refill target vs
    .call (.indirect target) (refillAll args vs).1

def opcode : Operation → String
  | .binary .. => "binary"
  | .unary .. => "unary"
  | .cast .. => "cast"
  | .compare .. => "compare"
  | .select .. => "select"
  | .insert .. => "insertelement"
  | .extract .. => "extractelement"
  | .shuffle .. => "shufflevector"
  | .load .. => "load"
  | .store .. => "store"
  | .phi .. => "phi"
  | .call .. => "call"

def isPhi : Operation → Bool
  | .phi _ => true
  | _ => false

def address? : Operation → Option Address
  | .load addr => some addr
  | .store _ addr => some addr
  | _ => none

def loadedGlobal? : Operation → Option GlobalId
  | .load addr => addr.global?
  | _ => none

end Operation

end Stagewise
