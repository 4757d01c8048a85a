import Stagewise.Operation

namespace Stagewise

inductive Terminator
  | jump (target : BlockId)
  | branch (cond : Value) (ifTrue ifFalse : BlockId)
  | ret
  deriving DecidableEq

namespace Terminator

def successors : Terminator → List BlockId
  | .jump target => [target]
  | .branch _ ifTrue ifFalse => [ifTrue, ifFalse]
  | .ret => []

def cond? : Terminator → Option Value
  | .branch cond _ _ => some cond
  | _ => none

end Terminator

/-- An instruction: what it does, the type of its result and the block that it stands in. -/
structure Inst where
  op : Operation
  ty : TypeId
  block : BlockId
  deriving DecidableEq

/-- A block: its instructions in order, and its end, which is missing while it is being built. -/
structure Block where
  insts : List InstId
  terminator : Option Terminator
  deriving DecidableEq

structure Function where
  name : String
  entry : BlockId
  blocks : Array Block
  insts : Array Inst
  layout : List BlockId
  deriving DecidableEq

namespace Function

def empty (name : String) : Function := ⟨name, 0, #[⟨[], none⟩], #[], [0]⟩

def numBlocks (f : Function) : Nat := f.blocks.size

def numInsts (f : Function) : Nat := f.insts.size

def blockIds (f : Function) : List BlockId := List.range f.numBlocks

def instIds (f : Function) : List InstId := List.range f.numInsts

def terminator? (f : Function) (b : BlockId) : Option Terminator :=
  f.blocks[b]?.bind Block.terminator

def cond? (f : Function) (b : BlockId) : Option Value := (f.terminator? b).bind Terminator.cond?

def successors (f : Function) (b : BlockId) : List BlockId :=
  (f.terminator? b).elim [] Terminator.successors

def isTerminated (f : Function) (b : BlockId) : Bool := (f.terminator? b).isSome

def returns (f : Function) (b : BlockId) : Bool := f.terminator? b == some .ret

def isPhi (f : Function) (i : InstId) : Bool := f.insts[i]?.any (·.op.isPhi)

def instsOf (f : Function) (b : BlockId) : List InstId := f.blocks[b]?.elim [] Block.insts

def phis (f : Function) (b : BlockId) : List InstId := (f.instsOf b).takeWhile f.isPhi

def addBlock (f : Function) : BlockId × Function :=
  (f.numBlocks, { f with blocks := f.blocks.push ⟨[], none⟩, layout := f.layout ++ [f.numBlocks] })

def moveToEnd (f : Function) (b : BlockId) : Function :=
  { f with layout := f.layout.filter (· != b) ++ [b] }

def setTerminator (f : Function) (b : BlockId) (t : Terminator) : Function :=
  { f with blocks := f.blocks.modify b fun block => { block with terminator := some t } }

/-- Adds an instruction at a position of a block, or at its end if it is shorter. -/
def insertAt (f : Function) (b : BlockId) (pos : Nat) (ty : TypeId) (op : Operation) :
    InstId × Function :=
  (f.numInsts,
    { f with
      insts := f.insts.push ⟨op, ty, b⟩
      blocks := f.blocks.modify b fun block =>
        { block with insts := block.insts.take pos ++ f.numInsts :: block.insts.drop pos } })

def append (f : Function) (b : BlockId) (ty : TypeId) (op : Operation) : InstId × Function :=
  f.insertAt b (f.instsOf b).length ty op

def insertBefore (f : Function) (anchor : InstId) (ty : TypeId) (op : Operation) :
    InstId × Function :=
  let b := f.insts[anchor]?.elim 0 Inst.block
  f.insertAt b ((f.instsOf b).findIdx? (· == anchor) |>.getD 0) ty op

def setOp (f : Function) (i : InstId) (op : Operation) : Function :=
  { f with insts := f.insts.modify i fun inst => { inst with op := op } }

def close (f : Function) : Function :=
  { f with blocks := f.blocks.map fun block =>
      { block with terminator := some (block.terminator.getD .ret) } }

end Function

end Stagewise
