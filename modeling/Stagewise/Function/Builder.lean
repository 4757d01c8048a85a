import Stagewise.Function

namespace Stagewise

/-- A function under construction, with the block that new instructions go to. -/
structure Builder where
  func : Function
  current : BlockId
  clashes : Nat
  deriving DecidableEq

namespace Builder

def empty (name : String) : Builder := ⟨Function.empty name, 0, 0⟩

def newBlock (b : Builder) : BlockId × Builder :=
  let (id, func) := b.func.addBlock
  (id, { b with func := func })

def positionAt (b : Builder) (block : BlockId) : Builder := { b with current := block }

def isTerminated (b : Builder) : Bool := b.func.isTerminated b.current

def append (b : Builder) (block : BlockId) (ty : TypeId) (op : Operation) : InstId × Builder :=
  let (id, func) := b.func.append block ty op
  (id, { b with func := func })

def emit (b : Builder) (ty : TypeId) (op : Operation) : InstId × Builder :=
  b.append b.current ty op

def terminate (b : Builder) (t : Terminator) : Builder :=
  { b with
    func := b.func.setTerminator b.current t
    clashes := if b.isTerminated then b.clashes + 1 else b.clashes }

def terminateIfOpen (b : Builder) (t : Terminator) : Builder :=
  if b.isTerminated then b else b.terminate t

def moveToEnd (b : Builder) (block : BlockId) : Builder :=
  { b with func := b.func.moveToEnd block }

def finish (b : Builder) : Function := b.func.close

end Builder

end Stagewise
