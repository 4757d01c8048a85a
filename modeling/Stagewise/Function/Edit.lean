import Stagewise.Function.Builder

namespace Stagewise

inductive Edit
  | newBlock
  | positionAt (block : BlockId)
  | emit (ty : TypeId) (op : Operation)
  | terminate (t : Terminator)
  | setTerminator (block : BlockId) (t : Terminator)
  | append (block : BlockId) (ty : TypeId) (op : Operation)
  | insertAt (block : BlockId) (pos : Nat) (ty : TypeId) (op : Operation)
  | insertBefore (anchor : InstId) (ty : TypeId) (op : Operation)
  | setOp (inst : InstId) (op : Operation)
  | moveToEnd (block : BlockId)

namespace Edit

/-- Whether the blocks and instructions that an edit changes exist. A block is laid out by its
number alone, and the cursor is looked at only when something is put there. -/
def applies (b : Builder) : Edit → Bool
  | .newBlock => true
  | .positionAt _ => true
  | .emit _ _ => b.current < b.func.numBlocks
  | .terminate _ => b.current < b.func.numBlocks
  | .setTerminator block _ => block < b.func.numBlocks
  | .append block _ _ => block < b.func.numBlocks
  | .insertAt block _ _ _ => block < b.func.numBlocks
  | .insertBefore anchor _ _ =>
    b.func.insts[anchor]?.any fun inst => inst.block < b.func.numBlocks
  | .setOp inst _ => inst < b.func.numInsts
  | .moveToEnd _ => true

/-- The number of the block or instruction that an edit makes, if it makes one, and the changed
function. -/
def perform (b : Builder) : Edit → Option Nat × Builder
  | .newBlock =>
    let (id, b) := b.newBlock
    (some id, b)
  | .positionAt block => (none, b.positionAt block)
  | .emit ty op =>
    let (id, b) := b.emit ty op
    (some id, b)
  | .terminate t => (none, b.terminate t)
  | .setTerminator block t => (none, ((b.positionAt block).terminate t).positionAt b.current)
  | .append block ty op =>
    let (id, b) := b.append block ty op
    (some id, b)
  | .insertAt block pos ty op =>
    let (id, func) := b.func.insertAt block pos ty op
    (some id, { b with func := func })
  | .insertBefore anchor ty op =>
    let (id, func) := b.func.insertBefore anchor ty op
    (some id, { b with func := func })
  | .setOp inst op => (none, { b with func := b.func.setOp inst op })
  | .moveToEnd block => (none, b.moveToEnd block)

def run? (b : Builder) (e : Edit) : Option (Option Nat × Builder) :=
  if e.applies b then some (e.perform b) else none

end Edit

end Stagewise
