import Stagewise.Fault
import Stagewise.Function

namespace Stagewise

namespace Function

def predecessors (f : Function) (b : BlockId) : List BlockId :=
  f.blockIds.filter fun p => (f.successors p).contains b

def exitNode (f : Function) : Nat := f.numBlocks

/-- The nodes that control may go to from a block; a return goes to the virtual exit. -/
def exitSuccessors (f : Function) (b : BlockId) : List Nat :=
  if f.returns b then [f.exitNode] else f.successors b

def exitPredecessors (f : Function) (v : Nat) : List Nat :=
  if v = f.exitNode then f.blockIds.filter f.returns else f.predecessors v

end Function

/-- A pending part of a depth-first search: a node to enter, or one whose successors are done. -/
inductive Visit
  | enter (node : Nat)
  | leave (node : Nat)

/-- Depth-first search with an explicit stack. A node is listed when it is left, before the nodes
that were left earlier. -/
def searchFrom (next : Nat → List Nat) :
    Nat → List Visit → List Nat → List Nat → List Nat
  | 0, _, _, out => out
  | _ + 1, [], _, out => out
  | fuel + 1, .leave v :: stack, seen, out => searchFrom next fuel stack seen (v :: out)
  | fuel + 1, .enter v :: stack, seen, out =>
    if v ∈ seen then searchFrom next fuel stack seen out
    else
      let fresh := (next v).filter fun w => !(v :: seen).contains w
      searchFrom next fuel (fresh.reverse.map .enter ++ .leave v :: stack) (v :: seen) out

/-- The virtual exit and the blocks that can return, each after one of its successors. -/
def Function.returnOrder (f : Function) : List Nat :=
  searchFrom f.exitPredecessors (4 * f.numBlocks + 4) [.enter f.exitNode] [] []

/-- The parents of the nodes in the tree, and their positions in the order of the search. The
last node is the virtual exit, which is its own parent. -/
structure PostDominators where
  parent : Array (Option Nat)
  position : Array Nat
  deriving DecidableEq

namespace PostDominators

def exitNode (t : PostDominators) : Nat := t.parent.size - 1

def parent? (t : PostDominators) (v : Nat) : Option Nat := t.parent[v]?.join

def positionOf (t : PostDominators) (v : Nat) : Nat := t.position[v]?.getD t.position.size

def meetWithin (t : PostDominators) : Nat → Nat → Nat → Nat
  | 0, a, _ => a
  | fuel + 1, a, b =>
    if a = b then a
    else if t.positionOf b < t.positionOf a then
      match t.parent? a with
      | some up => t.meetWithin fuel up b
      | none => a
    else
      match t.parent? b with
      | some up => t.meetWithin fuel a up
      | none => b

def meet (t : PostDominators) (a b : Nat) : Nat := t.meetWithin (2 * t.parent.size) a b

def meetAll (t : PostDominators) (nodes : List Nat) : Option Nat :=
  (nodes.filter fun v => (t.parent? v).isSome).foldl
    (fun found v => some (found.elim v (t.meet v))) none

def refine (f : Function) (t : PostDominators) (v : Nat) : PostDominators :=
  match t.meetAll (f.exitSuccessors v) with
  | some up => { t with parent := t.parent.setIfInBounds v (some up) }
  | none => t

def round (f : Function) (order : List Nat) (t : PostDominators) : PostDominators :=
  order.tail.foldl (refine f) t

/-- The parents as numbers, counted from one; a node without a parent has zero. -/
def parentCode (t : PostDominators) (v : Nat) : Nat := (t.parent? v).elim 0 (· + 1)

def sameParents (s t : PostDominators) : Bool :=
  (List.range t.parent.size).all fun v => s.parentCode v == t.parentCode v

def settle (f : Function) (order : List Nat) : Nat → PostDominators → PostDominators
  | 0, t => t
  | fuel + 1, t =>
    let next := round f order t
    if next.sameParents t then t else settle f order fuel next

def initial (f : Function) (order : List Nat) : PostDominators where
  parent := (Array.replicate (f.numBlocks + 1) none).setIfInBounds f.exitNode (some f.exitNode)
  position := ((List.range (f.numBlocks + 1)).map fun v => order.idxOf v).toArray

/-- The tree of a function. A block that can return must not lead past the virtual exit. -/
def ofFunction (f : Function) : Except Fault PostDominators :=
  let order := f.returnOrder
  if order.tail.all fun v => (f.exitSuccessors v).all (· ≤ f.exitNode) then
    .ok (settle f order ((f.numBlocks + 2) * (f.numBlocks + 2)) (initial f order))
  else .error .dangling

def reachesWithin (t : PostDominators) (target : Nat) : Nat → Nat → Bool
  | 0, _ => false
  | fuel + 1, v =>
    if v = target then true
    else
      match t.parent? v with
      | some up => if up = v then false else t.reachesWithin target fuel up
      | none => false

def postDominates (t : PostDominators) (a b : BlockId) : Bool :=
  t.reachesWithin a (t.parent.size + 1) b

def block? (t : PostDominators) (v : Nat) : Option BlockId :=
  if v = t.exitNode then none else some v

def immediate? (t : PostDominators) (b : BlockId) : Option BlockId := (t.parent? b).bind t.block?

def nearestCommon? (t : PostDominators) (a b : BlockId) : Option BlockId :=
  if (t.parent? a).isSome && (t.parent? b).isSome then t.block? (t.meet a b) else none

end PostDominators

end Stagewise
