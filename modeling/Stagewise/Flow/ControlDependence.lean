import Stagewise.Flow.PostDominators

namespace Stagewise

namespace PostDominators

def chainWithin (t : PostDominators) (stop : Option BlockId) : Nat → BlockId → List BlockId
  | 0, _ => []
  | fuel + 1, b =>
    if some b = stop then []
    else b :: (t.immediate? b).elim [] (t.chainWithin stop fuel)

/-- The blocks that one arm of a branch decides about: up the tree from the start of the arm, below
the nearest block that the branch cannot avoid. -/
def decided (t : PostDominators) (branch arm : BlockId) : List BlockId :=
  t.chainWithin (t.immediate? branch) (t.parent.size + 1) arm

end PostDominators

namespace Function

/-- The blocks about which the branch at the end of a block decides whether they run. -/
def decidedBy (f : Function) (t : PostDominators) (p : BlockId) : List BlockId :=
  match f.terminator? p with
  | some (.branch _ ifTrue ifFalse) => t.decided p ifTrue ++ t.decided p ifFalse
  | _ => []

def controlParents (f : Function) (t : PostDominators) : Array (List BlockId) :=
  let decisions := f.blockIds.map fun p => (p, f.decidedBy t p)
  (f.blockIds.map fun b => (decisions.filter fun d => d.2.contains b).map Prod.fst).toArray

def branchesInRange (f : Function) : Bool :=
  f.blockIds.all fun p =>
    match f.terminator? p with
    | some (.branch _ ifTrue ifFalse) => ifTrue < f.numBlocks && ifFalse < f.numBlocks
    | _ => true

/-- The control dependence of a function whose branches lead to blocks of the function. -/
def controlDependence (f : Function) (t : PostDominators) : Except Fault (Array (List BlockId)) :=
  if f.branchesInRange then .ok (f.controlParents t) else .error .dangling

end Function

end Stagewise
