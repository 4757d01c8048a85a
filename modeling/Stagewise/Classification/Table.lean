import Stagewise.Program
import Stagewise.Scope.Set
import Stagewise.Scope.Usage

namespace Stagewise

/-- What is known of the parts of a function and of the bindings of its program. -/
structure Classification where
  insts : Array ValueInfo
  globals : Array ValueInfo
  blocks : Array ValueInfo
  terminators : Array ValueInfo
  forced : Array ScopeSet
  /-- The scopes that the branch at the end of a block must be repeated in. -/
  guards : Array ScopeSet
  pinned : Array Bool
  deriving DecidableEq

namespace Classification

def unknown (p : Program) (f : Function) : Classification where
  insts := Array.replicate f.numInsts .unknown
  globals := Array.replicate p.numGlobals .unknown
  blocks := Array.replicate f.numBlocks .unknown
  terminators := Array.replicate f.numBlocks .unknown
  forced := Array.replicate f.numBlocks .empty
  guards := Array.replicate f.numBlocks .empty
  pinned := Array.replicate f.numInsts false

def inst (t : Classification) (i : InstId) : ValueInfo := t.insts[i]?.getD .unknown

def global (t : Classification) (g : GlobalId) : ValueInfo := t.globals[g]?.getD .unknown

def block (t : Classification) (b : BlockId) : ValueInfo := t.blocks[b]?.getD .unknown

def terminator (t : Classification) (b : BlockId) : ValueInfo := t.terminators[b]?.getD .unknown

def forcedAt (t : Classification) (b : BlockId) : ScopeSet := t.forced[b]?.getD .empty

def guardsAt (t : Classification) (b : BlockId) : ScopeSet := t.guards[b]?.getD .empty

def isPinned (t : Classification) (i : InstId) : Bool := t.pinned[i]?.getD false

def instScope (t : Classification) (i : InstId) : Option Scope := (t.inst i).usedScope

def globalScope (t : Classification) (g : GlobalId) : Option Scope := (t.global g).usedScope

def valueScope (t : Classification) : Value → Option Scope
  | .inst i => t.instScope i
  | .global g => t.globalScope g
  | .const _ => none

def hasValue (t : Classification) : Value → Bool
  | .inst i => i < t.insts.size
  | .global g => g < t.globals.size
  | .const _ => true

def setInst (t : Classification) (i : InstId) (info : ValueInfo) : Classification :=
  { t with insts := t.insts.setIfInBounds i info }

def setGlobal (t : Classification) (g : GlobalId) (info : ValueInfo) : Classification :=
  { t with globals := t.globals.setIfInBounds g info }

def setBlock (t : Classification) (b : BlockId) (info : ValueInfo) : Classification :=
  { t with blocks := t.blocks.setIfInBounds b info }

def setTerminator (t : Classification) (b : BlockId) (info : ValueInfo) : Classification :=
  { t with terminators := t.terminators.setIfInBounds b info }

def setForced (t : Classification) (b : BlockId) (x : ScopeSet) : Classification :=
  { t with forced := t.forced.setIfInBounds b x }

def addGuards (t : Classification) (x : ScopeSet) (b : BlockId) : Classification :=
  { t with guards := t.guards.setIfInBounds b ((t.guardsAt b).union x) }

def pin (t : Classification) (i : InstId) (info : ValueInfo) : Classification :=
  { t.setInst i info with pinned := t.pinned.setIfInBounds i true }

end Classification

end Stagewise
