import Stagewise.Scope.Label

namespace Stagewise

/-- The uses of a value, one bit for each. Which bit means what is a matter of the program's kind. -/
structure UsageFlags where
  bits : BitVec 32
  deriving DecidableEq

namespace UsageFlags

def ofNat (n : Nat) : UsageFlags := ⟨BitVec.ofNat 32 n⟩

def empty : UsageFlags := ⟨0⟩

def isEmpty (x : UsageFlags) : Bool := x.bits == 0

def union (x y : UsageFlags) : UsageFlags := ⟨x.bits ||| y.bits⟩

def diff (x y : UsageFlags) : UsageFlags := ⟨x.bits &&& ~~~y.bits⟩

def contains (x y : UsageFlags) : Bool := x.bits &&& y.bits == y.bits

def meets (x y : UsageFlags) : Bool := !(x.bits &&& y.bits == 0)

end UsageFlags

/-- What is known of a value, a block or a terminator: its placement and its uses. -/
structure ValueInfo where
  scope : Option Scope
  flags : UsageFlags
  deriving DecidableEq

namespace ValueInfo

def unknown : ValueInfo := ⟨none, .empty⟩

def isUsed (x : ValueInfo) : Bool := !x.flags.isEmpty

def isLive (x : ValueInfo) : Bool := x.isUsed && x.scope.isSome

def usedScope (x : ValueInfo) : Option Scope := if x.isUsed then x.scope else none

end ValueInfo

end Stagewise
