import Stagewise.Binary64
import Stagewise.TypePool

namespace Stagewise

abbrev InstId := Nat

abbrev BlockId := Nat

abbrev GlobalId := Nat

abbrev FuncId := Nat

/-- What a constant holds. A vector constant holds it in every lane. -/
inductive Literal
  | int (value : Int)
  | float (bits : UInt64)
  | bool (value : Bool)
  | zero
  | undef
  deriving DecidableEq

structure Constant where
  ty : TypeId
  literal : Literal
  deriving DecidableEq

namespace Constant

def int (ty : TypeId) (value : Int) : Constant := ⟨ty, .int value⟩
def float (ty : TypeId) (bits : UInt64) : Constant := ⟨ty, .float bits⟩
def undef (ty : TypeId) : Constant := ⟨ty, .undef⟩

def numericBits : Constant → Option UInt64
  | ⟨_, .int value⟩ => some (Binary64.ofInt value)
  | ⟨_, .float bits⟩ => some bits
  | ⟨_, .bool value⟩ => some (if value then Binary64.one else 0)
  | ⟨_, .zero⟩ => some 0
  | ⟨_, .undef⟩ => none

def isZero (c : Constant) : Bool := c.numericBits.any Binary64.isZero

end Constant

/-- An operand: the result of an instruction, a global binding as a whole, or a constant. -/
inductive Value
  | inst (id : InstId)
  | global (id : GlobalId)
  | const (constant : Constant)
  deriving DecidableEq

namespace Value

def inst? : Value → Option InstId
  | .inst id => some id
  | _ => none

def const? : Value → Option Constant
  | .const c => some c
  | _ => none

end Value

end Stagewise
