import Stagewise.Value

namespace Stagewise

/-- One step of an access path: a fixed position, or one that is known only when the program runs. -/
inductive Step
  | fixed (index : Nat)
  | dynamic (index : Value)
  deriving DecidableEq

namespace Step

def fixed? : Step → Option Nat
  | .fixed i => some i
  | .dynamic _ => none

def dynamic? : Step → Option Value
  | .fixed _ => none
  | .dynamic v => some v

end Step

inductive Address
  /-- A part of a binding that fixed positions select; no positions select the whole binding. -/
  | member (global : GlobalId) (path : List Nat)
  /-- A part of a binding that may depend on values of the run. -/
  | element (global : GlobalId) (path : List Step)
  | pending
  deriving DecidableEq

namespace Address

def global? : Address → Option GlobalId
  | .member g _ => some g
  | .element g _ => some g
  | .pending => none

def steps : Address → List Step
  | .element _ path => path
  | _ => []

def indexValues (a : Address) : List Value := a.steps.filterMap Step.dynamic?

end Address

end Stagewise
