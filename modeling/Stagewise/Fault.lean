import Stagewise.Scope.Label
import Stagewise.Value

namespace Stagewise

inductive Fault
  /-- A value is placed in a scope and asked for there before it is copied. -/
  | missingCopy (inst : InstId) (scope : Scope)
  | scopeLowered (inst : InstId) (before after : Option Scope)
  /-- A scope does not belong to the table that it is used with. -/
  | scopeOutOfRange (scope : Scope) (count : Nat)
  | functionNotFound (name : String)
  /-- A number stands for no block, instruction, binding or declaration. -/
  | dangling
  deriving DecidableEq

namespace Fault

def instText (i : InstId) : String := "InstId(" ++ toString i ++ ")"

def message? : Fault → Option String
  | .missingCopy inst scope =>
    some (instText inst ++ " is classified into " ++ scope.text ++ " but was never copied there")
  | .scopeLowered inst before after =>
    some ("scope strategy lowered " ++ instText inst ++ " from " ++ Scope.placementText before
      ++ " to " ++ Scope.placementText after)
  | .scopeOutOfRange scope count =>
    some ("scope " ++ scope.text ++ " is out of range for a table of " ++ toString count
      ++ " scopes")
  | .functionNotFound name => some ("function `" ++ name ++ "` not found in module")
  | .dangling => none

end Fault

def orDangling {α : Type} : Option α → Except Fault α
  | some a => .ok a
  | none => .error .dangling

/-- A computation on a state that may stop with a fault and then leaves the state as it is at
that point. -/
abbrev Act (σ : Type) := ExceptT Fault (StateM σ)

namespace Act

variable {σ α : Type}

def ofExcept : Except Fault α → Act σ α
  | .ok a => pure a
  | .error e => throw e

def ofOption : Option α → Act σ α
  | some a => pure a
  | none => throw .dangling

end Act

end Stagewise
