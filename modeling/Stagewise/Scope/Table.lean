import Stagewise.Fault
import Stagewise.Scope.Usage

namespace Stagewise

/-- A named input or output with the scope that it belongs to. -/
structure Endpoint where
  name : String
  scope : Scope
  flags : UsageFlags
  deriving DecidableEq

/-- The name of the record that carries values from one scope to another: opaque handles, or all
other data. -/
structure TransferName where
  src : Scope
  dst : Scope
  name : String
  objects : Bool
  deriving DecidableEq

/-- What tells one kind of program from another: its scopes, the bindings that are inputs of a
scope (roots), the outputs that are required in a scope (sinks, in the order in which they are
looked at), and the names of its transfer records. -/
structure ScopeTable where
  scopes : List String
  roots : List Endpoint
  sinks : List Endpoint
  transfers : List TransferName
  deriving DecidableEq

namespace ScopeTable

def size (t : ScopeTable) : Nat := t.scopes.length

def isEmpty (t : ScopeTable) : Bool := t.scopes.isEmpty

def scopeName (t : ScopeTable) (s : Scope) : String := t.scopes[s.val]?.getD "?"

/-- The scopes that the entries of a table name, in the order in which they are looked at. -/
def mentioned (t : ScopeTable) : List Scope :=
  t.roots.map Endpoint.scope ++ t.sinks.map Endpoint.scope
    ++ t.transfers.flatMap fun d => [d.src, d.dst]

/-- Whether a scope is one of the table's, and the table has no more scopes than it may have. -/
def declares (t : ScopeTable) (s : Scope) : Bool :=
  decide (s.val < t.size) && decide (t.size ≤ Scope.limit)

def validate (t : ScopeTable) : Except Fault Unit :=
  match t.mentioned.find? fun s => !t.declares s with
  | some s => .error (.scopeOutOfRange s t.size)
  | none => .ok ()

end ScopeTable

end Stagewise
