import Stagewise.Classification.Table
import Stagewise.Emission.Draft
import Stagewise.Emission.Slot
import Stagewise.Problem

namespace Stagewise

structure Source where
  program : Program
  func : Function
  table : Classification

structure FanOut where
  block : BlockId
  scopes : ScopeSet
  deriving DecidableEq

/-- Notes that a branch was copied into some scopes. The list is ordered by blocks. -/
def FanOut.note (block : BlockId) (scopes : ScopeSet) : List FanOut → List FanOut
  | [] => [⟨block, scopes⟩]
  | x :: rest =>
    if block < x.block then ⟨block, scopes⟩ :: x :: rest
    else if block = x.block then ⟨block, x.scopes.union scopes⟩ :: rest
    else x :: FanOut.note block scopes rest

structure Emission where
  types : TypePool
  drafts : Array Draft
  ledger : Ledger
  problems : List Problem
  fanout : List FanOut

namespace Emission

def start (src : Source) (types : TypePool) (scopes : List String) : Emission where
  types := types
  drafts := (scopes.mapIdx fun k name =>
    Draft.empty (.ofNat k) (src.program.name ++ "." ++ name) src.func.name).toArray
  ledger := .empty
  problems := []
  fanout := []

def partitions (s : Emission) : List Partition := s.drafts.toList.map Draft.finish

def report (p : Problem) : Act Emission Unit :=
  modify fun s => { s with problems := Problem.note s.problems p }

def draft (scope : Scope) : Act Emission Draft := do
  let s ← get
  match s.drafts[scope.val]? with
  | some d => return d
  | none => throw (.scopeOutOfRange scope s.drafts.size)

def editDraft {α : Type} (scope : Scope) (edit : Draft → α × Draft) : Act Emission α := do
  let (a, d) := edit (← draft scope)
  modify fun s => { s with drafts := s.drafts.setIfInBounds scope.val d }
  return a

def updateDraft (scope : Scope) (update : Draft → Draft) : Act Emission Unit :=
  editDraft scope fun d => ((), update d)

def emit (scope : Scope) (ty : TypeId) (op : Operation) : Act Emission Value := do
  return .inst (← editDraft scope (·.emit ty op))

end Emission

namespace Source

def inst (src : Source) (i : InstId) : Act Emission Inst := Act.ofOption src.func.insts[i]?

def undef (src : Source) (i : InstId) : Act Emission Value := do
  return .const (.undef (← src.inst i).ty)

end Source

end Stagewise
