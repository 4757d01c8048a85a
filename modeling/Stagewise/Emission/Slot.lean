import Stagewise.Address
import Stagewise.Scope.Label

namespace Stagewise

/-- The result of one instruction on its way to another scope. -/
structure ValueSlot where
  src : Scope
  dst : Scope
  source : InstId
  ty : TypeId
  scalarized : Bool
  read : InstId
  deriving DecidableEq

/-- The elements of a binding along a path, on their way to another scope. -/
structure ArraySlot where
  src : Scope
  dst : Scope
  global : GlobalId
  /-- The fixed steps of the path, and a gap at the step that depends on the run. -/
  path : List (Option Nat)
  elem : TypeId
  len : Nat
  /-- The reads in the scope that the elements go to, with their indices there. -/
  reads : List (InstId × Value)
  deriving DecidableEq

/-- The elements of a binding along a path, with one read of them. -/
def ArraySlot.ofRead (src dst : Scope) (g : GlobalId) (path : List Step) (elem : TypeId) (len : Nat)
    (read : InstId) (index : Value) : ArraySlot :=
  ⟨src, dst, g, path.map Step.fixed?, elem, len, [(read, index)]⟩

/-- The record of a pair of scopes: the one for opaque handles, or the one for all other data. -/
structure RecordKey where
  src : Scope
  dst : Scope
  objects : Bool
  deriving DecidableEq

namespace RecordKey

def rank (k : RecordKey) : Nat := (k.src.val * 256 + k.dst.val) * 2 + k.objects.toNat

def insert (k : RecordKey) : List RecordKey → List RecordKey
  | [] => [k]
  | x :: rest =>
    if k.rank < x.rank then k :: x :: rest
    else if k.rank = x.rank then x :: rest
    else x :: insert k rest

end RecordKey

/-- The slots that were asked for, in order, and the records that were laid out. -/
structure Ledger where
  values : List ValueSlot
  arrays : List ArraySlot
  fixed : List RecordKey

namespace Ledger

def empty : Ledger := ⟨[], [], []⟩

def addValue (l : Ledger) (slot : ValueSlot) : Ledger := { l with values := l.values ++ [slot] }

def mergeArray (slot : ArraySlot) : List ArraySlot → List ArraySlot
  | [] => [slot]
  | x :: rest =>
    if x.src = slot.src ∧ x.dst = slot.dst ∧ x.global = slot.global ∧ x.path = slot.path then
      { x with reads := x.reads ++ slot.reads } :: rest
    else x :: mergeArray slot rest

def addArray (l : Ledger) (slot : ArraySlot) : Ledger :=
  { l with arrays := mergeArray slot l.arrays }

def markFixed (l : Ledger) (k : RecordKey) : Ledger := { l with fixed := k :: l.fixed }

def valueKey (types : TypePool) (slot : ValueSlot) : RecordKey :=
  ⟨slot.src, slot.dst, types.isObject slot.ty⟩

def arrayKey (types : TypePool) (slot : ArraySlot) : RecordKey :=
  ⟨slot.src, slot.dst, types.isObject slot.elem⟩

def valuesOf (l : Ledger) (types : TypePool) (k : RecordKey) : List ValueSlot :=
  l.values.filter fun slot => valueKey types slot == k

def arraysOf (l : Ledger) (types : TypePool) (k : RecordKey) : List ArraySlot :=
  l.arrays.filter fun slot => arrayKey types slot == k

def pending (l : Ledger) (types : TypePool) : List RecordKey :=
  let used := l.values.map (valueKey types) ++ l.arrays.map (arrayKey types)
  (used.filter fun k => !l.fixed.contains k).foldl (fun keys k => k.insert keys) []

end Ledger

inductive SlotKind
  | bool
  | int
  | float
  | texture
  deriving DecidableEq

/-- A field as it is printed: its kind, the lanes of a vector or the dimension of a texture, and
the length of an array (0 if it is none). -/
structure SlotType where
  kind : SlotKind
  rows : Nat
  elements : Nat
  deriving DecidableEq

namespace SlotType

def none : SlotType := ⟨.bool, 0, 0⟩

def dimension : TextureKind → Nat
  | .planar => 2
  | .volume => 3
  | .cube => 4

def ofBase (t : Ty) (rows elements : Nat) : SlotType :=
  match t with
  | .bool => ⟨.bool, rows, elements⟩
  | .int => ⟨.int, rows, elements⟩
  | .float => ⟨.float, rows, elements⟩
  | .texture kind => ⟨.texture, dimension kind, elements⟩
  | _ => none

/-- The description of a type: an array layer, a vector layer and what is left. -/
def ofType (types : TypePool) (ty : TypeId) : SlotType :=
  let (ty, elements) := match types.get ty with
    | .array elem len => (elem, len)
    | _ => (ty, 0)
  let (ty, rows) := match types.get ty with
    | .vector elem len => (elem, len)
    | _ => (ty, 1)
  ofBase (types.get ty) rows elements

end SlotType

end Stagewise
