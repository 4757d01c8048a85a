namespace Stagewise

abbrev TypeId := Nat

namespace TypeId

def void : TypeId := 0
def bool : TypeId := 1
def int : TypeId := 2
def float : TypeId := 3

def text : TypeId → String
  | 0 => "TypeId::VOID"
  | 1 => "TypeId::BOOL"
  | 2 => "TypeId::INT"
  | 3 => "TypeId::FLOAT"
  | n => "TypeId(" ++ toString n ++ ")"

end TypeId

inductive TextureKind
  | planar
  | volume
  | cube
  deriving DecidableEq, Hashable

/-- The structure of a type. Parts are given by their numbers in the pool. -/
inductive Ty
  | void
  | bool
  | int
  | float
  | vector (elem : TypeId) (len : Nat)
  | array (elem : TypeId) (len : Nat)
  | struct (fields : List TypeId) (packed : Bool)
  | texture (kind : TextureKind)
  deriving DecidableEq, Hashable

def Ty.primitives : List Ty := [.void, .bool, .int, .float]

/-- Types without repetition, numbered in the order of their arrival. -/
structure TypePool where
  types : Array Ty

namespace TypePool

def empty : TypePool := ⟨Ty.primitives.toArray⟩

def size (p : TypePool) : Nat := p.types.size

def isEmpty (p : TypePool) : Bool := p.size ≤ Ty.primitives.length

def intern (p : TypePool) (t : Ty) : TypeId × TypePool :=
  match p.types.findIdx? (· == t) with
  | some n => (n, p)
  | none => (p.size, ⟨p.types.push t⟩)

/-- The structure of a type; a number that was never given out stands for `void`. -/
def get (p : TypePool) (id : TypeId) : Ty := p.types[id]?.getD .void

def element (p : TypePool) (id : TypeId) : Option TypeId :=
  match p.get id with
  | .vector elem _ => some elem
  | .array elem _ => some elem
  | _ => none

def lengthOf (p : TypePool) (id : TypeId) : Option Nat :=
  match p.get id with
  | .vector _ len => some len
  | .array _ len => some len
  | _ => none

def isVector (p : TypePool) (id : TypeId) : Bool :=
  match p.get id with
  | .vector _ _ => true
  | _ => false

/-- The type that one step selects: a field by its position, an element by any index. -/
def member (p : TypePool) (id : TypeId) (index : Nat) : Option TypeId :=
  match p.get id with
  | .struct fields _ => fields[index]?
  | .vector elem _ => some elem
  | .array elem _ => some elem
  | _ => none

def memberPath (p : TypePool) (id : TypeId) : List Nat → Option TypeId
  | [] => some id
  | index :: path => (p.member id index).bind (p.memberPath · path)

/-- Peels array layers off a type, at most `depth` of them, and asks whether a texture is left. -/
def isObjectWithin (p : TypePool) : Nat → TypeId → Bool
  | 0, _ => false
  | depth + 1, id =>
    match p.get id with
    | .texture _ => true
    | .array elem _ => p.isObjectWithin depth elem
    | _ => false

/-- Whether values of a type are opaque handles: textures, and arrays of handles. An array is
numbered after its element type, so there are no more layers than types. -/
def isObject (p : TypePool) (id : TypeId) : Bool := p.isObjectWithin (p.size + 1) id

end TypePool

end Stagewise
