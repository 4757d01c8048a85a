import Stagewise.Scope.Label

namespace Stagewise

/-- A set of scopes below the limit, one bit for each. -/
structure ScopeSet where
  bits : BitVec 32
  deriving DecidableEq

namespace ScopeSet

def empty : ScopeSet := ⟨0⟩

def bit (s : Scope) : BitVec 32 :=
  if s.val < Scope.limit then BitVec.twoPow 32 s.val else 0

def first (n : Nat) : ScopeSet :=
  if n < Scope.limit then ⟨BitVec.ofNat 32 (1 <<< n - 1)⟩ else ⟨BitVec.allOnes 32⟩

def single (s : Scope) : ScopeSet := ⟨bit s⟩

def insert (x : ScopeSet) (s : Scope) : ScopeSet := ⟨x.bits ||| bit s⟩

def contains (x : ScopeSet) (s : Scope) : Bool :=
  decide (s.val < Scope.limit) && x.bits.getLsbD s.val

def isEmpty (x : ScopeSet) : Bool := x.bits == 0

def union (x y : ScopeSet) : ScopeSet := ⟨x.bits ||| y.bits⟩

def inter (x y : ScopeSet) : ScopeSet := ⟨x.bits &&& y.bits⟩

def diff (x y : ScopeSet) : ScopeSet := ⟨x.bits &&& ~~~y.bits⟩

def candidates : List Scope :=
  (List.range Scope.limit).map Scope.ofNat

def toList (x : ScopeSet) : List Scope := candidates.filter x.contains

def size (x : ScopeSet) : Nat := x.toList.length

def ofList (xs : List Scope) : ScopeSet := xs.foldl insert empty

def text (x : ScopeSet) : String :=
  "\x7b" ++ ", ".intercalate (x.toList.map Scope.text) ++ "\x7d"

theorem contains_eq (x : ScopeSet) (s : Scope) :
    x.contains s = (decide (s.val < 32) && x.bits.getLsbD s.val) := rfl

@[simp] theorem contains_empty (s : Scope) : empty.contains s = false := by
  simp [contains, empty]

@[simp] theorem contains_union (x y : ScopeSet) (s : Scope) :
    (x.union y).contains s = (x.contains s || y.contains s) := by
  simp [contains, union, Bool.and_or_distrib_left]

@[simp] theorem contains_inter (x y : ScopeSet) (s : Scope) :
    (x.inter y).contains s = (x.contains s && y.contains s) := by
  simp [contains, inter]
  cases decide (s.val < Scope.limit) <;> simp

end ScopeSet

end Stagewise
