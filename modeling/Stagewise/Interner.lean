namespace Stagewise

/-- Interns one item after the other. -/
def internEach {α σ : Type} (intern : σ → α → Nat × σ) (s : σ) : List α → List Nat × σ
  | [] => ([], s)
  | x :: xs =>
    let (n, s) := intern s x
    let (ns, s) := internEach intern s xs
    (n :: ns, s)

/-- A table of distinct texts, numbered in the order of their arrival. The empty text is number 0. -/
structure Interner where
  texts : List String

namespace Interner

def empty : Interner := ⟨[""]⟩

def size (t : Interner) : Nat := t.texts.length

def isEmpty (t : Interner) : Bool := t.size == 1

def find? (t : Interner) (s : String) : Option Nat := t.texts.findIdx? (· == s)

def intern (t : Interner) (s : String) : Nat × Interner :=
  match t.find? s with
  | some n => (n, t)
  | none => (t.size, ⟨t.texts ++ [s]⟩)

/-- The text of a number; the empty text for a number that was never given out. -/
def lookup (t : Interner) (n : Nat) : String := t.texts[n]?.getD ""

def numberText (n : Nat) : String := "Name(" ++ toString n ++ ")"

end Interner

end Stagewise
