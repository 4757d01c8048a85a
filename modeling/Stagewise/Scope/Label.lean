namespace Stagewise

abbrev Scope := Fin 256

def Scope.ofNat (n : Nat) : Scope := ⟨n % 256, Nat.mod_lt n (by decide)⟩

def Scope.limit : Nat := 32

def Scope.text (s : Scope) : String := "scope" ++ toString s.val

def Scope.placementText : Option Scope → String
  | none => "None"
  | some s => "Some(" ++ s.text ++ ")"

/-- The position of a placement in the order of placements: unplaced is lowest. -/
def Scope.rank : Option Scope → Nat
  | none => 0
  | some s => s.val + 1

def Scope.later (a b : Option Scope) : Option Scope :=
  if Scope.rank a < Scope.rank b then b else a

def Scope.earlier (a b : Option Scope) : Option Scope :=
  if Scope.rank b < Scope.rank a then b else a

def Scope.latest (first : Option Scope) (rest : List (Option Scope)) : Option Scope :=
  rest.foldl Scope.later first

theorem Scope.rank_injective {a b : Option Scope} (h : Scope.rank a = Scope.rank b) : a = b := by
  cases a with
  | none =>
    cases b with
    | none => rfl
    | some t => exact absurd h (by simp [Scope.rank])
  | some s =>
    cases b with
    | none => exact absurd h (by simp [Scope.rank])
    | some t => exact congrArg some (Fin.ext (Nat.succ.inj h))

theorem Scope.rank_later (a b : Option Scope) :
    Scope.rank (Scope.later a b) = max (Scope.rank a) (Scope.rank b) := by
  unfold Scope.later
  split <;> omega

theorem Scope.rank_le (a : Option Scope) : Scope.rank a ≤ 256 := by
  cases a with
  | none => simp [Scope.rank]
  | some s => have := s.isLt; simp only [Scope.rank]; omega

end Stagewise
