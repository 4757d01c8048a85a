namespace Stagewise

namespace Binary64

def one : UInt64 := 0x3ff0000000000000

def magnitude (bits : UInt64) : Nat := bits.toNat % 0x8000000000000000

def isZero (bits : UInt64) : Bool := magnitude bits == 0

def isNaN (bits : UInt64) : Bool := 0x7ff0000000000000 < magnitude bits

/-- The quotient by a power of two, to the nearest integer, a half to the even one. -/
def shiftRounded (m shift : Nat) : Nat :=
  let unit := 1 <<< shift
  let low := m % unit
  let high := m / unit
  if unit < 2 * low || (unit == 2 * low && high % 2 == 1) then high + 1 else high

/-- The bits of a natural number, to the nearest number of the format, a half to the even one.
The leading bit of the mantissa is not stored; it raises the exponent by one, and so does a mantissa
that is rounded up to the next power of two. -/
def natBits (m : Nat) : Nat :=
  if m = 0 then 0
  else
    let e := m.log2
    let mantissa := if e ≤ 52 then m <<< (52 - e) else shiftRounded m (e - 52)
    (e + 1022) <<< 52 + mantissa

def ofInt (n : Int) : UInt64 :=
  UInt64.ofNat (if n < 0 then 0x8000000000000000 + natBits n.natAbs else natBits n.natAbs)

end Binary64

end Stagewise
