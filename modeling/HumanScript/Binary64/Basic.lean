/-! Binary floating point numbers of 64 bits, held by their encoding. -/
namespace HumanScript

/-- A binary64 number: one sign bit, eleven exponent bits, fifty-two fraction bits. -/
structure Binary64 where
  bits : UInt64
deriving DecidableEq

namespace Binary64

def zero : Binary64 := ⟨0⟩

def isNegative (x : Binary64) : Bool := Nat.pow 2 63 ≤ x.bits.toNat

def exponentField (x : Binary64) : Nat := x.bits.toNat / Nat.pow 2 52 % Nat.pow 2 11

def fraction (x : Binary64) : Nat := x.bits.toNat % Nat.pow 2 52

/-- The greatest exponent field is kept for infinities and NaNs. -/
def isFinite (x : Binary64) : Bool := x.exponentField < 2047

def isNaN (x : Binary64) : Bool := !x.isFinite && x.fraction ≠ 0

/-- The integer significand. A finite number is `± coefficient * 2 ^ offset * 2 ^ (-1074)`. -/
def coefficient (x : Binary64) : Nat :=
  if x.exponentField = 0 then x.fraction else Nat.pow 2 52 + x.fraction

/-- Steps above the least exponent; subnormals and the first normal binade are at zero. -/
def offset (x : Binary64) : Nat := x.exponentField - 1

/-- The absolute value of a finite number, counted in units of `2 ^ (-1074)`. -/
def units (x : Binary64) : Nat := x.coefficient * Nat.pow 2 x.offset

end Binary64
end HumanScript
