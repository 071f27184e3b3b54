import HumanScript.Binary64.Basic

/-! Decimal numerals read as binary64 numbers, rounded to nearest with ties to even. -/
namespace HumanScript.Binary64

/-- The integer nearest to `n / d`; a tie goes to the even one. -/
def roundEven (n d : Nat) : Nat :=
  let r := n % d
  if 2 * r < d ∨ 2 * r = d ∧ n / d % 2 = 0 then n / d else n / d + 1

/-- Bits of the number nearest to `n / d`. The offset fixes the spacing, and a coefficient that
rounds up to the next binade carries into the exponent field by itself. -/
def nearestBits (n d : Nat) : Nat :=
  let units := n * Nat.pow 2 1074
  let offset := (units / d).log2 - 52
  offset * Nat.pow 2 52 + roundEven units (d * Nat.pow 2 offset)

/-- The number nearest to `digits / 10 ^ places`; `none` if it is too large to be finite. -/
def ofDecimal? (digits places : Nat) : Option Binary64 :=
  let bits := nearestBits digits (Nat.pow 10 places)
  if bits < 2047 * Nat.pow 2 52 then some ⟨bits.toUInt64⟩ else none

end HumanScript.Binary64
