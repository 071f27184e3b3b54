import HumanScript.Binary64.Basic

/-! The shortest decimal that reads back as a given binary64 number. All comparisons are exact, on
natural numbers over one common denominator. -/
namespace HumanScript

/-- The number `digits * 10 ^ exponent`. -/
structure Decimal where
  digits : Nat
  exponent : Int
deriving DecidableEq

namespace Binary64

/-- The reals that round to a positive number, in units of `2 ^ (-1076)`. The gap below a power of
two is half the gap above it. -/
structure Interval where
  low : Nat
  middle : Nat
  high : Nat
  /-- Whether the ends themselves round to the number: they tie, and ties go to even. -/
  closed : Bool

def interval (x : Binary64) : Interval :=
  let gap := Nat.pow 2 x.offset
  let below := if x.fraction = 0 ∧ 1 < x.exponentField then gap else 2 * gap
  { low := 4 * x.units - below
    middle := 4 * x.units
    high := 4 * x.units + 2 * gap
    closed := x.coefficient % 2 = 0 }

/-- The exponent `k` with `10 ^ (k - 1) ≤ n / d < 10 ^ k`, by counting digits. -/
def decimalExponent (n d : Nat) : Int :=
  if d ≤ n then (Nat.toDigits 10 (n / d)).length
  else 1 - ((Nat.toDigits 10 (d / n)).length : Int)

/-- The neighbour of a number among the decimals of `count` digits that rounds to it, the nearer one
if both do, the upper one on a tie. -/
def decimalOfLength? (x : Binary64) (count : Nat) : Option Decimal :=
  let i := x.interval
  let unit := Nat.pow 2 1076
  let exponent := decimalExponent i.middle unit - count
  let up := Nat.pow 10 (-exponent).toNat
  let den := unit * Nat.pow 10 exponent.toNat
  let rounds (c : Nat) : Bool :=
    if i.closed then i.low * up ≤ c * den ∧ c * den ≤ i.high * up
    else i.low * up < c * den ∧ c * den < i.high * up
  let c := i.middle * up / den
  let nearer := if 2 * (i.middle * up % den) < den then c else c + 1
  match rounds c, rounds (c + 1) with
  | true, true => some ⟨nearer, exponent⟩
  | true, false => some ⟨c, exponent⟩
  | false, true => some ⟨c + 1, exponent⟩
  | false, false => none

/-- All digits: `units * 2 ^ (-1074) = units * 5 ^ 1074 * 10 ^ (-1074)`. -/
def exactDecimal (x : Binary64) : Decimal := ⟨x.units * Nat.pow 5 1074, -1074⟩

/-- The decimal with the fewest digits that reads back as a finite nonzero number. Seventeen
digits are always enough. -/
def shortest (x : Binary64) : Decimal :=
  ((List.range 17).findSome? fun i => x.decimalOfLength? (i + 1)).getD x.exactDecimal

end Binary64
end HumanScript
