import HumanScript.Binary64.Shortest

/-! How a binary64 number is written: positional from `0.0001` up to below `10 ^ 16`, always with a
fractional part, and with an exponent beyond that. -/
namespace HumanScript

namespace Decimal

/-- The digits, without zeros at the end. -/
def significant (d : Decimal) : List Char :=
  ((Nat.toDigits 10 d.digits).reverse.dropWhile (· == '0')).reverse

/-- Where the decimal point stands: `d = 0.digits * 10 ^ point`. -/
def point (d : Decimal) : Int := (Nat.toDigits 10 d.digits).length + d.exponent

/-- Positional form, with at least one digit on each side of the point. -/
def positional (ds : List Char) (point : Int) : List Char :=
  if point ≤ 0 then '0' :: '.' :: List.replicate (-point).toNat '0' ++ ds
  else if ds.length ≤ point.toNat then
    ds ++ List.replicate (point.toNat - ds.length) '0' ++ ['.', '0']
  else ds.take point.toNat ++ '.' :: ds.drop point.toNat

/-- Form with an exponent, as in `1e16` and `1.5e-7`. -/
def scientific (ds : List Char) (point : Int) : List Char :=
  let tail := ds.drop 1
  ds.take 1 ++ (if tail.isEmpty then [] else '.' :: tail) ++ 'e' :: (toString (point - 1)).toList

def render (d : Decimal) : List Char :=
  if -4 < d.point ∧ d.point ≤ 16 then positional d.significant d.point
  else scientific d.significant d.point

end Decimal

/-- The number as text; it reads back as the same number. -/
def Binary64.render (x : Binary64) : String :=
  if x.isNaN then "NaN"
  else
    let magnitude :=
      if !x.isFinite then "inf"
      else if x.units = 0 then "0.0"
      else String.ofList x.shortest.render
    if x.isNegative then "-" ++ magnitude else magnitude

end HumanScript
