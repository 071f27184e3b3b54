import Mathlib.Algebra.Order.Field.Basic
import Mathlib.Data.Rat.Cast.Order
import Mathlib.Tactic.FieldSimp
import Mathlib.Tactic.Linarith
import Mathlib.Tactic.NormNum
import Mathlib.Tactic.Positivity
import Mathlib.Tactic.Ring
import HumanScript.Binary64.Text
import HumanScript.Proofs.Scanning

/-! The text of a number tells which number it is. It reads back as a decimal among those that round
to the number, and no decimal rounds to two numbers. -/
namespace HumanScript

namespace Text

/-- What comes before the first `mark`. -/
def before (mark : Char) (cs : List Char) : List Char := cs.takeWhile (· ≠ mark)

/-- What comes after the first `mark`. -/
def after (mark : Char) (cs : List Char) : List Char := (cs.dropWhile (· ≠ mark)).drop 1

theorem before_after_append {mark : Char} {front rest : List Char} (h : mark ∉ front)
    (hrest : ∀ c ∈ rest.head?, c = mark) :
    before mark (front ++ rest) = front ∧ after mark (front ++ rest) = rest.drop 1 := by
  have hfront : ∀ c ∈ front, decide (c ≠ mark) = true := by
    intro c hc
    rw [decide_eq_true_eq]
    rintro rfl
    exact h hc
  have hhead : ∀ c ∈ rest.head?, decide (c ≠ mark) = false := by simpa using hrest
  obtain ⟨htake, hdrop⟩ := Lexeme.takeWhile_run hfront hhead
  exact ⟨htake, by rw [after, hdrop]⟩

theorem before_after_mark {mark : Char} {front : List Char} (h : mark ∉ front) (back : List Char) :
    before mark (front ++ mark :: back) = front ∧ after mark (front ++ mark :: back) = back :=
  before_after_append h (by simp)

theorem before_after_of_not_mem {mark : Char} {cs : List Char} (h : mark ∉ cs) :
    before mark cs = cs ∧ after mark cs = [] := by
  have hnone : ∀ c ∈ ([] : List Char).head?, c = mark := by simp
  have happend := before_after_append h hnone
  rwa [List.append_nil] at happend

end Text

/-- The integer that digits denote, with a minus sign before them or without. -/
def Text.readInteger : List Char → ℤ
  | '-' :: digits => -Nat.ofDigitChars 10 digits 0
  | digits => Nat.ofDigitChars 10 digits 0

namespace Text

theorem readInteger_toDigits (n : ℕ) : readInteger (Nat.toDigits 10 n) = n := by
  have hdigit : '-' ∉ Nat.toDigits 10 n := fun hmem => by
    cases Nat.isDigit_of_mem_toDigits (by omega) (by omega) hmem
  unfold readInteger
  split
  · rename_i digits heq
    rw [heq] at hdigit
    exact absurd List.mem_cons_self hdigit
  · rw [Nat.ofDigitChars_ten_toDigits]

@[simp] theorem readInteger_toString (k : ℤ) : readInteger (toString k).toList = k := by
  rw [Int.toString_eq_repr, Int.repr_eq_if]
  split
  · rw [Nat.toList_repr, readInteger_toDigits]
    omega
  · rw [String.toList_append, Nat.toList_repr]
    change -(Nat.ofDigitChars 10 (Nat.toDigits 10 (-k).toNat) 0 : ℤ) = k
    rw [Nat.ofDigitChars_ten_toDigits]
    omega

end Text

namespace Decimal
open Text (before after)

def value (d : Decimal) : ℚ := d.digits * 10 ^ d.exponent

/-- The number that digits with a point among them denote. -/
def readPositional (cs : List Char) : ℚ :=
  Nat.ofDigitChars 10 (before '.' cs ++ after '.' cs) 0 * 10 ^ (-(after '.' cs).length : ℤ)

/-- The number that a text denotes, with or without an exponent. -/
def read (cs : List Char) : ℚ :=
  readPositional (before 'e' cs) * 10 ^ Text.readInteger (after 'e' cs)

/-- The number `0.ds * 10 ^ point`. -/
def scaled (ds : List Char) (point : ℤ) : ℚ :=
  Nat.ofDigitChars 10 ds 0 * 10 ^ (point - ds.length)

theorem readPositional_point {whole places : List Char} (h : '.' ∉ whole) :
    readPositional (whole ++ '.' :: places) =
      Nat.ofDigitChars 10 (whole ++ places) 0 * 10 ^ (-places.length : ℤ) := by
  obtain ⟨hbefore, hafter⟩ := Text.before_after_mark h places
  rw [readPositional, hbefore, hafter]

theorem readPositional_whole {whole : List Char} (h : '.' ∉ whole) :
    readPositional whole = Nat.ofDigitChars 10 whole 0 := by
  obtain ⟨hbefore, hafter⟩ := Text.before_after_of_not_mem h
  rw [readPositional, hbefore, hafter]
  simp

theorem read_of_not_mem {cs : List Char} (h : 'e' ∉ cs) : read cs = readPositional cs := by
  obtain ⟨hbefore, hafter⟩ := Text.before_after_of_not_mem h
  rw [read, hbefore, hafter]
  simp [Text.readInteger]

theorem read_exponent {cs : List Char} (h : 'e' ∉ cs) (k : ℤ) :
    read (cs ++ 'e' :: (toString k).toList) = readPositional cs * 10 ^ k := by
  obtain ⟨hbefore, hafter⟩ := Text.before_after_mark h (toString k).toList
  rw [read, hbefore, hafter, Text.readInteger_toString]

theorem not_mem_of_isDigit {mark : Char} {ds : List Char} (hds : ∀ c ∈ ds, c.isDigit = true)
    (hmark : mark.isDigit = false) : mark ∉ ds := by
  intro hmem
  rw [hds mark hmem] at hmark
  cases hmark

theorem read_positional {ds : List Char} (hds : ∀ c ∈ ds, c.isDigit = true) (point : ℤ) :
    read (positional ds point) = scaled ds point := by
  have hten : (10 : ℚ) ≠ 0 := by norm_num
  have hpoint : '.' ∉ ds := not_mem_of_isDigit hds rfl
  have hexp : 'e' ∉ ds := not_mem_of_isDigit hds rfl
  unfold positional
  split
  · -- `0.000ds`
    rw [read_of_not_mem (by simp [hexp])]
    change readPositional (['0'] ++ '.' :: (List.replicate (-point).toNat '0' ++ ds)) = _
    rw [readPositional_point (by decide), scaled]
    congr 1
    · rw [← List.append_assoc, Nat.ofDigitChars_append, Nat.ofDigitChars_append,
        Nat.ofDigitChars_replicate_zero]
      rfl
    · congr 1
      rw [List.length_append, List.length_replicate]
      omega
  · split
    · -- `ds000.0`
      rw [read_of_not_mem (by simp [hexp])]
      change readPositional (ds ++ List.replicate (point.toNat - ds.length) '0' ++ '.' :: ['0']) = _
      rw [readPositional_point (by simp [hpoint]), scaled]
      rw [Nat.ofDigitChars_append, Nat.ofDigitChars_append, Nat.ofDigitChars_replicate_zero]
      have hscale : point - (ds.length : ℤ) = ((point.toNat - ds.length : ℕ) : ℤ) := by omega
      rw [hscale, zpow_natCast]
      change ((10 * (10 ^ (point.toNat - ds.length) * Nat.ofDigitChars 10 ds 0) + 0 : ℕ) : ℚ) *
        10 ^ (-1 : ℤ) = _
      push_cast
      field_simp
      ring
    · -- `d.ds`
      rw [read_of_not_mem (by
        simp only [List.mem_append, List.mem_cons, not_or]
        exact ⟨fun h => hexp (List.mem_of_mem_take h), by decide,
          fun h => hexp (List.mem_of_mem_drop h)⟩)]
      rw [readPositional_point fun h => hpoint (List.mem_of_mem_take h), List.take_append_drop,
        scaled]
      congr 2
      rw [List.length_drop]
      omega

theorem read_scientific {ds : List Char} (hds : ∀ c ∈ ds, c.isDigit = true) (point : ℤ) :
    read (scientific ds point) = scaled ds point := by
  have hten : (10 : ℚ) ≠ 0 := by norm_num
  have hpoint : '.' ∉ ds := not_mem_of_isDigit hds rfl
  have hexp : 'e' ∉ ds := not_mem_of_isDigit hds rfl
  cases ds with
  | nil =>
    change read ([] ++ 'e' :: (toString (point - 1)).toList) = _
    rw [read_exponent (by simp), readPositional_whole (by simp), scaled]
    simp
  | cons d tail =>
    rw [List.mem_cons, not_or] at hpoint hexp
    cases tail with
    | nil =>
      change read ([d] ++ 'e' :: (toString (point - 1)).toList) = _
      rw [read_exponent (by simpa using hexp.1), readPositional_whole (by simpa using hpoint.1),
        scaled]
      rfl
    | cons d' tail =>
      change read ([d] ++ '.' :: (d' :: tail) ++ 'e' :: (toString (point - 1)).toList) = _
      rw [read_exponent (by
          simp only [List.mem_append, List.mem_cons, not_or] at hexp ⊢
          exact ⟨⟨hexp.1, by simp⟩, by decide, hexp.2⟩),
        readPositional_point (by simpa using hpoint.1), scaled, mul_assoc, ← zpow_add₀ hten]
      congr 2
      simp only [List.length_cons]
      omega

/-- The zeros that are left out at the end. -/
theorem exists_zeros (d : Decimal) :
    ∃ k, Nat.toDigits 10 d.digits = d.significant ++ List.replicate k '0' := by
  let all := (Nat.toDigits 10 d.digits).reverse
  have hzeros : all.takeWhile (· == '0') = List.replicate (all.takeWhile (· == '0')).length '0' :=
    List.eq_replicate_of_mem fun c hc => by simpa using List.mem_takeWhile_imp hc
  refine ⟨(all.takeWhile (· == '0')).length, ?_⟩
  have hsplit := List.takeWhile_append_dropWhile (p := (· == '0')) (l := all)
  calc Nat.toDigits 10 d.digits = all.reverse := (List.reverse_reverse _).symm
    _ = (all.dropWhile (· == '0')).reverse ++ (all.takeWhile (· == '0')).reverse := by
      rw [← List.reverse_append, hsplit]
    _ = d.significant ++ List.replicate (all.takeWhile (· == '0')).length '0' := by
      rw [hzeros, List.reverse_replicate, List.length_replicate]
      rfl

theorem isDigit_of_mem_significant {d : Decimal} {c : Char} (h : c ∈ d.significant) :
    c.isDigit = true := by
  obtain ⟨k, hk⟩ := d.exists_zeros
  have hmem : c ∈ Nat.toDigits 10 d.digits := by rw [hk]; exact List.mem_append_left _ h
  exact Nat.isDigit_of_mem_toDigits (by omega) (by omega) hmem

theorem value_eq (d : Decimal) : d.value = scaled d.significant d.point := by
  have hten : (10 : ℚ) ≠ 0 := by norm_num
  obtain ⟨k, hk⟩ := d.exists_zeros
  have hdigits : d.digits = 10 ^ k * Nat.ofDigitChars 10 d.significant 0 := by
    rw [← Nat.ofDigitChars_replicate_zero, ← Nat.ofDigitChars_append, ← hk,
      Nat.ofDigitChars_ten_toDigits]
  have hpoint : d.point - d.significant.length = k + d.exponent := by
    rw [point, hk, List.length_append, List.length_replicate]
    omega
  rw [scaled, hpoint, zpow_add₀ hten, zpow_natCast, value, hdigits]
  push_cast
  ring

/-- The text of a decimal denotes it. -/
theorem read_render (d : Decimal) : read d.render = d.value := by
  have hds : ∀ c ∈ d.significant, c.isDigit = true := fun _ => isDigit_of_mem_significant
  rw [value_eq, render]
  split
  · exact read_positional hds _
  · exact read_scientific hds _

end Decimal
namespace Binary64

namespace Interval

/-- What intervals are counted in is one over this. -/
def denominator : ℕ := Nat.pow 2 1076

theorem denominator_eq : denominator = Nat.pow 2 1076 := by
  unfold denominator
  with_reducible rfl

/-- The numbers in an interval, with its ends or without them. -/
def Contains (i : Interval) (v : ℚ) : Prop :=
  if i.closed then i.low ≤ v * denominator ∧ v * denominator ≤ i.high
  else i.low < v * denominator ∧ v * denominator < i.high

variable {i : Interval} {v : ℚ}

theorem Contains.le (h : i.Contains v) : i.low ≤ v * denominator ∧ v * denominator ≤ i.high := by
  unfold Contains at h
  split at h
  · exact h
  · exact ⟨h.1.le, h.2.le⟩

/-- The first interval lies below the second. They may meet, but only in an end that one of them
does not have. -/
structure Below (i j : Interval) : Prop where
  le : i.high ≤ j.low
  lt : i.closed = true → j.closed = true → i.high < j.low

theorem Below.not_contains {j : Interval} (h : i.Below j) (hi : i.Contains v) :
    ¬ j.Contains v := by
  intro hj
  have hle : (i.high : ℚ) ≤ j.low := by exact_mod_cast h.le
  have hlt : i.closed = true → j.closed = true → (i.high : ℚ) < j.low := fun hci hcj => by
    exact_mod_cast h.lt hci hcj
  unfold Contains at hi hj
  split at hi <;> split at hj
  · have := hlt (by assumption) (by assumption)
    linarith [hi.2, hj.1]
  all_goals linarith [hi.2, hj.1]

/-- Comparing over a common denominator. -/
theorem contains_value_iff (i : Interval) (c : ℕ) (e : ℤ) :
    i.Contains (Decimal.value ⟨c, e⟩) ↔
      let up := Nat.pow 10 (-e).toNat
      let den := denominator * Nat.pow 10 e.toNat
      if i.closed then i.low * up ≤ c * den ∧ c * den ≤ i.high * up
      else i.low * up < c * den ∧ c * den < i.high * up := by
  have hten : (10 : ℚ) ≠ 0 := by norm_num
  have hpower : (10 : ℚ) ^ e * 10 ^ (-e).toNat = 10 ^ e.toNat := by
    rw [← zpow_natCast, ← zpow_natCast, ← zpow_add₀ hten]
    congr 1
    omega
  have hup : (0 : ℚ) < (Nat.pow 10 (-e).toNat : ℕ) := by
    rw [Nat.pow_eq]
    positivity
  have hscale : ((c * (denominator * Nat.pow 10 e.toNat) : ℕ) : ℚ) =
      Decimal.value ⟨c, e⟩ * denominator * (Nat.pow 10 (-e).toNat : ℕ) := by
    rw [Decimal.value, Nat.pow_eq, Nat.pow_eq]
    push_cast
    rw [← hpower]
    ring
  dsimp only
  unfold Contains
  split
  · apply and_congr
    · rw [← mul_le_mul_iff_left₀ hup, ← hscale, ← Nat.cast_mul, Nat.cast_le]
    · rw [← mul_le_mul_iff_left₀ hup, ← hscale, ← Nat.cast_mul, Nat.cast_le]
  · apply and_congr
    · rw [← mul_lt_mul_iff_left₀ hup, ← hscale, ← Nat.cast_mul, Nat.cast_lt]
    · rw [← mul_lt_mul_iff_left₀ hup, ← hscale, ← Nat.cast_mul, Nat.cast_lt]

end Interval

theorem contains_of_decimalOfLength? {x : Binary64} {count : ℕ} {d : Decimal}
    (h : x.decimalOfLength? count = some d) : x.interval.Contains d.value := by
  unfold decimalOfLength? at h
  extract_lets i unit exponent up den rounds c nearer at h
  have hup : up = Nat.pow 10 (-exponent).toNat := rfl
  have hunit : unit = Interval.denominator := Interval.denominator_eq.symm
  have hden : den = unit * Nat.pow 10 exponent.toNat := by simp only [den]
  have hnearer : nearer = c ∨ nearer = c + 1 := by
    simp only [nearer]
    split <;> simp
  clear_value unit up den nearer exponent c
  have hcontains : ∀ c, rounds c = true → x.interval.Contains (Decimal.value ⟨c, exponent⟩) := by
    intro c hc
    rw [Interval.contains_value_iff]
    dsimp only
    rw [← hup, ← hunit, ← hden]
    simp only [rounds] at hc
    split at hc
    · rename_i hclosed
      rw [if_pos hclosed]
      exact of_decide_eq_true hc
    · rename_i hopen
      rw [if_neg hopen]
      exact of_decide_eq_true hc
  split at h
  · rename_i hlower hupper
    cases h
    rcases hnearer with hnearer | hnearer
    · rw [hnearer]
      exact hcontains c hlower
    · rw [hnearer]
      exact hcontains (c + 1) hupper
  · rename_i hlower hupper
    cases h
    exact hcontains c hlower
  · rename_i hlower hupper
    cases h
    exact hcontains (c + 1) hupper
  · cases h

/-- The coefficient fits, and fills all its bits unless the offset is zero. -/
theorem coefficient_bounds (x : Binary64) :
    x.coefficient < Nat.pow 2 53 ∧ (0 < x.offset → Nat.pow 2 52 ≤ x.coefficient) := by
  have hfraction : x.fraction < Nat.pow 2 52 := Nat.mod_lt _ (by decide)
  have hpow : Nat.pow 2 53 = 2 * Nat.pow 2 52 := by decide
  unfold coefficient offset
  split <;> omega

/-- The ends of an interval, from the coefficient and the offset. -/
theorem interval_ends (x : Binary64) :
    x.interval.high = (4 * x.coefficient + 2) * Nat.pow 2 x.offset ∧
    (x.interval.low = (4 * x.coefficient - 2) * Nat.pow 2 x.offset ∧
        (0 < x.offset → x.coefficient ≠ Nat.pow 2 52) ∨
      x.interval.low = (4 * x.coefficient - 1) * Nat.pow 2 x.offset ∧
        x.coefficient = Nat.pow 2 52) := by
  have hfour : 4 * x.units = 4 * x.coefficient * Nat.pow 2 x.offset := by rw [units, mul_assoc]
  constructor
  · rw [add_mul, ← hfour]
    rfl
  · unfold interval
    dsimp only
    split
    · rename_i h
      right
      refine ⟨by rw [Nat.sub_mul, ← hfour, one_mul], ?_⟩
      rw [coefficient, if_neg (by omega), h.1, add_zero]
    · rename_i h
      left
      refine ⟨by rw [Nat.sub_mul, ← hfour], ?_⟩
      unfold offset coefficient
      intro hoffset
      rw [if_neg (by omega)]
      omega

theorem two_mul_gap_le {a b : ℕ} (h : a < b) : 2 * Nat.pow 2 a ≤ Nat.pow 2 b := by
  have hpow := Nat.pow_le_pow_right (by omega : 0 < 2) h
  rw [Nat.pow_succ] at hpow
  rw [Nat.pow_eq, Nat.pow_eq]
  omega

theorem interval_closed_iff (x : Binary64) :
    x.interval.closed = true ↔ x.coefficient % 2 = 0 := by simp [interval]

/-- Neighbours with one offset: where their intervals meet, one of the coefficients is odd. -/
theorem below_of_offset_eq {x y : Binary64} (hoffset : x.offset = y.offset)
    (hlt : x.coefficient < y.coefficient) : x.interval.Below y.interval := by
  obtain ⟨hhigh, -⟩ := x.interval_ends
  obtain ⟨-, hlow⟩ := y.interval_ends
  rw [hoffset] at hhigh
  have hpos : 0 < Nat.pow 2 y.offset := Nat.pow_pos (by omega)
  have hbottom : (4 * y.coefficient - 2) * Nat.pow 2 y.offset ≤ y.interval.low := by
    rcases hlow with ⟨hlow, -⟩ | ⟨hlow, -⟩
    · rw [hlow]
    · rw [hlow]
      exact Nat.mul_le_mul_right _ (by omega)
  constructor
  · refine le_trans ?_ hbottom
    rw [hhigh]
    exact Nat.mul_le_mul_right _ (by omega)
  · intro hx hy
    rw [interval_closed_iff] at hx hy
    refine lt_of_lt_of_le ?_ hbottom
    rw [hhigh]
    exact Nat.mul_lt_mul_of_pos_right (by omega) hpos

/-- Numbers with different offsets: only the last below a power of two meets the next one, and its
coefficient is odd. -/
theorem below_of_offset_lt {x y : Binary64} (hoffset : x.offset < y.offset) :
    x.interval.Below y.interval := by
  obtain ⟨hhigh, -⟩ := x.interval_ends
  obtain ⟨-, hlow⟩ := y.interval_ends
  have hfits := x.coefficient_bounds.1
  have hfull := y.coefficient_bounds.2 (by omega)
  have hstep := two_mul_gap_le hoffset
  have hpos : 0 < Nat.pow 2 x.offset := Nat.pow_pos (by omega)
  have hpow : Nat.pow 2 53 = 2 * Nat.pow 2 52 := by decide
  have hbottom : (8 * Nat.pow 2 52 - 2) * Nat.pow 2 x.offset ≤ y.interval.low := by
    have hscaled : (4 * Nat.pow 2 52 - 1) * (2 * Nat.pow 2 x.offset) ≤
        (4 * Nat.pow 2 52 - 1) * Nat.pow 2 y.offset := Nat.mul_le_mul_left _ hstep
    have heq : (4 * Nat.pow 2 52 - 1) * (2 * Nat.pow 2 x.offset) =
        (8 * Nat.pow 2 52 - 2) * Nat.pow 2 x.offset := by
      rw [← mul_assoc]
      congr 1
    rw [← heq]
    refine hscaled.trans ?_
    rcases hlow with ⟨hlow, hnot⟩ | ⟨hlow, hsame⟩
    · have hne := hnot (by omega)
      rw [hlow]
      exact Nat.mul_le_mul_right _ (by omega)
    · rw [hlow, hsame]
  constructor
  · refine le_trans ?_ hbottom
    rw [hhigh]
    exact Nat.mul_le_mul_right _ (by omega)
  · intro hx _
    rw [interval_closed_iff] at hx
    refine lt_of_lt_of_le ?_ hbottom
    rw [hhigh]
    exact Nat.mul_lt_mul_of_pos_right (by omega) hpos

/-- No decimal rounds to two numbers, signs aside. -/
theorem same_of_contains {x y : Binary64} {v : ℚ} (hx : x.interval.Contains v)
    (hy : y.interval.Contains v) : x.coefficient = y.coefficient ∧ x.offset = y.offset := by
  rcases Nat.lt_trichotomy x.offset y.offset with hoffset | hoffset | hoffset
  · exact absurd hy ((below_of_offset_lt hoffset).not_contains hx)
  · rcases Nat.lt_trichotomy x.coefficient y.coefficient with hc | hc | hc
    · exact absurd hy ((below_of_offset_eq hoffset hc).not_contains hx)
    · exact ⟨hc, hoffset⟩
    · exact absurd hx ((below_of_offset_eq hoffset.symm hc).not_contains hy)
  · exact absurd hx ((below_of_offset_lt hoffset).not_contains hy)

theorem value_mul_pow (u : ℕ) {n m : ℕ} {e : ℤ} (hm : m = n + 2) (he : e = -n) :
    Decimal.value ⟨u * Nat.pow 5 n, e⟩ * (Nat.pow 2 m : ℕ) = (4 * u : ℕ) := by
  have hten : (10 : ℚ) ^ n = 5 ^ n * 2 ^ n := by
    rw [← mul_pow]
    norm_num
  rw [Decimal.value, he, hm, zpow_neg, zpow_natCast, hten, Nat.pow_eq, Nat.pow_eq]
  push_cast
  field_simp
  ring

/-- The number itself lies in its interval. -/
theorem contains_middle {x : Binary64} {v : ℚ}
    (hv : v * Interval.denominator = (4 * x.units : ℕ)) : x.interval.Contains v := by
  have hgap : 0 < Nat.pow 2 x.offset := Nat.pow_pos (by omega)
  have hfour : 4 * x.units = 4 * x.coefficient * Nat.pow 2 x.offset := by rw [units, mul_assoc]
  obtain ⟨hhigh, hlow⟩ := x.interval_ends
  rw [add_mul, ← hfour] at hhigh
  rw [Nat.sub_mul, Nat.sub_mul, ← hfour] at hlow
  unfold Interval.Contains
  rw [hv]
  split
  · constructor
    · exact_mod_cast (by omega : x.interval.low ≤ 4 * x.units)
    · exact_mod_cast (by omega : 4 * x.units ≤ x.interval.high)
  · rename_i hopen
    rw [interval_closed_iff] at hopen
    have hpos : 0 < x.coefficient * Nat.pow 2 x.offset := Nat.mul_pos (by omega) hgap
    rw [mul_assoc] at hfour
    constructor
    · exact_mod_cast (by omega : x.interval.low < 4 * x.units)
    · exact_mod_cast (by omega : 4 * x.units < x.interval.high)

theorem contains_exactDecimal (x : Binary64) : x.interval.Contains x.exactDecimal.value := by
  apply contains_middle
  rw [Interval.denominator_eq, exactDecimal]
  have hpower : 1076 = 1074 + 2 := by omega
  have hexponent : (-1074 : ℤ) = -(1074 : ℕ) := by norm_num
  generalize 1074 = n at hpower hexponent ⊢
  generalize 1076 = m at hpower ⊢
  exact value_mul_pow x.units hpower hexponent

theorem contains_shortest (x : Binary64) : x.interval.Contains x.shortest.value := by
  unfold shortest
  cases h : (List.range 17).findSome? fun i => x.decimalOfLength? (i + 1) with
  | none => exact x.contains_exactDecimal
  | some d =>
    obtain ⟨i, -, hi⟩ := List.exists_of_findSome?_eq_some h
    exact contains_of_decimalOfLength? hi

theorem low_pos {x : Binary64} (hx : x.units ≠ 0) : 0 < x.interval.low := by
  have hc : x.coefficient ≠ 0 := fun h => hx (by rw [units, h, zero_mul])
  obtain ⟨-, ⟨hlow, -⟩ | ⟨hlow, -⟩⟩ := x.interval_ends <;> rw [hlow] <;>
    exact Nat.mul_pos (by omega) (Nat.pow_pos (by omega))

theorem digits_shortest_ne_zero {x : Binary64} (hx : x.units ≠ 0) : x.shortest.digits ≠ 0 := by
  intro hzero
  have hlow : (x.interval.low : ℚ) ≤ 0 := by
    have := x.contains_shortest.le.1
    rwa [Decimal.value, hzero, Nat.cast_zero, zero_mul, zero_mul] at this
  have hpos := low_pos hx
  exact absurd hlow (by exact_mod_cast hpos.not_ge)

/-- Sign, coefficient and offset make the number. -/
theorem eq_of_same {x y : Binary64} (hsign : x.isNegative = y.isNegative)
    (hcoefficient : x.coefficient = y.coefficient) (hoffset : x.offset = y.offset) : x = y := by
  have hbits : ∀ z : Binary64, z.bits.toNat =
      (if z.isNegative then Nat.pow 2 63 else 0) + z.exponentField * Nat.pow 2 52 + z.fraction := by
    intro z
    have hlt := z.bits.toNat_lt
    unfold isNegative exponentField fraction
    simp only [Nat.pow_eq, decide_eq_true_eq] at hlt ⊢
    split <;> omega
  have hfields : x.exponentField = y.exponentField ∧ x.fraction = y.fraction := by
    have hx : x.fraction < Nat.pow 2 52 := Nat.mod_lt _ (by decide)
    have hy : y.fraction < Nat.pow 2 52 := Nat.mod_lt _ (by decide)
    unfold offset at hoffset
    unfold coefficient at hcoefficient
    split at hcoefficient <;> split at hcoefficient <;> omega
  have heq : x.bits = y.bits := UInt64.toNat_inj.mp (by
    rw [hbits x, hbits y, hsign, hfields.1, hfields.2])
  cases x
  cases y
  exact congrArg Binary64.mk heq

end Binary64

/-- The shape of the text of a finite number without its sign. -/
structure IsNumeral (cs : List Char) : Prop where
  head : ∃ c more, cs = c :: more ∧ c.isDigit = true
  chars : ∀ c ∈ cs, c.isDigit = true ∨ c ∈ ['.', 'e', '-']
  marked : '.' ∈ cs ∨ 'e' ∈ cs

theorem Text.mem_toString_int {k : ℤ} {c : Char} (h : c ∈ (toString k).toList) :
    c.isDigit = true ∨ c = '-' := by
  rw [Int.toString_eq_repr, Int.repr_eq_if] at h
  split at h
  · rw [Nat.toList_repr] at h
    exact .inl (Nat.isDigit_of_mem_toDigits (by omega) (by omega) h)
  · rw [String.toList_append, Nat.toList_repr] at h
    rcases List.mem_append.mp h with h | h
    · exact .inr (List.mem_singleton.mp h)
    · exact .inl (Nat.isDigit_of_mem_toDigits (by omega) (by omega) h)

namespace Decimal

theorem mem_positional {ds : List Char} {point : ℤ} {c : Char} (h : c ∈ positional ds point) :
    c ∈ ds ∨ c ∈ ['0', '.'] := by
  unfold positional at h
  split at h
  · simp only [List.cons_append, List.mem_cons, List.mem_append, List.mem_replicate] at h
    rcases h with rfl | rfl | ⟨-, rfl⟩ | h
    · simp
    · simp
    · simp
    · exact .inl h
  · split at h
    · simp only [List.mem_append, List.mem_cons, List.mem_replicate] at h
      rcases h with (h | ⟨-, rfl⟩) | rfl | rfl | h
      · exact .inl h
      · simp
      · simp
      · simp
      · cases h
    · simp only [List.mem_append, List.mem_cons] at h
      rcases h with h | rfl | h
      · exact .inl (List.mem_of_mem_take h)
      · simp
      · exact .inl (List.mem_of_mem_drop h)

theorem mem_scientific {ds : List Char} {point : ℤ} {c : Char} (h : c ∈ scientific ds point) :
    c ∈ ds ∨ c ∈ ['.', 'e', '-'] ∨ c.isDigit = true := by
  unfold scientific at h
  dsimp only at h
  simp only [List.mem_append, List.mem_cons] at h
  rcases h with (h | h) | rfl | h
  · exact .inl (List.mem_of_mem_take h)
  · split at h
    · cases h
    · rcases List.mem_cons.mp h with rfl | h
      · simp
      · exact .inl (List.mem_of_mem_drop h)
  · simp
  · rcases Text.mem_toString_int h with hdigit | rfl
    · exact .inr (.inr hdigit)
    · simp

theorem isNumeral_positional {ds : List Char} (hne : ds ≠ []) (hds : ∀ c ∈ ds, c.isDigit = true)
    (point : ℤ) : IsNumeral (positional ds point) where
  head := by
    obtain ⟨d, more, rfl⟩ := List.exists_cons_of_ne_nil hne
    have hd : d.isDigit = true := hds d (by simp)
    unfold positional
    split
    · exact ⟨'0', _, rfl, rfl⟩
    · split
      · exact ⟨d, _, rfl, hd⟩
      · obtain ⟨n, hn⟩ : ∃ n, point.toNat = n + 1 := ⟨point.toNat - 1, by omega⟩
        rw [hn]
        exact ⟨d, _, rfl, hd⟩
  chars c hc := by
    rcases mem_positional hc with h | h
    · exact .inl (hds c h)
    · rcases List.mem_cons.mp h with rfl | h
      · exact .inl rfl
      · exact .inr (List.mem_cons.mpr (.inl (List.mem_singleton.mp h)))
  marked := by
    unfold positional
    split
    · simp
    · split <;> simp

theorem isNumeral_scientific {ds : List Char} (hne : ds ≠ []) (hds : ∀ c ∈ ds, c.isDigit = true)
    (point : ℤ) : IsNumeral (scientific ds point) where
  head := by
    obtain ⟨d, more, rfl⟩ := List.exists_cons_of_ne_nil hne
    exact ⟨d, _, rfl, hds d (by simp)⟩
  chars c hc := by
    rcases mem_scientific hc with h | h | h
    · exact .inl (hds c h)
    · exact .inr h
    · exact .inl h
  marked := by simp [scientific]

theorem isNumeral_render {d : Decimal} (hd : d.digits ≠ 0) : IsNumeral d.render := by
  have hds : ∀ c ∈ d.significant, c.isDigit = true := fun _ => isDigit_of_mem_significant
  have hne : d.significant ≠ [] := by
    intro hnil
    obtain ⟨k, hk⟩ := d.exists_zeros
    have hvalue := congrArg (Nat.ofDigitChars 10 · 0) hk
    simp only [hnil, List.nil_append, Nat.ofDigitChars_ten_toDigits,
      Nat.ofDigitChars_replicate_zero, mul_zero] at hvalue
    exact hd hvalue
  unfold render
  split
  · exact isNumeral_positional hne hds _
  · exact isNumeral_scientific hne hds _

end Decimal

namespace Binary64

/-- The text of a finite number without its sign. -/
def magnitude (x : Binary64) : List Char :=
  if x.units = 0 then ['0', '.', '0'] else x.shortest.render

variable {x y : Binary64}

theorem toList_render (hx : x.isFinite = true) :
    x.render.toList = if x.isNegative then '-' :: x.magnitude else x.magnitude := by
  have hmagnitude : (if x.units = 0 then "0.0" else String.ofList x.shortest.render).toList =
      x.magnitude := by
    unfold magnitude
    split
    · rfl
    · exact String.toList_ofList
  unfold render isNaN
  simp only [hx, Bool.not_true, Bool.false_and, Bool.false_eq_true, if_false]
  split
  · rw [String.toList_append, hmagnitude]
    rfl
  · exact hmagnitude

theorem isNumeral_magnitude (x : Binary64) : IsNumeral x.magnitude := by
  unfold magnitude
  split
  · refine ⟨⟨'0', _, rfl, rfl⟩, fun c hc => ?_, by simp⟩
    simp only [List.mem_cons, List.not_mem_nil, or_false] at hc
    rcases hc with rfl | rfl | rfl
    · exact .inl rfl
    · exact .inr List.mem_cons_self
    · exact .inl rfl
  · rename_i hx
    exact Decimal.isNumeral_render (digits_shortest_ne_zero hx)

/-- The text reads back as a decimal that rounds to the number. -/
theorem contains_read_magnitude (x : Binary64) :
    x.interval.Contains (Decimal.read x.magnitude) := by
  unfold magnitude
  split
  · rename_i hx
    have hzero : Decimal.read ['0', '.', '0'] = 0 := by
      rw [Decimal.read_of_not_mem (by decide)]
      change Decimal.readPositional (['0'] ++ '.' :: ['0']) = 0
      rw [Decimal.readPositional_point (by decide)]
      simp [Nat.ofDigitChars_cons]
    apply contains_middle
    rw [hzero, hx, zero_mul, Nat.mul_zero, Nat.cast_zero]
  · rw [Decimal.read_render]
    exact x.contains_shortest

/-- Finite numbers with the same text are the same. -/
theorem render_injective (hx : x.isFinite = true) (hy : y.isFinite = true)
    (h : x.render = y.render) : x = y := by
  have htext := congrArg String.toList h
  rw [toList_render hx, toList_render hy] at htext
  have hunsigned : ∀ z : Binary64, ∀ cs, '-' :: cs ≠ z.magnitude := by
    intro z cs heq
    obtain ⟨c, more, hc, hdigit⟩ := z.isNumeral_magnitude.head
    rw [← heq] at hc
    cases hc
    cases hdigit
  have hsame : x.isNegative = y.isNegative ∧ x.magnitude = y.magnitude := by
    cases hxneg : x.isNegative with
    | true =>
      cases hyneg : y.isNegative with
      | true =>
        simp only [hxneg, hyneg, if_true] at htext
        exact ⟨rfl, List.tail_eq_of_cons_eq htext⟩
      | false =>
        simp only [hxneg, hyneg, if_true, Bool.false_eq_true, if_false] at htext
        exact absurd htext (hunsigned y _)
    | false =>
      cases hyneg : y.isNegative with
      | true =>
        simp only [hxneg, hyneg, if_true, Bool.false_eq_true, if_false] at htext
        exact absurd htext.symm (hunsigned x _)
      | false =>
        simp only [hxneg, hyneg, Bool.false_eq_true, if_false] at htext
        exact ⟨rfl, htext⟩
  have hcontains := x.contains_read_magnitude
  rw [hsame.2] at hcontains
  obtain ⟨hcoefficient, hoffset⟩ := same_of_contains hcontains y.contains_read_magnitude
  exact eq_of_same hsame.1 hcoefficient hoffset

end Binary64
end HumanScript
