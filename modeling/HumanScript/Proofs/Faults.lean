import HumanScript.Proofs.Diagnostics
import HumanScript.Proofs.NumberText
import HumanScript.Proofs.Slices

/-! What the lexer reports: one error for each token that is not what it should be, at its place,
and nothing else. A number with places is out of range from half way between the greatest finite
number and the next power of two on. -/
namespace HumanScript

namespace Binary64

/-- An even number is reached half a step before it. -/
theorem le_roundEven_iff {k n d : ℕ} (hk : k % 2 = 0) (hpos : 0 < k) (hd : 0 < d) :
    k ≤ roundEven n d ↔ (2 * k - 1) * d ≤ 2 * n := by
  have hn := Nat.div_add_mod n d
  have hr := Nat.mod_lt n hd
  have hhalf : (2 * k - 1) * d + d = 2 * (k * d) := by
    obtain ⟨j, rfl⟩ := Nat.exists_eq_add_of_lt hpos
    rw [show 2 * (0 + j + 1) - 1 = 2 * j + 1 by omega]
    ring
  unfold roundEven
  dsimp only
  generalize n / d = m at hn ⊢
  generalize n % d = r at hn hr ⊢
  rcases Nat.lt_trichotomy (m + 1) k with hbelow | rfl | habove
  · have hmul : (m + 2) * d ≤ k * d := Nat.mul_le_mul_right d hbelow
    have hstep : (m + 2) * d = d * m + 2 * d := by ring
    split <;> omega
  · have hmul : (m + 1) * d = d * m + d := by ring
    split <;> omega
  · have hmul : k * d ≤ m * d := Nat.mul_le_mul_right d (by omega)
    have hcomm : m * d = d * m := Nat.mul_comm m d
    split <;> omega

theorem roundEven_bounds (n d : ℕ) : n / d ≤ roundEven n d ∧ roundEven n d ≤ n / d + 1 := by
  unfold roundEven
  dsimp only
  split <;> omega

theorem mul_pow_le {a b k : ℕ} (h : a ≤ b + k) (d : ℕ) : d * 2 ^ a ≤ d * 2 ^ b * 2 ^ k := by
  rw [Nat.mul_assoc, ← Nat.pow_add]
  exact Nat.mul_le_mul_left d (Nat.pow_le_pow_right (by omega) h)

theorem le_mul_pow {a b k : ℕ} (h : b + k ≤ a) (d : ℕ) : d * 2 ^ b * 2 ^ k ≤ d * 2 ^ a := by
  rw [Nat.mul_assoc, ← Nat.pow_add]
  exact Nat.mul_le_mul_left d (Nat.pow_le_pow_right (by omega) h)

/-- Bits count up to the exponent field `top + 2` from half a step before its first number on. -/
theorem le_bits_iff {top n d : ℕ} (htop : 0 < top) (hd : 0 < d) :
    (top + 2) * 2 ^ 52 ≤
        ((n / d).log2 - 52) * 2 ^ 52 + roundEven n (d * 2 ^ ((n / d).log2 - 52)) ↔
      (2 ^ 54 - 1) * (d * 2 ^ top) ≤ 2 * n := by
  obtain ⟨l, hl⟩ : ∃ l, (n / d).log2 = l := ⟨_, rfl⟩
  have hupper : n < d * 2 ^ (l + 1) := by
    rw [Nat.mul_comm, ← Nat.div_lt_iff_lt_mul hd, ← hl]
    exact Nat.lt_log2_self
  have hbounds := roundEven_bounds n (d * 2 ^ (l - 52))
  rw [hl]
  rcases Nat.lt_trichotomy l (top + 52) with hlow | rfl | hhigh
  · -- The exponent is too small, also if the coefficient is rounded up to the next power of two.
    have hcoefficient : n / (d * 2 ^ (l - 52)) < 2 ^ 53 := by
      rw [Nat.div_lt_iff_lt_mul (by positivity), Nat.mul_comm]
      exact Nat.lt_of_lt_of_le hupper (mul_pow_le (by omega) d)
    have hexponent : (l - 52 + 1) * 2 ^ 52 ≤ top * 2 ^ 52 := Nat.mul_le_mul_right _ (by omega)
    have hlimit : d * 2 ^ (l + 1) ≤ d * 2 ^ top * 2 ^ 52 := mul_pow_le (by omega) d
    have hpos : 0 < d * 2 ^ top := by positivity
    omega
  · have hstep := le_roundEven_iff (k := 2 ^ 53) (n := n) (by decide) (by decide)
      (show 0 < d * 2 ^ top by positivity)
    rw [Nat.add_sub_cancel] at hbounds ⊢
    rw [show (2 : ℕ) ^ 54 - 1 = 2 * 2 ^ 53 - 1 by decide, ← hstep]
    omega
  · have hne : n / d ≠ 0 := by
      intro hzero
      rw [hzero, Nat.log2_zero] at hl
      omega
    have hlower : d * 2 ^ l ≤ n := by
      rw [Nat.mul_comm, ← Nat.le_div_iff_mul_le hd, ← hl]
      exact Nat.log2_self_le hne
    have hcoefficient : 2 ^ 52 ≤ n / (d * 2 ^ (l - 52)) := by
      rw [Nat.le_div_iff_mul_le (by positivity), Nat.mul_comm]
      exact (le_mul_pow (by omega) d).trans hlower
    have hexponent : (top + 1) * 2 ^ 52 ≤ (l - 52) * 2 ^ 52 := Nat.mul_le_mul_right _ (by omega)
    have hlimit : d * 2 ^ top * 2 ^ 53 ≤ d * 2 ^ l := le_mul_pow (by omega) d
    omega

/-- The same where lengths are counted in units of `2 ^ (-b)`. -/
theorem le_bits_units_iff (a b n : ℕ) {d : ℕ} (hd : 0 < d) :
    (a + (b + 1) + 2) * 2 ^ 52 ≤
        ((n * 2 ^ b / d).log2 - 52) * 2 ^ 52 +
          roundEven (n * 2 ^ b) (d * 2 ^ ((n * 2 ^ b / d).log2 - 52)) ↔
      (2 ^ 54 - 1) * 2 ^ a * d ≤ n := by
  have hleft : (2 ^ 54 - 1) * (d * 2 ^ (a + (b + 1))) = (2 ^ 54 - 1) * 2 ^ a * d * 2 ^ (b + 1) := by
    ring
  have hright : 2 * (n * 2 ^ b) = n * 2 ^ (b + 1) := by ring
  rw [le_bits_iff (by omega) hd, hleft, hright]
  exact Nat.mul_le_mul_right_iff (by positivity)

/-- Half way from the greatest finite number to the next power of two. -/
def overflowThreshold : ℚ := 2 ^ 1024 - 2 ^ 970

theorem overflowThreshold_eq : overflowThreshold = (2 ^ 54 - 1) * 2 ^ 970 := by
  have hsplit : ∀ k : ℕ, (2 : ℚ) ^ (54 + k) - 2 ^ k = (2 ^ 54 - 1) * 2 ^ k := fun k => by
    rw [pow_add, sub_mul, one_mul]
  exact hsplit 970

theorem ofDecimal?_eq_none_iff_le (digits places : ℕ) :
    ofDecimal? digits places = none ↔ 2047 * 2 ^ 52 ≤ nearestBits digits (10 ^ places) := by
  rw [← Nat.not_lt]
  unfold ofDecimal?
  dsimp only
  split
  · rename_i hsmall
    exact iff_of_false (by simp) (not_not_intro hsmall)
  · rename_i hlarge
    exact iff_of_true rfl hlarge

/-- A number is too large to be finite from half way to the next power of two on. -/
theorem ofDecimal?_eq_none_iff (digits places : ℕ) :
    ofDecimal? digits places = none ↔
      overflowThreshold ≤ digits * (10 : ℚ) ^ (-places : ℤ) := by
  have hbits : 2047 * 2 ^ 52 ≤ nearestBits digits (10 ^ places) ↔
      (2 ^ 54 - 1) * 2 ^ 970 * 10 ^ places ≤ digits := by
    have hfield : 2047 = 970 + (1074 + 1) + 2 := by omega
    unfold nearestBits
    generalize 1074 = b at hfield ⊢
    rw [hfield]
    exact le_bits_units_iff 970 b digits (by positivity)
  rw [ofDecimal?_eq_none_iff_le, hbits, overflowThreshold_eq, zpow_neg, zpow_natCast,
    ← div_eq_mul_inv, le_div_iff₀ (by positivity), ← Nat.cast_le (α := ℚ), Nat.cast_mul,
    Nat.cast_mul, Nat.cast_pow, Nat.cast_pow]
  norm_num

end Binary64

/-! Tokens. -/

namespace Lexeme

/-- A quote, and at the end another one that is not behind a backslash. -/
def IsClosed (text : List Char) : Prop :=
  ∃ inside value, Unescapes inside value ∧ text = '"' :: (inside ++ ['"'])

/-- What is wrong with a token of this kind and text. -/
def Fault (kind : Token.Kind) (text : List Char) : LexError → Prop
  | .unexpectedChar c => kind = .unknown ∧ text = [c]
  | .unclosedString => kind = .string ∧ ¬ IsClosed text
  | .intOverflow => kind = .int ∧ 2 ^ 63 ≤ decimalValue text
  | .floatOverflow => kind = .float ∧ Binary64.overflowThreshold ≤ Decimal.readPositional text

theorem Fault.kind_mem {kind : Token.Kind} {text : List Char} {e : LexError}
    (h : Fault kind text e) : kind ∈ [Token.Kind.unknown, .string, .int, .float] := by
  cases e with
  | unexpectedChar | unclosedString | intOverflow | floatOverflow =>
    rw [h.1]
    decide

/-- A string that is still open has no closing quote: reading it again finds none. -/
theorem not_isClosed {inside value : List Char} (h : Unescapes inside value) :
    ¬ IsClosed ('"' :: inside) := by
  rintro ⟨inside', value', h', htext⟩
  have hopen := scanBody_append h []
  have hclosed := scanBody_append h' ['"']
  rw [List.append_nil, (List.cons.inj htext).2, hclosed] at hopen
  cases congrArg Body.closed hopen

theorem not_isClosed_escape (inside : List Char) : ¬ IsClosed ('"' :: (inside ++ ['\\'])) := by
  rintro ⟨inside', value', -, htext⟩
  simpa using congrArg List.getLast? (List.cons.inj htext).2

/-- What is remarked about a lexeme is what is wrong with it. -/
theorem Front.fault_iff {l : Lexeme} {rest : List Char} (h : Front l rest) (e : LexError) :
    Fault l.kind l.text e ↔ l.error = some e := by
  cases h with
  | @mark text _ kind hmark =>
    have hmarks : ∀ m ∈ marks, m.2 ∉ [Token.Kind.unknown, .string, .int, .float] := by decide
    exact iff_of_false (fun h => hmarks _ hmark h.kind_mem) (by simp)
  | @word c more _ _ _ _ =>
    have hword := kind_ofWord (P := (· ∉ [Token.Kind.unknown, .string, .int, .float])) (by decide)
      (by decide) (c :: more)
    exact iff_of_false (fun h => hword h.kind_mem) (by simp)
  | int => cases e <;> simp [Fault, ofDigits]
  | @float whole places _ hwhole =>
    have hlarge : Binary64.ofDecimal? (decimalValue (whole ++ places)) places.length = none ↔
        Binary64.overflowThreshold ≤ Decimal.readPositional (whole ++ '.' :: places) := by
      rw [Decimal.readPositional_point (Decimal.not_mem_of_isDigit hwhole.2 rfl)]
      exact Binary64.ofDecimal?_eq_none_iff _ _
    cases e <;> simp [Fault, ofFraction, hlarge]
  | string hinside =>
    have hclosed : IsClosed _ := ⟨_, _, hinside, rfl⟩
    cases e <;> simp [Fault, hclosed]
  | openString hinside => cases e <;> simp [Fault, not_isClosed hinside]
  | openEscape => cases e <;> simp [Fault, not_isClosed_escape]
  | unknown => cases e <;> simp [Fault, eq_comm]

end Lexeme

namespace Token

/-- What is wrong with a token. -/
def Fault (t : Token) (e : LexError) : Prop := Lexeme.Fault t.kind t.text.toList e

/-- The faults of tokens at their places: one for each token that has one, in their order. -/
inductive Faults : List Token → List (Spanned LexError) → Prop where
  | nil : Faults [] []
  | sound {t : Token} {ts : List Token} {es : List (Spanned LexError)} (ht : ∀ e, ¬ t.Fault e)
      (h : Faults ts es) : Faults (t :: ts) es
  | fault {t : Token} {ts : List Token} {es : List (Spanned LexError)} {e : LexError}
      (ht : t.Fault e) (h : Faults ts es) : Faults (t :: ts) (⟨t.span, e⟩ :: es)

theorem Faults.append {ts us : List Token} {es fs : List (Spanned LexError)} (hts : Faults ts es)
    (hus : Faults us fs) : Faults (ts ++ us) (es ++ fs) := by
  induction hts with
  | nil => exact hus
  | sound ht _ ih => exact .sound ht ih
  | fault ht _ ih => exact .fault ht ih

theorem Faults.exists_mem {ts : List Token} {es : List (Spanned LexError)} (h : Faults ts es)
    {t : Token} (ht : t ∈ ts) {e : LexError} (he : t.Fault e) :
    ∃ f, t.Fault f ∧ ⟨t.span, f⟩ ∈ es := by
  induction h with
  | nil => cases ht
  | sound hsound _ ih =>
    rcases List.mem_cons.mp ht with rfl | ht
    · exact absurd he (hsound e)
    · exact ih ht
  | fault hfault _ ih =>
    rcases List.mem_cons.mp ht with rfl | ht
    · exact ⟨_, hfault, List.mem_cons_self⟩
    · obtain ⟨f, hf, hmem⟩ := ih ht
      exact ⟨f, hf, List.mem_cons_of_mem _ hmem⟩

end Token

namespace Lexeme

/-- A number that is too large counts as zero. -/
theorem Front.value_of_error {l : Lexeme} {rest : List Char} (h : Front l rest) :
    (l.error = some .intOverflow → l.value = some (.int 0)) ∧
      (l.error = some .floatOverflow → l.value = some (.float .zero)) := by
  cases h with
  | mark | word | string | openString | openEscape | unknown => simp
  | @int digits =>
    dsimp only [ofDigits]
    split <;> simp
  | @float whole places =>
    dsimp only [ofFraction]
    cases Binary64.ofDecimal? (decimalValue (whole ++ places)) places.length <;> simp

theorem Front.token_fault_iff {l : Lexeme} {rest : List Char} (h : Front l rest) (lo : Nat)
    (e : LexError) : (l.token lo).Fault e ↔ l.error = some e := by
  rw [Token.Fault, token, String.toList_ofList]
  exact h.fault_iff e

theorem Front.faults {l : Lexeme} {rest : List Char} (h : Front l rest) (lo : Nat) :
    Token.Faults [l.token lo] (l.errors lo) := by
  cases herror : l.error with
  | none =>
    rw [errors, herror]
    exact .sound (fun e he => by simp [h.token_fault_iff, herror] at he) .nil
  | some e =>
    rw [errors, herror]
    exact .fault ((h.token_fault_iff lo e).mpr herror) .nil

end Lexeme

namespace Lexed

theorem faults_ofChars (lo : Nat) (cs : List Char) :
    Token.Faults (ofChars lo cs).tokens (ofChars lo cs).errors := by
  induction cs using Lexeme.ahead_induction generalizing lo with
  | done gap hgap =>
    rw [ofChars_of_trivia hgap]
    exact .nil
  | next gap l rest hahead ih =>
    rw [ofChars_ahead hahead]
    split
    · exact hahead.front.faults _
    · exact (hahead.front.faults _).append (ih _)

theorem not_fault_eof (stop : Nat) (e : LexError) : ¬ (Token.eof stop).Fault e := fun h => by
  simpa [Token.eof] using h.kind_mem

theorem faults_all (src : String) : Token.Faults (ofSource src).all (ofSource src).errors := by
  have hend := Token.Faults.sound (not_fault_eof (ofSource src).stop) .nil
  have hfaults := (faults_ofChars 0 src.toList).append hend
  rwa [List.append_nil] at hfaults

/-- Nothing is read after an error beyond mending. -/
theorem isWarning_of_mem_dropLast (lo : Nat) (cs : List Char) :
    ∀ e ∈ (ofChars lo cs).errors.dropLast, e.value.isWarning = true := by
  have hone : ∀ (l : Lexeme) lo, (l.errors lo).dropLast = [] := by
    rintro ⟨kind, text, value, _ | error⟩ lo <;> rfl
  induction cs using Lexeme.ahead_induction generalizing lo with
  | done gap hgap => simp [ofChars_of_trivia hgap]
  | next gap l rest hahead ih =>
    rw [ofChars_ahead hahead]
    split
    · simp [Lexeme.lexed, hone]
    · rename_i hknown
      generalize lo + Text.byteLength gap = start
      change ∀ e ∈ (l.errors start ++ (ofChars (l.stop start) rest).errors).dropLast, _
      by_cases hmore : (ofChars (l.stop start) rest).errors = []
      · simp [hmore, hone]
      · rw [List.dropLast_append_of_ne_nil hmore, List.forall_mem_append]
        refine ⟨fun e he => ?_, ih _⟩
        -- A string that is still open would have left no text for more errors.
        by_contra hfatal
        obtain ⟨-, rfl⟩ := (hahead.front.of_error (Lexeme.mem_errors_iff.mp he).1
          (Bool.eq_false_iff.mpr hfatal)).resolve_left hknown
        simp [ofChars] at hmore

theorem value_of_fault {src : String} {t : Token} (ht : t ∈ (ofSource src).all) :
    (t.Fault .intOverflow → t.value = some (.int 0)) ∧
      (t.Fault .floatOverflow → t.value = some (.float .zero)) := by
  rcases List.mem_append.mp ht with ht | ht
  · obtain ⟨c, more, lo, rfl⟩ := exists_scan_of_mem_ofChars ht
    have hfront := Lexeme.front_scan c more
    rw [hfront.token_fault_iff, hfront.token_fault_iff]
    exact hfront.value_of_error
  · rw [List.mem_singleton.mp ht]
    exact ⟨fun h => absurd h (not_fault_eof _ _), fun h => absurd h (not_fault_eof _ _)⟩

end Lexed

/-- Lexing remarks on each token that has a fault, and on nothing else: the errors that it puts
behind those in the buffer are the faults of the tokens, each at the place of its token. A number
that is too large counts as zero. All errors but the last are warnings. -/
theorem Session.step_lex_faults (s : Session) (src : String) (hempty : s.tokens = []) :
    ∃ reported, s.step (.lex src) =
        (.done, { s with
          tokens := (Lexed.ofSource src).all, lexErrors := s.lexErrors ++ reported }, []) ∧
      Token.Faults (Lexed.ofSource src).all reported ∧
      (∀ t ∈ (Lexed.ofSource src).all,
        (t.Fault .intOverflow → t.value = some (.int 0)) ∧
        (t.Fault .floatOverflow → t.value = some (.float .zero))) ∧
      ∀ e ∈ reported.dropLast, e.value.isWarning = true := by
  refine ⟨(Lexed.ofSource src).errors, ?_, Lexed.faults_all src, fun _ => Lexed.value_of_fault,
    Lexed.isWarning_of_mem_dropLast 0 src.toList⟩
  simp [step, read, hempty]

theorem Session.step_lex_faults_mixed :
    ∃ reported, ((Session.mk [] [⟨.ofBounds 0 1, .unexpectedChar '#'⟩] []).step
          (.lex "9223372036854775808 1.5 \"a\\\"")).2.1.lexErrors =
        ⟨.ofBounds 0 1, .unexpectedChar '#'⟩ :: reported ∧
      Token.Faults (Lexed.ofSource "9223372036854775808 1.5 \"a\\\"").all reported ∧
      reported = [⟨.ofBounds 0 19, .intOverflow⟩, ⟨.ofBounds 24 28, .unclosedString⟩] := by
  obtain ⟨reported, hstep, hfaults, -⟩ :=
    step_lex_faults ⟨[], [⟨.ofBounds 0 1, .unexpectedChar '#'⟩], []⟩
      "9223372036854775808 1.5 \"a\\\"" rfl
  have hrun : ((Session.mk [] [⟨.ofBounds 0 1, .unexpectedChar '#'⟩] []).step
      (.lex "9223372036854775808 1.5 \"a\\\"")).2.1.lexErrors =
        [⟨.ofBounds 0 1, .unexpectedChar '#'⟩, ⟨.ofBounds 0 19, .intOverflow⟩,
          ⟨.ofBounds 24 28, .unclosedString⟩] := by
    decide +kernel
  rw [hstep] at hrun ⊢
  exact ⟨reported, rfl, hfaults, (List.cons.inj hrun).2⟩

end HumanScript
