import HumanScript.Proofs.FlatScope
import HumanScript.Proofs.Literals
import HumanScript.Proofs.Parts

/-! Integer literals keep their values, from the digits in a text to those in its code. -/
namespace HumanScript

/-- Decimal digits without leading zeros, and the number they denote. -/
structure IsDecimal (digits : List Char) (n : Nat) : Prop where
  isDigits : Lexeme.IsDigits digits
  value : Lexeme.decimalValue digits = n
  lead : digits.head? = some '0' → digits = ['0']

theorem decimalValue_toDigits (n : Nat) : Lexeme.decimalValue (Nat.toDigits 10 n) = n :=
  Nat.ofDigitChars_ten_toDigits

theorem isDecimal_toDigits (n : Nat) : IsDecimal (Nat.toDigits 10 n) n where
  isDigits := ⟨Nat.toDigits_ne_nil, fun _ => Nat.isDigit_of_mem_toDigits (by omega) (by omega)⟩
  value := decimalValue_toDigits n
  lead := by
    induction n using Nat.strongRecOn with
    | ind n ih =>
      intro hzero
      by_cases hsmall : n < 10
      · rw [Nat.toDigits_of_lt_base hsmall] at hzero ⊢
        rw [Option.some.inj hzero]
      · have hten : 10 ≤ n := by omega
        rw [Nat.toDigits_of_base_le (by omega) hten,
          List.head?_append_of_ne_nil _ Nat.toDigits_ne_nil] at hzero
        -- Without its last digit the number is not zero, so it does not start with a zero.
        have htens := congrArg Lexeme.decimalValue (ih (n / 10) (by omega) hzero)
        rw [decimalValue_toDigits] at htens
        have hnone : Lexeme.decimalValue ['0'] = 0 := rfl
        omega

/-! Tokens. -/

namespace Token

/-- The number that the digits of a token denote. -/
def number (t : Token) : Nat := Lexeme.decimalValue t.text.toList

/-- An integer of more than 63 bits. -/
def isOversized (t : Token) : Bool := t.kind = .int && 2 ^ 63 ≤ t.number

/-- The number that an integer counts as. -/
def keptNumber (t : Token) : Nat := if t.number < 2 ^ 63 then t.number else 0

end Token

namespace Lexeme

/-- Only a row of digits is an integer, and only it can be too large for one. -/
theorem Front.int_cases {l : Lexeme} {rest : List Char} (h : Front l rest) :
    (∃ digits, IsDigits digits ∧ l = ofDigits digits) ∨
      l.kind ≠ .int ∧ l.error ≠ some .intOverflow := by
  cases h with
  | @mark text _ kind hmark =>
    have hmarks : ∀ m ∈ marks, m.2 ≠ .int := by decide
    exact .inr ⟨hmarks _ hmark, by simp⟩
  | word => exact .inr ⟨kind_ofWord (P := (· ≠ .int)) (by decide) (by decide) _, by simp⟩
  | int hdigits _ _ => exact .inl ⟨_, hdigits, rfl⟩
  | float =>
    right
    refine ⟨by simp [ofFraction], ?_⟩
    dsimp only [ofFraction]
    split <;> simp
  | string | openString | openEscape | unknown => exact .inr ⟨by simp, by simp⟩

/-- An integer is reported exactly if it is too large. -/
theorem Front.overflows {l : Lexeme} {rest : List Char} (h : Front l rest) (lo : Nat) :
    (l.errors lo).filter (·.value = .intOverflow) =
      ([l.token lo].filter Token.isOversized).map (⟨·.span, .intOverflow⟩) := by
  rcases h.int_cases with ⟨digits, -, rfl⟩ | ⟨hkind, herror⟩
  · have hnumber : ((ofDigits digits).token lo).number = decimalValue digits := by
      simp [Token.number, token]
    by_cases hfits : decimalValue digits < 2 ^ 63
    · have hnone : (ofDigits digits).error = none := if_pos hfits
      have hsmall : ((ofDigits digits).token lo).isOversized = false := by
        rw [Token.isOversized, hnumber, decide_eq_false (Nat.not_le_of_lt hfits), Bool.and_false]
      rw [errors, hnone, List.filter_cons_of_neg (by simp [hsmall])]
      rfl
    · have hsome : (ofDigits digits).error = some .intOverflow := if_neg hfits
      have hlarge : ((ofDigits digits).token lo).isOversized = true := by
        rw [Token.isOversized, hnumber, Bool.and_eq_true, decide_eq_true_iff, decide_eq_true_iff]
        exact ⟨rfl, Nat.le_of_not_lt hfits⟩
      rw [errors, hsome, List.filter_cons_of_pos hlarge]
      rfl
  · have hother : (l.token lo).isOversized = false := by
      have htoken : (l.token lo).kind = l.kind := rfl
      simp [Token.isOversized, htoken, hkind]
    rw [List.filter_cons_of_neg (by simp [hother]), List.filter_nil, List.map_nil,
      List.filter_eq_nil_iff]
    intro e he hvalue
    apply herror
    rw [(mem_errors_iff.mp he).1, of_decide_eq_true hvalue]

end Lexeme

namespace Lexed

/-- The integers that are reported are those that are too large. -/
theorem overflows (offset : Nat) (cs : List Char) :
    (ofChars offset cs).errors.filter (·.value = .intOverflow) =
      ((ofChars offset cs).tokens.filter Token.isOversized).map (⟨·.span, .intOverflow⟩) := by
  fun_induction ofChars offset cs with
  | case1 => rfl
  | case2 _ _ _ ih => exact ih
  | case3 _ _ _ _ _ ih => exact ih
  | case4 offset c cs _ _ front lexeme _ => exact (Lexeme.front_scan c cs).overflows offset
  | case5 offset c cs _ _ front lexeme _ more ih =>
    have hfirst := (Lexeme.front_scan c cs).overflows offset
    rw [List.filter_append, hfirst, ih, ← List.map_append, ← List.filter_append]
    rfl

/-- No two integers that are too large stand at the same place. -/
theorem overflows_ordered (src : String) :
    (((ofSource src).tokens.filter Token.isOversized).map Token.span).Pairwise
      (·.lo < ·.lo) := by
  have hordered := (errors_ordered 0 src.toList).2
  have hreported := hordered.sublist (List.filter_sublist (p := (·.value = .intOverflow)))
  rw [overflows, List.pairwise_map] at hreported
  rwa [List.pairwise_map]

theorem isDigits_and_value {src : String} {t : Token} (ht : t ∈ (ofSource src).tokens)
    (hkind : t.kind = .int) :
    Lexeme.IsDigits t.text.toList ∧ t.value = some (.int t.keptNumber) := by
  obtain ⟨c, more, lo, rfl⟩ := exists_scan_of_mem_ofChars ht
  rcases (Lexeme.front_scan c more).int_cases with ⟨digits, hdigits, hl⟩ | ⟨hother, -⟩
  · have htext : ((Lexeme.scan c more).1.token lo).text.toList = digits := by
      rw [Lexeme.token, hl, Lexeme.text_ofDigits, String.toList_ofList]
    refine ⟨htext.symm ▸ hdigits, ?_⟩
    rw [Token.keptNumber, Token.number, htext, Lexeme.token, hl]
    change some (Literal.int (if Lexeme.decimalValue digits < 2 ^ 63 then _ else _)) = _
    split <;> rfl
  · exact absurd hkind hother

end Lexed

/-- The literals of integer tokens are the numbers they count as. -/
theorem ints_of_tokens {src : String} {ts : List Token} (hts : ts ⊆ (Lexed.ofSource src).tokens) :
    (ts.filterMap Token.literal?).filterMap Literal.int? =
      (ts.filter (·.kind = .int)).map fun t => (t.keptNumber : Int) := by
  induction ts with
  | nil => rfl
  | cons t ts ih =>
    obtain ⟨ht, hts⟩ := List.cons_subset.mp hts
    by_cases hkind : t.kind = .int
    · have hvalue := (Lexed.isDigits_and_value ht hkind).2
      have hint : (Literal.int t.keptNumber).int? = some (t.keptNumber : Int) := rfl
      rw [List.filterMap_cons_some (Token.literal?_of_kind hkind hvalue),
        List.filterMap_cons_some hint, ih hts, List.filter_cons_of_pos (by simp [hkind]),
        List.map_cons]
    · have hnone : t.literal?.bind Literal.int? = none := by
        unfold Token.literal?
        split <;> first | rfl | contradiction
      rw [List.filter_cons_of_neg (by simp [hkind]), ← ih hts]
      cases hliteral : t.literal? with
      | none => rw [List.filterMap_cons_none hliteral]
      | some v =>
        have hother : v.int? = none := by
          rw [hliteral] at hnone
          exact hnone
        rw [List.filterMap_cons_some hliteral, List.filterMap_cons_none hother]

/-! Code. -/

namespace Cpp

/-- The digits of the integers in a text of code, in order. -/
def numerals (code : String) : List (List Char) :=
  (readPieces code.toList).filterMap Piece.digits?

theorem Piece.digits?_int (n : Nat) :
    (Piece.word (Expr.int n).render.toList).digits? = some (Nat.toDigits 10 n) := by
  have hdigits : ∀ c ∈ Nat.toDigits 10 n, c.isDigit = true := fun _ =>
    Nat.isDigit_of_mem_toDigits (by omega) (by omega)
  have htag : ∀ c ∈ "LL".toList.head?, c.isDigit = false := by
    rintro c ⟨⟩
    rfl
  have htext : (Expr.int n).render.toList = Nat.toDigits 10 n ++ "LL".toList := by
    rw [Expr.render_int, String.toList_append]
    change (String.ofList (Nat.toDigits 10 n)).toList ++ _ = _
    rw [String.toList_ofList]
  rw [htext, digits?, (Lexeme.takeWhile_run hdigits htag).1]
  exact if_pos ⟨Nat.toDigits_ne_nil, rfl⟩

theorem Carries.digits {vs : List Literal} {ps : List Piece} (h : Carries vs ps)
    (hvs : ∀ n, .int n ∈ vs → 0 ≤ n) :
    ps.filterMap Piece.digits? =
      (vs.filterMap Literal.int?).map fun n => Nat.toDigits 10 n.toNat := by
  induction h with
  | nil => rfl
  | @int n vs ps _ ih =>
    obtain ⟨k, rfl⟩ := Int.eq_ofNat_of_zero_le (hvs n List.mem_cons_self)
    have hint : (Literal.int k).int? = some (k : Int) := rfl
    rw [List.filterMap_cons_some (Piece.digits?_int k), List.filterMap_cons_some hint,
      ih fun m hm => hvs m (List.mem_cons_of_mem _ hm), List.map_cons, Int.toNat_natCast]
  | string s _ ih => exact ih fun m hm => hvs m (List.mem_cons_of_mem _ hm)
  | other _ hint _ ih =>
    rw [List.filterMap_cons_none hint]
    exact ih fun m hm => hvs m (List.mem_cons_of_mem _ hm)
  | truth _ _ ih => exact ih hvs
  | mute hp _ ih =>
    rw [List.filterMap_cons_none hp.2]
    exact ih hvs

end Cpp

/-! Remarks. -/

/-- The remark that an integer does not fit. -/
def Diagnostic.overflow (span : Span) : Diagnostic := .ofLexError ⟨span, .intOverflow⟩

def Diagnostic.isOverflow (d : Diagnostic) : Bool := d = .overflow d.span

theorem Diagnostic.isOverflow_ofLexError (e : Spanned LexError) :
    (ofLexError e).isOverflow = decide (e.value = .intOverflow) := by
  obtain ⟨span, value⟩ := e
  cases value with
  | intOverflow => exact decide_eq_true rfl
  | floatOverflow =>
    have hmessage : LexError.floatOverflow.message ≠ LexError.intOverflow.message := by decide
    exact decide_eq_false fun h => hmessage (congrArg message h)
  | unexpectedChar | unclosedString =>
    have hseverity : Severity.error ≠ .warning := by decide
    exact decide_eq_false fun h => hseverity (congrArg severity h)

/-- What is remarked about the integers of a text that compiles. -/
theorem overflow_remarks {src code : String} (h : (compile src).result = .ok code) :
    (compile src).diagnostics.filter Diagnostic.isOverflow =
      ((Lexed.ofSource src).tokens.filter Token.isOversized).map (.overflow ·.span) := by
  obtain ⟨c, q, hc, -, -⟩ := compile_eq_ok_iff.mp h
  have hnotes : (c.notes.map Diagnostic.ofNote).filter Diagnostic.isOverflow = [] := by
    rw [List.filter_eq_nil_iff]
    intro d hd hoverflow
    obtain ⟨n, -, rfl⟩ := List.mem_map.mp hd
    cases congrArg Diagnostic.stage (of_decide_eq_true hoverflow)
  have herrors : (lexerDiagnostics src).filter Diagnostic.isOverflow =
      ((Lexed.ofSource src).errors.filter (·.value = .intOverflow)).map .ofLexError := by
    rw [lexerDiagnostics, List.filter_map]
    exact congrArg _ (List.filter_congr fun e _ => Diagnostic.isOverflow_ofLexError e)
  rw [compile_diagnostics, check_diagnostics, hc]
  dsimp only
  rw [List.filter_append, hnotes, List.append_nil, herrors, Lexed.ofSource, Lexed.overflows,
    List.map_map]
  rfl

/-! Declarations of numbers. -/

namespace Cpp

/-- The declaration of a number that starts as an integer. -/
def numberLine (name : String) (n : Int) : String :=
  "int " ++ name ++ " = " ++ toString n ++ "LL;"

theorem text_declare_int (name : String) (n : Int) :
    (Opening.declare .int name (.int n)).text = numberLine name n := by
  rw [← String.toList_inj]
  simp [Opening.text, CType.render, Expr.render_int, numberLine]

theorem worded_numberLine (name : String) (n : Int) : Worded (numberLine name n) := by
  have hhead : (numberLine name n).toList.head? = some 'i' := by simp [numberLine]
  rw [Worded, hhead]
  decide

end Cpp

/-- A number that starts as an integer literal is small, and is declared in the code. -/
theorem BodyTyping.number_line {Γ Δ : Context} {body : List (Stmt Unit)} {body' : List (Stmt Ty)}
    {qs : List Cpp.Stmt} {name : Ident} {n : Int} {place span : Span}
    (h : BodyTyping Γ body body' Δ) (hqs : Stmt.allToCpp body' = .ok qs)
    (hmem : .declare .number name (.literal (.int n) place ()) span ∈ Stmt.partsAll body) :
    n < 2147483648 ∧
      ∀ depth, Cpp.HasLine (Cpp.Stmt.linesAll depth qs) (Cpp.numberLine name.name n) := by
  obtain ⟨Γ', t', Δ', htyped, ht'⟩ := h.part hmem
  obtain ⟨r, hr, hwithin⟩ := Stmt.within_allToCpp hqs ht'
  cases htyped with
  | declare _ hinit hfits =>
    obtain ⟨t, ht, rfl⟩ := Stmt.toCpp_declare_iff.mp hr
    cases hinit
    cases ht
    have hsmall : n < 2147483648 := by
      rcases hfits with haccepts | ⟨-, hliteral⟩
      · cases haccepts
      · cases hliteral
        assumption
    refine ⟨hsmall, hwithin _ (Cpp.worded_numberLine _ _) fun depth => ⟨depth, ?_⟩⟩
    rw [← Cpp.text_declare_int, Cpp.Stmt.lines_eq]
    exact List.mem_cons_self

/-! Checking the declaration of a number. -/

/-- A new number that starts as an integer literal: all that matters is its size. -/
theorem Item.check_number {known : SymbolTable} {name : Ident} (n : Int) (place span : Span)
    (hnew : known.get? name.name = none) :
    (declare .number name (.literal (.int n) place ()) span).check known =
      if -2147483648 ≤ n ∧ n < 2147483648 then
        .ok ⟨(name.name, ⟨.number, name.span⟩) :: known.entries⟩
      else .error ⟨place, .unassignable name.name .number .lnumber⟩ := by
  have hdefine : known.define name.name ⟨.number, name.span⟩ =
      .ok ⟨(name.name, ⟨.number, name.span⟩) :: known.entries⟩ :=
    SymbolTable.define_eq_ok_iff.mpr ⟨hnew, rfl⟩
  have hfits : (Expr.literal (.int n) place Ty.lnumber).fits .number =
      decide (-2147483648 ≤ n ∧ n < 2147483648) := rfl
  rw [check, Stmt.check, hdefine]
  simp only [Except.mapError, Expr.check, Literal.ty, Except.ok_bind, hfits, decide_eq_true_eq]
  split <;> rfl

theorem Stmt.flatAll_eq (body : List (Stmt Unit)) : flatAll body = body.flatMap flat := by
  induction body with
  | nil => rfl
  | cons s body ih => rw [flatAll, ih, List.flatMap_cons]

/-- What is declared is declared by a statement. -/
theorem Stmt.mem_parts_of_mem_flat {ty : Ty} {name : Ident} {init : Expr Unit} {span : Span}
    {s : Stmt Unit} (h : .declare ty name init span ∈ s.flat) :
    .declare ty name init span ∈ s.parts := by
  induction s with
  | declare =>
    cases List.mem_singleton.mp h
    exact List.mem_cons_self
  | print => cases List.mem_singleton.mp h
  | ifThen condition thenArm _ ih =>
    rcases List.mem_cons.mp h with hcondition | harm
    · cases hcondition
    · exact List.mem_cons_of_mem _ (ih harm)
  | ifElse condition thenArm elseArm _ iha ihb =>
    rcases List.mem_cons.mp h with hcondition | harms
    · cases hcondition
    · exact List.mem_cons_of_mem _ (List.mem_append.mpr ((List.mem_append.mp harms).imp iha ihb))
  | block body _ ih =>
    rw [flat, flatAll_eq, List.mem_flatMap] at h
    obtain ⟨s, hs, hflat⟩ := h
    rw [parts, partsAll_eq]
    exact List.mem_cons_of_mem _ (List.mem_flatMap.mpr ⟨s, hs, ih s hs hflat⟩)

theorem Program.mem_parts_of_mem_flat {ty : Ty} {name : Ident} {init : Expr Unit} {span : Span}
    {p : Program Unit} (h : .declare ty name init span ∈ p.flat) :
    .declare ty name init span ∈ Stmt.partsAll p.body := by
  rw [flat, Stmt.flatAll_eq, List.mem_flatMap] at h
  obtain ⟨s, hs, hflat⟩ := h
  rw [Stmt.partsAll_eq]
  exact List.mem_flatMap.mpr ⟨s, hs, Stmt.mem_parts_of_mem_flat hflat⟩

/-- A token of a text that writes an integer literal: the only integer among the tokens that spell
the literal, which may have parentheses around it. The literal is what the token counts as. -/
structure Token.Writes (t : Token) (src : String) (n : Int) (place : Span) : Prop where
  spelled : ∃ us, us <:+: (Lexed.ofSource src).tokens ∧
    Grammar.PlacedExpr .comparison us (.literal (.int n) place ()) ∧
    us.filter (·.kind = .int) = [t]
  value : n = t.keptNumber

theorem exists_writes {src : String} {p : Program Unit} {ty : Ty} {name : Ident} {n : Int}
    {place span : Span} (hp : (Lexed.ofSource src).program = .ok p)
    (hmem : .declare ty name (.literal (.int n) place ()) span ∈ Stmt.partsAll p.body) :
    ∃ t : Token, t.Writes src n place := by
  obtain ⟨hplaced, -⟩ := Lexed.placed_of_program (fun t ht => Lexed.valueFits_of_mem ht) hp
  obtain ⟨us, hus, hdeclare⟩ := hplaced.nodes_within.2.1 _ hmem
  cases hdeclare with
  | @declare t x a u vs _ _ _ _ _ hinit _ =>
    have hvs : vs <:+: (Lexed.ofSource src).tokens := by
      have hinside : vs <:+: t :: x :: a :: (vs ++ [u]) := ⟨[t, x, a], [u], by simp⟩
      exact hinside.trans hus
    have hints := ints_of_tokens hvs.subset
    rw [hinit.literals_eq] at hints
    change [n] = _ at hints
    obtain ⟨w, hw, hn⟩ := List.map_eq_singleton_iff.mp hints.symm
    exact ⟨w, ⟨vs, hvs, hinit, hw⟩, hn.symm⟩

/-- A declaration that is reached is refused exactly if its literal has more than 31 bits and still
fits in 63. -/
theorem check_number_of_writes {src : String} {p : Program Unit} {before after : List Item}
    {known : SymbolTable} {name : Ident} {n : Int} {place span : Span} {t : Token}
    (hflat : p.flat =
      before ++ .declare .number name (.literal (.int n) place ()) span :: after)
    (hbefore : Item.checkAll .empty before = .ok known) (hnew : known.get? name.name = none)
    (ht : t.Writes src n place) :
    if 2 ^ 31 ≤ t.number ∧ t.number < 2 ^ 63 then
      p.check = .error ⟨place, .unassignable name.name .number .lnumber⟩
    else ∃ next, Item.checkAll .empty
      (before ++ [.declare .number name (.literal (.int n) place ()) span]) = .ok next := by
  have hvalue := ht.value
  unfold Token.keptNumber at hvalue
  split_ifs with hrange
  · have hlarge : ¬ (-2147483648 ≤ n ∧ n < 2147483648) := by
      rw [if_pos hrange.2] at hvalue
      omega
    have herror := Item.check_number n place span hnew
    rw [if_neg hlarge] at herror
    have hfails := Item.checkAll_eq_error_iff.mpr ⟨before, _, after, known, hflat, hbefore, herror⟩
    rwa [← p.symbols_check, Except.map_eq_error_iff] at hfails
  · have hsmall : -2147483648 ≤ n ∧ n < 2147483648 := by
      split_ifs at hvalue <;> omega
    have hok := Item.check_number n place span hnew
    rw [if_pos hsmall] at hok
    refine ⟨⟨(name.name, ⟨.number, name.span⟩) :: known.entries⟩, ?_⟩
    rw [Item.checkAll_append, hbefore, Except.ok_bind, Item.checkAll_cons, hok]
    rfl

theorem Token.angled_subset (between inside : Bool) (ts : List Token) :
    angled between inside ts ⊆ ts := by
  induction ts generalizing inside with
  | nil => exact List.Subset.refl _
  | cons t ts ih =>
    unfold angled
    split_ifs
    · exact List.subset_cons_of_subset _ (ih true)
    · exact List.subset_cons_of_subset _ (ih false)
    · exact List.cons_subset_cons _ (ih inside)
    · exact List.subset_cons_of_subset _ (ih inside)

/-- The integers in the code are the integer tokens outside of header names. -/
theorem numerals_eq {src : String} {ps : List Cpp.Piece}
    (h : Cpp.Carries ((Lexed.ofSource src).plainTokens.filterMap Token.literal?) ps) :
    ps.filterMap Cpp.Piece.digits? =
      ((Lexed.ofSource src).plainTokens.filter (·.kind = .int)).map
        fun t => Nat.toDigits 10 t.keptNumber := by
  have hints := ints_of_tokens (Token.angled_subset false false (Lexed.ofSource src).tokens)
  have hnat : ∀ n, Literal.int n ∈ (Lexed.ofSource src).plainTokens.filterMap Token.literal? →
      0 ≤ n := by
    intro n hn
    have hmem : n ∈ ((Lexed.ofSource src).plainTokens.filterMap Token.literal?).filterMap
        Literal.int? := List.mem_filterMap.mpr ⟨_, hn, rfl⟩
    rw [Lexed.plainTokens, hints] at hmem
    obtain ⟨t, -, rfl⟩ := List.mem_map.mp hmem
    exact Int.natCast_nonneg _
  rw [h.digits hnat, Lexed.plainTokens, hints, List.map_map]
  rfl

/-- Integer literals keep their exact values. In `main`, in the code of a text that compiles, they
stand in order, in decimal digits without leading zeros and tagged; one that does not fit in 63 bits
stands as zero and is remarked once, and nothing else is, but for the integers in header names. A
number is only ever declared with a value that fits in 31 bits. Whatever is read as a program, the
declaration of a new number with an integer literal is refused exactly if the digits denote a number
that does not fit in 31 bits but in 63. -/
theorem integer_literals_exact (src : String) :
    (∀ code, (compile src).result = .ok code → ∃ p c q,
      (Lexed.ofSource src).program = .ok p ∧ p.check = .ok c ∧ c.value.toCpp = .ok q ∧
      q.render = code ∧
      code = Text.unlines (Cpp.banner :: "" :: q.headers.lines ++ "int main() \x7b" ::
        q.mainLines ++ ["\x7d"]) ∧
      (Lexed.ofSource src).plainTokens.filterMap Token.literal? = p.literals ∧
      List.Forall₂ (fun t digits => IsDecimal digits t.keptNumber)
        ((Lexed.ofSource src).plainTokens.filter (·.kind = .int))
        (Cpp.numerals (Text.unlines q.mainLines)) ∧
      (compile src).diagnostics.filter Diagnostic.isOverflow =
        ((Lexed.ofSource src).tokens.filter Token.isOversized).map (.overflow ·.span) ∧
      (((Lexed.ofSource src).tokens.filter Token.isOversized).map Token.span).Pairwise
        (·.lo < ·.lo) ∧
      (∀ t ∈ (Lexed.ofSource src).tokens.filter Token.isOversized,
        t ∈ (Lexed.ofSource src).plainTokens ∨ t ∈ (Lexed.ofSource src).pathTokens) ∧
      ∀ name n place span,
        .declare .number name (.literal (.int n) place ()) span ∈ Stmt.partsAll p.body →
        0 ≤ n ∧ n ≤ 2147483647 ∧ Cpp.HasLine q.mainLines (Cpp.numberLine name.name n)) ∧
    ∀ p, (Lexed.ofSource src).program = .ok p → ∀ before after known name n place span,
      p.flat = before ++ .declare .number name (.literal (.int n) place ()) span :: after →
      Item.checkAll .empty before = .ok known → known.get? name.name = none →
      ∃ t : Token, t.Writes src n place ∧
        if 2 ^ 31 ≤ t.number ∧ t.number < 2 ^ 63 then
          p.check = .error ⟨place, .unassignable name.name .number .lnumber⟩
        else ∃ next, Item.checkAll .empty
          (before ++ [.declare .number name (.literal (.int n) place ()) span]) = .ok next := by
  constructor
  · intro code h
    obtain ⟨p, c, q, hp, hcheck, hq, hcode, hcarries⟩ := exists_carries h
    obtain ⟨Δ, qs, hbody, hqs, hlowered⟩ := Program.exists_toCpp_of_check hcheck
    cases hq.symm.trans hlowered
    refine ⟨p, c, _, hp, hcheck, hq, hcode, hcode ▸ Cpp.Program.render_eq _,
      Lexed.literals_of_program hp, ?_, overflow_remarks h, Lexed.overflows_ordered src, ?_, ?_⟩
    · rw [Cpp.numerals, numerals_eq hcarries, List.forall₂_map_right_iff, List.forall₂_same]
      intro t _
      exact isDecimal_toDigits t.keptNumber
    · intro t ht
      obtain ⟨hmem, hlarge⟩ := List.mem_filter.mp ht
      refine Token.mem_angled_or hmem ?_ false
      rw [Token.isOversized, Bool.and_eq_true, decide_eq_true_iff] at hlarge
      rw [hlarge.1]
      rfl
    · intro name n place span hmem
      obtain ⟨t, ht⟩ := exists_writes hp hmem
      obtain ⟨hsmall, hlines⟩ := hbody.number_line hqs hmem
      have hvalue := ht.value
      have hmain : Cpp.Stmt.linesAll 1 qs ⊆ Cpp.Program.mainLines ⟨.ofProgram c.value, qs⟩ := by
        intro l hl
        simp [Cpp.Program.mainLines, Cpp.Program.statementLines, hl]
      exact ⟨by omega, by omega, (hlines 1).mono hmain⟩
  · intro p hp before after known name n place span hflat hbefore hnew
    have hmem : .declare .number name (.literal (.int n) place ()) span ∈ p.flat := by
      rw [hflat]
      simp
    obtain ⟨t, ht⟩ := exists_writes hp (Program.mem_parts_of_mem_flat hmem)
    exact ⟨t, ht, check_number_of_writes hflat hbefore hnew ht⟩

/-- A number that starts as an integer literal: its name and value, and where the literal and the
whole statement stand. -/
def Stmt.number? : Stmt Unit → Option (Ident × Int × Span × Span)
  | .declare .number name (.literal (.int n) place ()) span => some (name, n, place, span)
  | _ => none

theorem Stmt.eq_of_number? {s : Stmt Unit} {name : Ident} {n : Int} {place span : Span}
    (h : s.number? = some (name, n, place, span)) :
    s = .declare .number name (.literal (.int n) place ()) span := by
  unfold number? at h
  split at h
  · cases h
    rfl
  · cases h

theorem integer_literals_exact_bounds :
    (∃ (code : String) (q : Cpp.Program), (compile
        "use <99999999999999999999>; number a := (007); says a + 9223372036854775808;"
      ).result = .ok code ∧ q.render = code ∧
      code = Text.unlines (Cpp.banner :: "" :: q.headers.lines ++ "int main() \x7b" ::
        q.mainLines ++ ["\x7d"]) ∧
      List.Forall₂ (fun n digits => IsDecimal digits n) [7, 0]
        (Cpp.numerals (Text.unlines q.mainLines)) ∧
      ((compile "use <99999999999999999999>; number a := (007); says a + 9223372036854775808;"
        ).diagnostics.filter Diagnostic.isOverflow).map Diagnostic.span =
          [.ofBounds 5 25, .ofBounds 56 75] ∧
      Cpp.HasLine q.mainLines "int a = 7LL;") ∧
    ∃ p, (Lexed.ofSource "number x := 2147483648;").program = .ok p ∧
      p.check = .error ⟨.ofBounds 12 22, .unassignable "x" .number .lnumber⟩ := by
  constructor
  · have hrun : (compile
          "use <99999999999999999999>; number a := (007); says a + 9223372036854775808;"
        ).result.toOption.isSome = true := by
      decide +kernel
    have htokens : ((Lexed.ofSource
          "use <99999999999999999999>; number a := (007); says a + 9223372036854775808;"
        ).plainTokens.filter (·.kind = .int)).map Token.keptNumber = [7, 0] := by
      decide +kernel
    have hspans : ((Lexed.ofSource
          "use <99999999999999999999>; number a := (007); says a + 9223372036854775808;"
        ).tokens.filter Token.isOversized).map Token.span =
          [.ofBounds 5 25, .ofBounds 56 75] := by
      decide +kernel
    have hnumbers : (Lexed.ofSource
          "use <99999999999999999999>; number a := (007); says a + 9223372036854775808;"
        ).program.toOption.map (fun p => (Stmt.partsAll p.body).map Stmt.number?) =
          some [some (⟨"a", .ofBounds 35 36⟩, 7, .ofBounds 40 45, .ofBounds 28 46), none] := by
      decide +kernel
    simp only [Option.isSome_iff_exists, Except.toOption_eq_some_iff] at hrun
    obtain ⟨code, hcompile⟩ := hrun
    obtain ⟨p, c, q, hp, -, -, hcode, hmain, -, hnumerals, hremarks, -, -, hlines⟩ :=
      (integer_literals_exact _).1 code hcompile
    refine ⟨code, q, hcompile, hcode, hmain, ?_, ?_, ?_⟩
    · rw [← htokens, List.forall₂_map_left_iff]
      exact hnumerals
    · rw [hremarks, List.map_map]
      exact hspans
    · rw [hp] at hnumbers
      have hmem := List.mem_of_mem_head? (congrArg List.head? (Option.some.inj hnumbers))
      obtain ⟨s, hs, hnumber⟩ := List.mem_map.mp hmem
      obtain ⟨-, -, hline⟩ := hlines _ _ _ _ (Stmt.eq_of_number? hnumber ▸ hs)
      exact hline
  · have hnumbers : (Lexed.ofSource "number x := 2147483648;").program.toOption.map
        (fun p => p.body.map Stmt.number?) =
          some [some (⟨"x", .ofBounds 7 8⟩, 2147483648, .ofBounds 12 22, .ofBounds 0 23)] := by
      decide +kernel
    simp only [Option.map_eq_some_iff, Except.toOption_eq_some_iff, List.map_eq_singleton_iff]
      at hnumbers
    obtain ⟨p, hp, s, hbody, hnumber⟩ := hnumbers
    have hflat : p.flat = [.declare .number ⟨"x", .ofBounds 7 8⟩
        (.literal (.int 2147483648) (.ofBounds 12 22) ()) (.ofBounds 0 23)] := by
      rw [Program.flat, hbody, Stmt.eq_of_number? hnumber]
      rfl
    obtain ⟨t, ht, hcheck⟩ := (integer_literals_exact _).2 p hp [] [] .empty _ _ _ _ hflat rfl rfl
    have hrange : 2 ^ 31 ≤ t.number ∧ t.number < 2 ^ 63 := by
      have hvalue := ht.value
      unfold Token.keptNumber at hvalue
      split_ifs at hvalue <;> omega
    rw [if_pos hrange] at hcheck
    exact ⟨p, hp, hcheck⟩

end HumanScript
