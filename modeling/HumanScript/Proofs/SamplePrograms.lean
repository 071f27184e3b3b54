import HumanScript.Sample
import HumanScript.Proofs.IntegerLiterals
import HumanScript.Proofs.SpacedText

/-! The sample programs compile, at every size. A group of statements is written out lexeme by
lexeme beside the trees that it spells; groups are typed one after the other, and none takes a name
of the next ones. -/
namespace HumanScript

namespace Lexeme
open Token (Kind)

theorem continuesWord_of_isDigit {c : Char} (h : c.isDigit = true) : continuesWord c = true := by
  simp [continuesWord, Char.isAlphanum, h]

/-- No keyword has a digit in it. -/
theorem ofKeyword?_numbered (c : Char) (i : Nat) :
    Kind.ofKeyword? (String.ofList (c :: Nat.toDigits 10 i)) = none := by
  have hkeywords : ∀ p ∈ Kind.keywords, p.1.toList.all (!·.isDigit) = true := by decide +kernel
  have hdigits := (isDecimal_toDigits i).isDigits
  obtain ⟨d, ds, hds⟩ := List.exists_cons_of_ne_nil hdigits.1
  have hd := hdigits.2 d (by simp [hds])
  refine Option.eq_none_iff_forall_ne_some.mpr fun k hk => ?_
  have hnone := hkeywords _ (Kind.ofKeyword?_eq_some_iff.mp hk)
  simp [hds, hd] at hnone

end Lexeme

namespace Sample
open Token (Kind)
open Lexeme (Spaced Unescapes Trivia sign quoted)
open Lexeme.Spaced (tight apart)

/-! A group as it is written. -/

/-- The name of a variable: a letter, and the number of its group. -/
def label (letter : Char) (i : Nat) : String := String.ofList (letter :: Nat.toDigits 10 i)

def nameLexeme (letter : Char) (i : Nat) : Lexeme :=
  ⟨.identifier, letter :: Nat.toDigits 10 i, none, none⟩

def numeral (n : Nat) : Lexeme := ⟨.int, Nat.toDigits 10 n, some (.int n), none⟩

def half : Lexeme := .ofFraction ['0'] ['5']

def item : Lexeme := quoted "item ".toList "item ".toList

/-- A string with the number of the group in quotes. -/
def isNumber (i : Nat) : Lexeme :=
  quoted (" is \\\"".toList ++ (Nat.toDigits 10 i ++ "\\\"".toList))
    (" is \"".toList ++ (Nat.toDigits 10 i ++ "\"".toList))

def ratio : Lexeme := quoted "ratio: ".toList "ratio: ".toList

def declaration (k : Kind) (word : String) (letter : Char) (i : Nat) (init : List Lexeme) :
    List Spaced :=
  tight (sign k word) :: apart (nameLexeme letter i) :: apart (sign .colonEq ":=") ::
    (init.map apart ++ [tight (sign .semicolon ";")])

/-- The statement after the declarations, with the comment before it. -/
def conditional (i : Nat) : List Spaced :=
  [⟨"// comment ".toList ++ (Nat.toDigits 10 i ++ ['\n']), sign .ifKw "if"⟩,
    apart (sign .lparen "("), tight (nameLexeme 'b' i), tight (sign .rparen ")"),
    apart (sign .sayKw "says"), apart (nameLexeme 't' i), tight (sign .semicolon ";"),
    ⟨['\n'], sign .elseKw "else"⟩, apart (sign .lbrace "\x7b"),
    ⟨"\n    ".toList, sign .sayKw "says"⟩, apart ratio, apart (sign .plus "+"),
    apart (nameLexeme 'r' i), tight (sign .semicolon ";"),
    ⟨"\n    ".toList, sign .ifKw "if"⟩, apart (sign .lparen "("), tight (nameLexeme 'n' i),
    apart (sign .questionEq "?="), apart (numeral i), tight (sign .rparen ")"),
    apart (sign .sayKw "says"), apart (nameLexeme 'b' i), tight (sign .semicolon ";"),
    ⟨['\n'], sign .rbrace "\x7d"⟩]

/-- A row for each statement of a group. -/
def rows (i : Nat) : List (List Spaced) :=
  [declaration .numberKw "number" 'n' i [numeral i],
    declaration .lnumberKw "lnumber" 'l' i
      [nameLexeme 'n' i, sign .plus "+", numeral 9000000000],
    declaration .rielKw "riel" 'r' i [nameLexeme 'l' i, sign .plus "+", half],
    declaration .textKw "text" 't' i
      [item, sign .plus "+", nameLexeme 'n' i, sign .plus "+", isNumber i],
    declaration .logicKw "logic" 'b' i
      [nameLexeme 'r' i, sign .questionEq "?=", nameLexeme 'l' i],
    conditional i]

-- The two sides are compared character by character.
set_option maxRecDepth 2000 in
theorem toList_group (i : Nat) :
    (group i).toList = (rows i).flatMap fun row => row.flatMap Spaced.text ++ ['\n'] := by
  have hbig : Nat.toDigits 10 9000000000 = "9000000000".toList := by decide +kernel
  have hdigits : (toString i).toList = Nat.toDigits 10 i := by simp
  unfold group
  dsimp only
  simp only [String.toList_append, hdigits]
  simp only [rows, declaration, conditional, Spaced.text, tight, apart, sign, nameLexeme, numeral,
    half, item, isNumber, ratio, quoted, hbig, Lexeme.text_ofFraction, String.reduceToList,
    List.flatMap_cons, List.flatMap_nil, List.map_cons, List.map_nil, List.nil_append,
    List.append_nil, List.cons_append, List.append_assoc]

/-! Its rows are read as they are written. -/

theorem whole_nameLexeme {letter : Char} (h : Lexeme.startsWord letter = true) (i : Nat) :
    (nameLexeme letter i).Whole := by
  refine Lexeme.whole_name h (List.all_eq_true.mpr fun d hd => ?_)
    (Lexeme.ofKeyword?_numbered letter i)
  exact Lexeme.continuesWord_of_isDigit ((isDecimal_toDigits i).isDigits.2 d hd)

theorem whole_numeral {n : Nat} (h : n < Nat.pow 2 63) : (numeral n).Whole := by
  have hn : Lexeme.ofDigits (Nat.toDigits 10 n) = numeral n := by
    simp only [Lexeme.ofDigits, decimalValue_toDigits, if_pos h, numeral]
  rw [← hn]
  refine ⟨.int (isDecimal_toDigits n).isDigits ?_ ?_, congrArg Lexeme.error hn⟩
  · simp [Lexeme.NotAhead]
  · simp [Lexeme.NoFraction]

theorem whole_half : half.Whole := by
  have hdigit {c : Char} (hc : c.isDigit = true) : Lexeme.IsDigits [c] :=
    ⟨by simp, by simpa using hc⟩
  refine ⟨.float (hdigit rfl) (hdigit rfl) (by simp [Lexeme.NotAhead]), ?_⟩
  decide +kernel

theorem whole_item : item.Whole :=
  Lexeme.whole_quoted (Lexeme.unescapes_plain "item ".toList (by decide) (by decide) .nil)

theorem whole_ratio : ratio.Whole :=
  Lexeme.whole_quoted (Lexeme.unescapes_plain "ratio: ".toList (by decide) (by decide) .nil)

theorem whole_isNumber (i : Nat) : (isNumber i).Whole := by
  have hclose : Unescapes "\\\"".toList "\"".toList := .other (by decide) (by decide) .nil
  have hdigits : Unescapes (Nat.toDigits 10 i ++ "\\\"".toList)
      (Nat.toDigits 10 i ++ "\"".toList) := by
    have hnone {c : Char} (hc : c.isDigit = false) : c ∉ Nat.toDigits 10 i := by
      intro hmem
      cases hc.symm.trans ((isDecimal_toDigits i).isDigits.2 c hmem)
    exact Lexeme.unescapes_plain _ (hnone rfl) (hnone rfl) hclose
  have hopen : Unescapes ('\\' :: '"' :: (Nat.toDigits 10 i ++ "\\\"".toList))
      ('"' :: (Nat.toDigits 10 i ++ "\"".toList)) := .other (by decide) (by decide) hdigits
  exact Lexeme.whole_quoted (Lexeme.unescapes_plain " is ".toList (by decide) (by decide) hopen)

theorem valid_comment {i : Nat} {l : Lexeme} :
    Spaced.Valid ⟨"// comment ".toList ++ (Nat.toDigits 10 i ++ ['\n']), l⟩ ↔ l.Whole := by
  have hbody : '\n' ∉ " comment ".toList ++ Nat.toDigits 10 i := by
    rw [List.mem_append]
    rintro (hmem | hmem)
    · revert hmem
      decide
    · cases (isDecimal_toDigits i).isDigits.2 _ hmem
  have hgap : ∀ rest, Trivia ("// comment ".toList ++ (Nat.toDigits 10 i ++ ['\n'])) rest := by
    intro rest
    rw [← List.append_assoc]
    exact .comment (.mk hbody (by simp)) (.blank (by decide) .nil)
  exact ⟨Spaced.Valid.whole, fun hl => ⟨hgap, hl⟩⟩

theorem valid_rows {i : Nat} (hi : i < Nat.pow 2 31) : ∀ row ∈ rows i, ∀ s ∈ row, s.Valid := by
  have hnumeral : (numeral i).Whole := whole_numeral (hi.trans (by decide))
  simp (disch := decide +kernel) only [rows, declaration, conditional, List.forall_mem_cons,
    List.forall_mem_append, List.map_cons, List.map_nil, List.not_mem_nil, Spaced.valid_tight,
    Spaced.valid_apart, Spaced.valid_blanks, valid_comment, Lexeme.whole_keyword,
    Lexeme.whole_mark, whole_nameLexeme, whole_numeral, whole_half, whole_item, whole_ratio,
    whole_isNumber, hnumeral, and_true, false_implies, implies_true]

theorem apart_rows (i : Nat) : ∀ row ∈ rows i, Spaced.Apart row := by
  simp [rows, declaration, conditional, Spaced.Apart, Spaced.text, tight, apart, sign, nameLexeme,
    numeral, half, item, isNumber, ratio, quoted, Kind.endsBefore, Lexeme.continuesWord,
    Lexeme.ofFraction]

/-! The trees of a group, with no places in them. -/

def nameExpr (letter : Char) (i : Nat) : Expr Unit := .name ⟨label letter i, .empty⟩ .empty ()

def literal (v : Literal) : Expr Unit := .literal v .empty ()

def binary (op : BinaryOp) (l r : Expr Unit) : Expr Unit := .binary op l r .empty ()

def declare (ty : Ty) (letter : Char) (i : Nat) (init : Expr Unit) : Stmt Unit :=
  .declare ty ⟨label letter i, .empty⟩ init .empty

def oneHalf : Literal :=
  .float ((Binary64.ofDecimal? (Lexeme.decimalValue ['0', '5']) 1).getD .zero)

def numberText (i : Nat) : String :=
  String.ofList (" is \"".toList ++ (Nat.toDigits 10 i ++ "\"".toList))

def elseBody (i : Nat) : List (Stmt Unit) :=
  [.print (binary .add (literal (.string "ratio: ")) (nameExpr 'r' i)) .empty,
    .ifThen (binary .eq (nameExpr 'n' i) (literal (.int i))) (.print (nameExpr 'b' i) .empty)
      .empty]

def conditionalTree (i : Nat) : Stmt Unit :=
  .ifElse (nameExpr 'b' i) (.print (nameExpr 't' i) .empty) (.block (elseBody i) .empty) .empty

def statements (i : Nat) : List (Stmt Unit) :=
  [declare .number 'n' i (literal (.int i)),
    declare .lnumber 'l' i (binary .add (nameExpr 'n' i) (literal (.int 9000000000))),
    declare .riel 'r' i (binary .add (nameExpr 'l' i) (literal oneHalf)),
    declare .text 't' i (binary .add (binary .add (literal (.string "item ")) (nameExpr 'n' i))
      (literal (.string (numberText i)))),
    declare .logic 'b' i (binary .eq (nameExpr 'r' i) (nameExpr 'l' i)),
    conditionalTree i]

section Spelling
open Grammar (PlacedExpr PlacedStmt PlacedImport)

theorem placed_name (letter : Char) (i : Nat) :
    PlacedExpr .factor [(nameLexeme letter i).bare] (nameExpr letter i) := .name rfl

theorem placed_literal {l : Lexeme} {v : Literal} (hkind : l.kind = v.kind)
    (hvalue : l.value = some v) : PlacedExpr .factor [l.bare] (literal v) := .literal hkind hvalue

theorem placed_declaration {k : Kind} {ty : Ty} {word : String} {letter : Char} {i : Nat}
    {init : List Lexeme} {e : Expr Unit} (hty : k.ty? = some ty)
    (hinit : PlacedExpr .comparison (init.map Lexeme.bare) e) :
    PlacedStmt (Spaced.tokens (declaration k word letter i init)) (declare ty letter i e) := by
  have hrow : Spaced.tokens (declaration k word letter i init) =
      (sign k word).bare :: (nameLexeme letter i).bare :: (sign .colonEq ":=").bare ::
        (init.map Lexeme.bare ++ [(sign .semicolon ";").bare]) := by
    simp [Spaced.tokens, declaration, tight, apart, Function.comp_def]
  rw [hrow]
  exact .declare hty rfl rfl hinit rfl

theorem placed_print {ts : List Token} {e : Expr Unit} (h : PlacedExpr .comparison ts e) :
    PlacedStmt ((sign .sayKw "says").bare :: (ts ++ [(sign .semicolon ";").bare]))
      (.print e .empty) := .print rfl h rfl

theorem placed_conditional (i : Nat) :
    PlacedStmt (Spaced.tokens (conditional i)) (conditionalTree i) := by
  have hname (letter : Char) : PlacedExpr .comparison [(nameLexeme letter i).bare]
      (nameExpr letter i) := .ofSum (.ofFactor (placed_name letter i))
  have hratio := placed_print (.ofSum (.add (t := (sign .plus "+").bare)
    (.ofFactor (placed_literal (l := ratio) rfl rfl)) rfl (placed_name 'r' i)))
  have hsame := PlacedStmt.ifThen (t := (sign .ifKw "if").bare) (o := (sign .lparen "(").bare)
    (c := (sign .rparen ")").bare) rfl rfl
    (.compare (t := (sign .questionEq "?=").bare) (hname 'n') rfl
      (.ofFactor (placed_literal (l := numeral i) rfl rfl))) rfl (placed_print (hname 'b'))
  have hblock := @PlacedStmt.block (sign .lbrace "\x7b").bare (sign .rbrace "\x7d").bare
    [(_, _), (_, _)] rfl
    (List.forall_mem_cons.mpr ⟨hratio, List.forall_mem_singleton.mpr hsame⟩) rfl
  exact .ifElse (t := (sign .ifKw "if").bare) (o := (sign .lparen "(").bare)
    (c := (sign .rparen ")").bare) (e := (sign .elseKw "else").bare) rfl rfl (hname 'b') rfl
    (placed_print (hname 't')) rfl hblock

theorem placed_rows (i : Nat) :
    List.Forall₂ PlacedStmt ((rows i).map Spaced.tokens) (statements i) := by
  have hplus : (sign .plus "+").bare.kind = .plus := rfl
  have hequal : (sign .questionEq "?=").bare.kind = .questionEq := rfl
  refine .cons (placed_declaration rfl ?_) <| .cons (placed_declaration rfl ?_) <|
    .cons (placed_declaration rfl ?_) <| .cons (placed_declaration rfl ?_) <|
    .cons (placed_declaration rfl ?_) <| .cons (placed_conditional i) .nil
  · exact .ofSum (.ofFactor (placed_literal rfl rfl))
  · exact .ofSum (.add (.ofFactor (placed_name 'n' i)) hplus (placed_literal rfl rfl))
  · exact .ofSum (.add (.ofFactor (placed_name 'l' i)) hplus (placed_literal rfl rfl))
  · exact .ofSum (.add (.add (.ofFactor (placed_literal rfl rfl)) hplus (placed_name 'n' i)) hplus
      (placed_literal rfl rfl))
  · exact .compare (.ofSum (.ofFactor (placed_name 'r' i))) hequal (.ofFactor (placed_name 'l' i))

theorem placed_groups (is : List Nat) :
    List.Forall₂ PlacedStmt ((is.flatMap rows).map Spaced.tokens) (is.flatMap statements) := by
  induction is with
  | nil => exact .nil
  | cons i is ih =>
    rw [List.flatMap_cons, List.map_append]
    exact List.rel_append (placed_rows i) ih

theorem elseNearest_statements (i : Nat) : ∀ s ∈ statements i, s.ElseNearest := by
  have hbody : ∀ s ∈ elseBody i, s.ElseNearest :=
    List.forall_mem_cons.mpr ⟨.print, List.forall_mem_singleton.mpr (.ifThen .print)⟩
  have hconditional : (conditionalTree i).ElseNearest := .ifElse rfl .print (.block hbody)
  simp only [statements, List.forall_mem_cons]
  exact ⟨.declare, .declare, .declare, .declare, .declare, hconditional, by simp⟩

/-! The whole program. -/

def importRow (word : String) : List Spaced :=
  [tight (sign .useKw "use"), apart (sign .less "<"), tight (sign .identifier word),
    tight (sign .greater ">"), tight (sign .semicolon ";")]

def importRows : List (List Spaced) := [importRow "iostream", importRow "string"]

/-- The program of `n` groups, with no places in it. -/
def tree (n : Nat) : Program Unit :=
  ⟨[⟨"iostream", .empty⟩, ⟨"string", .empty⟩], (List.range n).flatMap statements⟩

theorem toList_importRows : "use <iostream>;\nuse <string>;\n".toList =
    importRows.flatMap fun row => row.flatMap Spaced.text ++ ['\n'] := by
  decide +kernel

theorem toList_groups (is : List Nat) : (String.join (is.map group)).toList =
    (is.flatMap rows).flatMap fun row => row.flatMap Spaced.text ++ ['\n'] := by
  induction is with
  | nil => rfl
  | cons i is ih =>
    rw [List.map_cons, String.join_cons, String.toList_append, toList_group, ih, List.flatMap_cons,
      List.flatMap_append]

theorem toList_program (n : Nat) : (program n).toList =
    (importRows ++ (List.range n).flatMap rows).flatMap
      fun row => row.flatMap Spaced.text ++ ['\n'] := by
  unfold program
  rw [String.toList_append, toList_importRows, toList_groups, List.flatMap_append]

theorem valid_importRows : ∀ row ∈ importRows, ∀ s ∈ row, s.Valid := by
  have hiostream : (sign .identifier "iostream").Whole :=
    Lexeme.whole_name (by decide +kernel) (by decide +kernel) (by decide +kernel)
  have hstring : (sign .identifier "string").Whole :=
    Lexeme.whole_name (by decide +kernel) (by decide +kernel) (by decide +kernel)
  simp (disch := decide +kernel) only [importRows, importRow, List.forall_mem_cons,
    List.not_mem_nil, Spaced.valid_tight, Spaced.valid_apart, Lexeme.whole_keyword,
    Lexeme.whole_mark, hiostream, hstring, and_true, false_implies, implies_true]

theorem apart_importRows : ∀ row ∈ importRows, Spaced.Apart row := by
  simp [importRows, importRow, Spaced.Apart, Spaced.text, tight, apart, sign, Kind.endsBefore,
    Lexeme.continuesWord]

theorem placed_importRow (word : String) :
    PlacedImport (Spaced.tokens (importRow word)) ⟨word, .empty⟩ := by
  have himport := @PlacedImport.use (sign .useKw "use").bare (sign .less "<").bare
    (sign .greater ">").bare (sign .semicolon ";").bare [(sign .identifier word).bare] rfl rfl
    (by simp) (by simp [sign, Lexeme.bare, Grammar.pathKinds]) rfl rfl
  have hheader : String.join ([(sign .identifier word).bare].map Token.text) = word := by
    simp [sign, Lexeme.bare]
  rw [hheader] at himport
  exact himport

/-- The program is read as its tree, up to places, and nothing is wrong with its lexemes. -/
theorem exists_program {n : Nat} (hn : n ≤ Nat.pow 2 31) :
    (Lexed.ofSource (program n)).errors = [] ∧
      ∃ p, (Lexed.ofSource (program n)).program = .ok p ∧ p.Alike (fun _ _ => True) (tree n) := by
  have hvalid : ∀ row ∈ (List.range n).flatMap rows, ∀ s ∈ row, s.Valid := by
    intro row hrow
    obtain ⟨i, hi, hrow⟩ := List.mem_flatMap.mp hrow
    exact valid_rows (Nat.lt_of_lt_of_le (List.mem_range.mp hi) hn) row hrow
  have hapart : ∀ row ∈ (List.range n).flatMap rows, Spaced.Apart row := by
    intro row hrow
    obtain ⟨i, -, hrow⟩ := List.mem_flatMap.mp hrow
    exact apart_rows i row hrow
  have hreads := Spaced.reads_lines (List.forall_mem_append.mpr ⟨valid_importRows, hvalid⟩)
    (List.forall_mem_append.mpr ⟨apart_importRows, hapart⟩)
  rw [← toList_program] at hreads
  have himports : List.Forall₂ PlacedImport (importRows.map Spaced.tokens) (tree n).imports :=
    .cons (placed_importRow "iostream") (.cons (placed_importRow "string") .nil)
  have hplaced := Grammar.placedProgram_of_forall₂ himports (placed_groups (List.range n))
  rw [← List.flatten_append, ← List.map_append, ← Spaced.map_bare_rows] at hplaced
  have hnear : (tree n).ElseNearest := by
    intro s hs
    obtain ⟨i, -, hs⟩ := List.mem_flatMap.mp hs
    exact elseNearest_statements i s hs
  exact ⟨hreads.errors 0, hreads.exists_program hplaced hnear⟩

end Spelling

/-! A group is typed where its own names are new. -/

theorem label_inj {a b : Char} {i j : Nat} : label a i = label b j ↔ a = b ∧ i = j := by
  constructor
  · intro h
    have hlists := congrArg String.toList h
    simp only [label, String.toList_ofList, List.cons.injEq] at hlists
    obtain ⟨hletter, hdigits⟩ := hlists
    have hvalue := congrArg Lexeme.decimalValue hdigits
    rw [decimalValue_toDigits, decimalValue_toDigits] at hvalue
    exact ⟨hletter, hvalue⟩
  · rintro ⟨rfl, rfl⟩
    rfl

/-- The names of the groups from the `i`-th on are new. -/
def Unused (Γ : Context) (i : Nat) : Prop := ∀ letter, ∀ j ≥ i, Γ (label letter j) = none

/-- The context after the `i`-th group. -/
def extend (Γ : Context) (i : Nat) : Context :=
  ((((Γ.declare (label 'n' i) .number).declare (label 'l' i) .lnumber).declare
    (label 'r' i) .riel).declare (label 't' i) .text).declare (label 'b' i) .logic

theorem Unused.extend {Γ : Context} {i : Nat} (h : Unused Γ i) : Unused (extend Γ i) (i + 1) := by
  intro letter j hj
  have hne : j ≠ i := by omega
  simp [Sample.extend, Context.declare, label_inj, hne, h letter j (by omega)]

theorem typing_conditional (Γ : Context) (i : Nat) :
    ∃ s, StmtTyping (extend Γ i) (conditionalTree i) s (extend Γ i) ∧ s.finished.length = 6 := by
  have hname (letter : Char) (ty : Ty) (hty : extend Γ i (label letter i) = some ty) :
      ExprTyping (extend Γ i) (nameExpr letter i) (.name ⟨label letter i, .empty⟩ .empty ty) :=
    .name hty
  have hn := hname 'n' .number (by simp [extend, Context.declare, label_inj])
  have hr := hname 'r' .riel (by simp [extend, Context.declare, label_inj])
  have ht := hname 't' .text (by simp [extend, Context.declare, label_inj])
  have hb := hname 'b' .logic (by simp [extend, Context.declare])
  have hbody : BodyTyping (extend Γ i) (elseBody i) _ (extend Γ i) :=
    .cons (.print (.binary .string hr rfl) rfl)
      (.cons (.ifThen (.binary hn .int rfl) rfl (.print hb rfl)) .nil)
  exact ⟨_, .ifElse hb rfl (.print ht rfl) (.block hbody), rfl⟩

theorem typing_statements {Γ : Context} {i : Nat} (h : Unused Γ i) (hi : i < Nat.pow 2 31) :
    ∃ body, BodyTyping Γ (statements i) body (extend Γ i) ∧
      (Stmt.finishedAll body).length = 11 := by
  have hnew (letter : Char) : Γ (label letter i) = none := h letter i (Nat.le_refl i)
  have hname {Δ : Context} (letter : Char) (ty : Ty) (hty : Δ (label letter i) = some ty) :
      ExprTyping Δ (nameExpr letter i) (.name ⟨label letter i, .empty⟩ .empty ty) := .name hty
  have hsmall : SmallLiteral (literal (.int i)) := by
    have h31 : Nat.pow 2 31 = 2147483648 := rfl
    exact .mk (by omega) (by omega)
  obtain ⟨last, hlast, hlength⟩ := typing_conditional Γ i
  -- What is left is to look names up among the ones declared so far.
  refine ⟨_, .cons (.declare (hnew 'n') .int (.inr ⟨rfl, hsmall⟩)) <|
    .cons (.declare ?_ (.binary (hname 'n' .number ?_) .int rfl) (.inl rfl)) <|
    .cons (.declare ?_ (.binary (hname 'l' .lnumber ?_) .float rfl) (.inl rfl)) <|
    .cons (.declare ?_ (.binary (.binary .string (hname 'n' .number ?_) rfl) .string rfl)
      (.inl rfl)) <|
    .cons (.declare ?_ (.binary (hname 'r' .riel ?_) (hname 'l' .lnumber ?_) rfl) (.inl rfl)) <|
    .cons hlast .nil, ?_⟩
  case refine_10 => simp [Stmt.finishedAll, Stmt.finished, hlength]
  all_goals simp [Context.declare, label_inj, hnew]

theorem typing_groups {n : Nat} (hn : n ≤ Nat.pow 2 31) :
    ∃ body Δ, BodyTyping .empty ((List.range n).flatMap statements) body Δ ∧
      (Stmt.finishedAll body).length = 11 * n ∧ Unused Δ n := by
  induction n with
  | zero => exact ⟨[], .empty, .nil, rfl, fun _ _ _ => rfl⟩
  | succ n ih =>
    obtain ⟨body, Δ, htyping, hlength, hunused⟩ := ih (Nat.le_of_succ_le hn)
    obtain ⟨last, hlast, heleven⟩ := typing_statements hunused hn
    refine ⟨body ++ last, extend Δ n, ?_, ?_, hunused.extend⟩
    · rw [List.range_succ, List.flatMap_append, List.flatMap_singleton]
      exact htyping.append hlast
    · rw [Stmt.finishedAll_append, List.length_append, hlength, heleven, Nat.mul_succ]

/-! What checking the program writes down. -/

/-- The variables of a group and their types. -/
def declared (i : Nat) : List (String × Ty) :=
  [("n" ++ toString i, .number), ("l" ++ toString i, .lnumber), ("r" ++ toString i, .riel),
    ("t" ++ toString i, .text), ("b" ++ toString i, .logic)]

theorem declarations_statements (i : Nat) :
    ((Stmt.partsAll (statements i)).filterMap Stmt.declaration?).map (fun e => (e.1, e.2.ty)) =
      declared i := by
  have hlabel (letter : Char) : label letter i = String.singleton letter ++ toString i := by
    rw [← String.toList_inj]
    simp [label]
  have hlist : (Stmt.partsAll (statements i)).filterMap Stmt.declaration? =
      [(label 'n' i, ⟨.number, .empty⟩), (label 'l' i, ⟨.lnumber, .empty⟩),
        (label 'r' i, ⟨.riel, .empty⟩), (label 't' i, ⟨.text, .empty⟩),
        (label 'b' i, ⟨.logic, .empty⟩)] := rfl
  rw [hlist]
  simp only [hlabel, List.map_cons, List.map_nil]
  rfl

theorem declarations_tree (n : Nat) :
    (tree n).declarations.map (fun e => (e.1, e.2.ty)) = (List.range n).flatMap declared := by
  unfold Program.declarations tree
  induction List.range n with
  | nil => rfl
  | cons i is ih =>
    rw [List.flatMap_cons, Stmt.partsAll_eq, List.flatMap_append, List.filterMap_append,
      List.map_append, ← Stmt.partsAll_eq, ← Stmt.partsAll_eq, declarations_statements, ih,
      List.flatMap_cons]

theorem length_groups {α : Type} {f : Nat → List α} {k : Nat} (hf : ∀ i, (f i).length = k)
    (n : Nat) : ((List.range n).flatMap f).length = k * n := by
  simp [List.length_flatMap, hf, Nat.mul_comm]

theorem exists_check_tree {n : Nat} (hn : n ≤ Nat.pow 2 31) :
    ∃ d, (tree n).check = .ok d ∧ d.notes.length = 2 + 11 * n ∧
      d.symbols.entries.map (fun e => (e.1, e.2.ty)) =
        ((List.range n).flatMap declared).reverse := by
  obtain ⟨body, Δ, htyping, hlength, -⟩ := typing_groups hn
  obtain ⟨d, hd, hvalue⟩ := Program.check_iff.mpr (ProgramTyping.mk htyping)
  have hrecords := Program.check_records hd
  refine ⟨d, hd, ?_, ?_⟩
  · rw [hrecords.notes, hvalue, Program.notes, List.length_append, List.length_map,
      List.length_map, hlength]
    rfl
  · rw [hrecords.entries, ← declarations_tree, List.map_append, List.map_reverse]
    exact List.append_nil _

/-- A sample of any number of groups whose numbers fit the type `number` compiles. The table of
variables has the five names of each group, with their types, and no other; and the remarks are one
note for each import and each statement at any depth, with none about the lexemes. -/
theorem sample_programs_compile (n : Nat) (hn : n ≤ Nat.pow 2 31) :
    ∃ code c, (compile (program n)).result = .ok code ∧ (check (program n)).result = .ok c ∧
      c.symbols.size = 5 * n ∧
      (∀ name ty, (∃ symbol, c.symbols.get? name = some symbol ∧ symbol.ty = ty) ↔
        ∃ i < n, (name, ty) ∈ declared i) ∧
      c.value.imports.length = 2 ∧ c.value.body.length = 6 * n ∧
      (compile (program n)).diagnostics.length = 2 + 11 * n ∧
      (∀ d ∈ (compile (program n)).diagnostics, d.severity = .info ∧ d.stage = .checker) ∧
      lexerDiagnostics (program n) = [] := by
  obtain ⟨herrors, p, hp, halike⟩ := exists_program hn
  obtain ⟨d, hd, hnotes, hentries⟩ := exists_check_tree hn
  obtain ⟨c, hc, hcd⟩ := Except.Rel.exists_ok (hd ▸ halike.check)
  have hparse : (parse (program n)).result = .ok p := by
    rw [parse_result, hp]
    rfl
  have hcheck : (check (program n)).result = .ok c := check_eq_ok_iff.mpr ⟨p, hparse, hc⟩
  obtain ⟨Δ, qs, -, -, hcpp⟩ := Program.exists_toCpp_of_check hc
  have htyping : ProgramTyping p c.value := Program.check_iff.mp ⟨c, hc, rfl⟩
  have hrecords := Program.check_records hc
  have hsilent : lexerDiagnostics (program n) = [] := by
    rw [lexerDiagnostics, herrors]
    rfl
  have hdiagnostics : (compile (program n)).diagnostics = c.notes.map .ofNote := by
    rw [compile_diagnostics, check_diagnostics, hcheck, hsilent]
    rfl
  have htypes : c.symbols.entries.map (fun e => (e.1, e.2.ty)) =
      ((List.range n).flatMap declared).reverse := hcd.symbols.types.trans hentries
  refine ⟨_, c, compile_eq_ok_iff.mpr ⟨c, _, hcheck, hcpp, rfl⟩, hcheck, ?_, ?_, ?_, ?_, ?_, ?_,
    hsilent⟩
  · have hfive : ∀ i, (declared i).length = 5 := fun _ => rfl
    have hlength := congrArg List.length htypes
    rwa [List.length_map, List.length_reverse, length_groups hfive] at hlength
  · intro name ty
    have hdistinct : c.symbols.Distinct := hrecords.distinct List.nodup_nil
    have hmem : (∃ symbol, c.symbols.get? name = some symbol ∧ symbol.ty = ty) ↔
        (name, ty) ∈ c.symbols.entries.map fun e => (e.1, e.2.ty) := by
      simp [hdistinct.get?_eq_some_iff]
    rw [hmem, htypes, List.mem_reverse, List.mem_flatMap]
    simp only [List.mem_range]
  · rw [htyping.imports_eq, halike.imports.length_eq]
    rfl
  · have hsix : ∀ i, (statements i).length = 6 := fun _ => rfl
    have hlength := congrArg (fun q => q.body.length) htyping.untyped
    simp only [Program.untyped, Program.map, List.length_map] at hlength
    rw [hlength, halike.body.length_eq, tree, length_groups hsix]
  · rw [hdiagnostics, List.length_map, hcd.notes.length_eq, hnotes]
  · rw [hdiagnostics]
    intro d hd
    obtain ⟨note, -, rfl⟩ := List.mem_map.mp hd
    exact ⟨rfl, rfl⟩

theorem sample_programs_compile_two :
    2 ≤ Nat.pow 2 31 ∧ ∃ code c, (compile (program 2)).result = .ok code ∧
      (check (program 2)).result = .ok c ∧ c.symbols.size = 10 ∧
      (∃ symbol, c.symbols.get? "t1" = some symbol ∧ symbol.ty = .text) ∧
      (compile (program 2)).diagnostics.length = 24 := by
  have hsize : 2 ≤ Nat.pow 2 31 := by decide
  obtain ⟨code, c, hcode, hc, hsymbols, hnames, -, -, hnotes, -⟩ := sample_programs_compile 2 hsize
  refine ⟨hsize, code, c, hcode, hc, hsymbols, (hnames _ _).mpr ⟨1, by decide, ?_⟩, hnotes⟩
  decide +kernel

end Sample
end HumanScript
