import HumanScript.Token
import HumanScript.Binary64.Decimal

/-! The first lexeme of a text: the longest token that starts there, its value, and what is wrong
with it. -/
namespace HumanScript

inductive LexError where
  | unexpectedChar (c : Char)
  | unclosedString
  | intOverflow
  | floatOverflow
deriving DecidableEq

namespace LexError

def message : LexError → String
  | unexpectedChar c => "unexpected character " ++ Text.quotedChar c
  | unclosedString => "unclosed string"
  | intOverflow => "integer literal out of range, using 0"
  | floatOverflow => "float literal out of range, using 0.0"

/-- An overflow leaves a usable token behind. -/
def isWarning : LexError → Bool
  | intOverflow | floatOverflow => true
  | _ => false

end LexError

/-- The front of a text, up to where the next lexeme starts. -/
structure Lexeme where
  kind : Token.Kind
  text : List Char
  value : Option Literal
  error : Option LexError
deriving DecidableEq

namespace Lexeme

def isBlank (c : Char) : Bool :=
  c = ' ' || c = '\t' || c = '\n' || c = '\x0c' || c = '\r'

def startsWord (c : Char) : Bool := c.isAlpha || c = '_'

def continuesWord (c : Char) : Bool := c.isAlphanum || c = '_'

/-- Marks of one character. A slash that starts a comment never gets here. -/
def mark? : Char → Option Token.Kind
  | '+' => some .plus
  | ';' => some .semicolon
  | '(' => some .lparen
  | ')' => some .rparen
  | '\x7b' => some .lbrace
  | '\x7d' => some .rbrace
  | '<' => some .less
  | '>' => some .greater
  | '.' => some .dot
  | '/' => some .slash
  | _ => none

/-- A keyword or a name. -/
def ofWord (word : List Char) : Lexeme :=
  match Token.Kind.ofKeyword? (String.ofList word) with
  | some .trueKw => ⟨.trueKw, word, some (.bool true), none⟩
  | some .falseKw => ⟨.falseKw, word, some (.bool false), none⟩
  | some kind => ⟨kind, word, none, none⟩
  | none => ⟨.identifier, word, none, none⟩

/-- The number that a row of decimal digits denotes. -/
def decimalValue (digits : List Char) : Nat :=
  digits.foldl (fun n d => 10 * n + (d.toNat - '0'.toNat)) 0

/-- Integers are kept to 63 bits; a larger one counts as zero. -/
def ofDigits (digits : List Char) : Lexeme :=
  let n := decimalValue digits
  { kind := .int
    text := digits
    value := some (.int (if n < Nat.pow 2 63 then n else 0))
    error := if n < Nat.pow 2 63 then none else some .intOverflow }

/-- A number with a fractional part; one that is too large counts as zero. -/
def ofFraction (whole places : List Char) : Lexeme :=
  let x := Binary64.ofDecimal? (decimalValue (whole ++ places)) places.length
  { kind := .float
    text := whole ++ '.' :: places
    value := some (.float (x.getD .zero))
    error := if x.isSome then none else some .floatOverflow }

/-- A number at the front: digits, and a point only if another digit follows it. -/
def scanNumber (cs : List Char) : Lexeme × List Char :=
  let whole := cs.takeWhile Char.isDigit
  match cs.dropWhile Char.isDigit with
  | '.' :: d :: rest =>
    if d.isDigit then
      (ofFraction whole ((d :: rest).takeWhile Char.isDigit), (d :: rest).dropWhile Char.isDigit)
    else (ofDigits whole, '.' :: d :: rest)
  | rest => (ofDigits whole, rest)

/-- The character that a backslash and `c` stand for. -/
def unescape (c : Char) : Char :=
  if c = 'n' then '\n' else if c = 't' then '\t' else c

/-- What follows an opening quote: the spelling up to the closing quote, the characters it stands
for, whether there is a closing quote, and the rest. -/
structure Body where
  text : List Char
  value : List Char
  closed : Bool
  rest : List Char

/-- A backslash takes the next character with it, so that it closes nothing. -/
def scanBody : List Char → Body
  | [] => ⟨[], [], false, []⟩
  | '"' :: cs => ⟨['"'], [], true, cs⟩
  | ['\\'] => ⟨['\\'], [], false, []⟩
  | '\\' :: c :: cs =>
    let b := scanBody cs
    ⟨'\\' :: c :: b.text, unescape c :: b.value, b.closed, b.rest⟩
  | c :: cs =>
    let b := scanBody cs
    ⟨c :: b.text, c :: b.value, b.closed, b.rest⟩

/-- A string whose opening quote has just been read. -/
def scanString (cs : List Char) : Lexeme × List Char :=
  let b := scanBody cs
  let error := if b.closed then none else some .unclosedString
  (⟨.string, '"' :: b.text, some (.string (String.ofList b.value)), error⟩, b.rest)

/-- The lexeme at the front of `c :: cs`, and what follows it. -/
def scan (c : Char) (cs : List Char) : Lexeme × List Char :=
  match mark? c with
  | some kind => (⟨kind, [c], none, none⟩, cs)
  | none =>
    if c = '"' then scanString cs
    else if startsWord c then (ofWord (c :: cs.takeWhile continuesWord), cs.dropWhile continuesWord)
    else if c.isDigit then scanNumber (c :: cs)
    else match c, cs with
      | ':', '=' :: rest => (⟨.colonEq, [':', '='], none, none⟩, rest)
      | '?', '=' :: rest => (⟨.questionEq, ['?', '='], none, none⟩, rest)
      | _, _ => (⟨.unknown, [c], none, some (.unexpectedChar c)⟩, cs)

@[simp] theorem text_ofWord (word : List Char) : (ofWord word).text = word := by
  unfold ofWord
  split <;> rfl

@[simp] theorem text_ofDigits (digits : List Char) : (ofDigits digits).text = digits := rfl

@[simp] theorem text_ofFraction (whole places : List Char) :
    (ofFraction whole places).text = whole ++ '.' :: places := rfl

theorem text_append_scanNumber (cs : List Char) :
    (scanNumber cs).1.text ++ (scanNumber cs).2 = cs := by
  have hcs := List.takeWhile_append_dropWhile (p := Char.isDigit) (l := cs)
  unfold scanNumber
  simp only
  split
  · rename_i d rest h
    rw [h] at hcs
    split
    · simp [List.append_assoc, List.takeWhile_append_dropWhile, hcs]
    · rw [text_ofDigits, hcs]
  · rw [text_ofDigits, hcs]

theorem text_append_scanBody (cs : List Char) : (scanBody cs).text ++ (scanBody cs).rest = cs := by
  fun_induction scanBody cs with
  | case1 | case2 | case3 => rfl
  | case4 c cs b ih => exact congrArg ('\\' :: c :: ·) ih
  | case5 c cs _ _ _ b ih => exact congrArg (c :: ·) ih

/-- Scanning splits the text: nothing is lost or made up. -/
theorem text_append_scan (c : Char) (cs : List Char) :
    (scan c cs).1.text ++ (scan c cs).2 = c :: cs := by
  unfold scan
  split
  · rfl
  · split
    · rename_i h
      simp [scanString, text_append_scanBody, h]
    · split
      · simp [List.takeWhile_append_dropWhile]
      · split
        · exact text_append_scanNumber _
        · split <;> rfl

theorem text_scan_ne_nil (c : Char) (cs : List Char) : (scan c cs).1.text ≠ [] := by
  unfold scan
  split
  · simp
  · split
    · simp [scanString]
    · split
      · simp
      · split
        · rename_i h
          unfold scanNumber
          simp only [List.takeWhile_cons, h, if_true]
          split
          · split <;> simp
          · simp
        · split <;> simp

/-- Every lexeme takes at least one character. -/
theorem length_scan_lt (c : Char) (cs : List Char) :
    (scan c cs).2.length < (c :: cs).length := by
  have h := congrArg List.length (text_append_scan c cs)
  have hpos := List.length_pos_iff.mpr (text_scan_ne_nil c cs)
  rw [List.length_append] at h
  omega

end Lexeme
end HumanScript
