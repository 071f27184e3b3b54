import HumanScript.Text.DefaultIgnorable
import HumanScript.Text.ExtendingMark
import HumanScript.Text.Unprintable

/-! Texts between quotes, with what cannot be shown written as escapes. -/
namespace HumanScript.Text

/-- Whether a code point lies in one of the closed ranges. -/
def inRanges (ranges : List (Nat × Nat)) (n : Nat) : Bool :=
  ranges.any fun (lo, hi) => lo ≤ n && n ≤ hi

/-- Whether a character stands for itself between quotes: it has a visible form, and is no mark that
attaches to the character before it. -/
def isPlain (c : Char) : Bool :=
  if c.toNat < 0x7F then 0x20 ≤ c.toNat
  else !inRanges extendingMarks c.toNat && !inRanges unprintable c.toNat &&
    !inRanges defaultIgnorable c.toNat

/-- A character by its code point, as in `\u{1f600}`. -/
def codePointEscape (c : Char) : List Char :=
  '\\' :: 'u' :: '\x7b' :: Nat.toDigits 16 c.toNat ++ ['\x7d']

/-- A character as written between two `quote`s. The other kind of quote needs no escape. -/
def escape (quote c : Char) : List Char :=
  if c = '\x00' then ['\\', '0']
  else if c = '\t' then ['\\', 't']
  else if c = '\r' then ['\\', 'r']
  else if c = '\n' then ['\\', 'n']
  else if c = '\\' ∨ c = quote then ['\\', c]
  else if isPlain c then [c]
  else codePointEscape c

def quotedChar (c : Char) : String := String.ofList ('\'' :: escape '\'' c ++ ['\''])

def quotedString (s : String) : String :=
  String.ofList ('"' :: s.toList.flatMap (escape '"') ++ ['"'])

end HumanScript.Text
