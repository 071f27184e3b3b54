import HumanScript.Lexed
import Mathlib.Tactic.Common

/-! Tokenization as rules: what may stand between tokens, what tokens of each kind look like, and
that each of them is the longest that starts where it does. A text falls into tokens in exactly one
way by these rules, see `HumanScript.Proofs.MaximalMunch`. -/
namespace HumanScript

def Span.Before (a b : Span) : Prop := a.hi ≤ b.lo

instance : Trans Span.Before Span.Before Span.Before where
  trans {a b c} hab hbc := by
    simp only [Span.Before, Span.hi] at *
    omega

namespace Lexeme
open Token (Kind)

def blanks : List Char := [' ', '\t', '\n', '\x0c', '\r']

/-- A comment runs from two slashes to the end of the line. The second text is what follows. -/
inductive IsComment : List Char → List Char → Prop where
  | mk {body rest : List Char} (hbody : '\n' ∉ body) (hrest : ∀ c ∈ rest.head?, c = '\n') :
      IsComment ('/' :: '/' :: body) rest

/-- Blanks and comments, before the second text. -/
inductive Trivia : List Char → List Char → Prop where
  | nil {rest : List Char} : Trivia [] rest
  | blank {c : Char} {more rest : List Char} (hc : c ∈ blanks) (h : Trivia more rest) :
      Trivia (c :: more) rest
  | comment {text more rest : List Char} (htext : IsComment text (more ++ rest))
      (h : Trivia more rest) : Trivia (text ++ more) rest

/-- The inside of a string, and the characters it stands for. A quote stands there only behind a
backslash. -/
inductive Unescapes : List Char → List Char → Prop where
  | nil : Unescapes [] []
  | plain {c : Char} {text value : List Char} (hquote : c ≠ '"') (hslash : c ≠ '\\')
      (h : Unescapes text value) : Unescapes (c :: text) (c :: value)
  | newline {text value : List Char} (h : Unescapes text value) :
      Unescapes ('\\' :: 'n' :: text) ('\n' :: value)
  | tab {text value : List Char} (h : Unescapes text value) :
      Unescapes ('\\' :: 't' :: text) ('\t' :: value)
  | other {c : Char} {text value : List Char} (hn : c ≠ 'n') (ht : c ≠ 't')
      (h : Unescapes text value) : Unescapes ('\\' :: c :: text) (c :: value)

def IsDigits (text : List Char) : Prop := text ≠ [] ∧ ∀ d ∈ text, d.isDigit = true

def marks : List (List Char × Kind) :=
  [(['+'], .plus), ([';'], .semicolon), (['('], .lparen), ([')'], .rparen), (['\x7b'], .lbrace),
   (['\x7d'], .rbrace), (['<'], .less), (['>'], .greater), (['.'], .dot), (['/'], .slash),
   ([':', '='], .colonEq), (['?', '='], .questionEq)]

def keywordValue? (k : Kind) : Option Literal :=
  if k = .trueKw then some (.bool true) else if k = .falseKw then some (.bool false) else none

/-- How tokens are spelled: the text of one, the text after it, its kind and value. What follows
matters only to a string without a closing quote, which runs to the end. -/
inductive Spells : List Char → List Char → Kind → Option Literal → Prop where
  | keyword {word : String} {kind : Kind} {rest : List Char} (h : (word, kind) ∈ Kind.keywords) :
      Spells word.toList rest kind (keywordValue? kind)
  | name {c : Char} {more rest : List Char} (hc : startsWord c = true)
      (hmore : ∀ d ∈ more, continuesWord d = true)
      (hkey : ∀ kind, (String.ofList (c :: more), kind) ∉ Kind.keywords) :
      Spells (c :: more) rest .identifier none
  | int {digits rest : List Char} {n : Nat} (h : IsDigits digits) (hn : decimalValue digits = n) :
      Spells digits rest .int (some (.int (if n < Nat.pow 2 63 then n else 0)))
  | float {whole places rest : List Char} {x : Option Binary64} (hwhole : IsDigits whole)
      (hplaces : IsDigits places)
      (hx : Binary64.ofDecimal? (decimalValue (whole ++ places)) places.length = x) :
      Spells (whole ++ '.' :: places) rest .float (some (.float (x.getD .zero)))
  | string {text value rest : List Char} (h : Unescapes text value) :
      Spells ('"' :: (text ++ ['"'])) rest .string (some (.string (String.ofList value)))
  | openString {text value : List Char} (h : Unescapes text value) :
      Spells ('"' :: text) [] .string (some (.string (String.ofList value)))
  -- A backslash at the very end stands for nothing.
  | openEscape {text value : List Char} (h : Unescapes text value) :
      Spells ('"' :: (text ++ ['\\'])) [] .string (some (.string (String.ofList value)))
  | mark {text rest : List Char} {kind : Kind} (h : (text, kind) ∈ marks) :
      Spells text rest kind none

inductive IsPiece : List Char → List Char → Prop where
  | token {text rest : List Char} {kind : Kind} {value : Option Literal}
      (h : Spells text rest kind value) : IsPiece text rest
  | comment {text rest : List Char} (h : IsComment text rest) : IsPiece text rest
  | blank {c : Char} {rest : List Char} (hc : c ∈ blanks) : IsPiece [c] rest

/-- No longer front of the text could be taken instead. -/
def Longest (text rest : List Char) : Prop :=
  ∀ text' rest', text' ++ rest' = text ++ rest → IsPiece text' rest' →
    text'.length ≤ text.length

def StartsNothing (cs : List Char) : Prop := ∀ text rest, text ++ rest = cs → ¬ IsPiece text rest

end Lexeme

namespace Lexed
open Lexeme (Trivia Spells Longest StartsNothing)

/-- The tokens of a text from byte `lo` on. Reading ends at the end of the text, or just after a
character that starts nothing. -/
inductive Tokenizes : Nat → List Char → List Token → Prop where
  | done {lo : Nat} {gap : List Char} (hgap : Trivia gap []) :
      Tokenizes lo gap [.eof (lo + Text.byteLength gap)]
  | unknown {lo start : Nat} {gap rest : List Char} {c : Char} (hgap : Trivia gap (c :: rest))
      (hstart : start = lo + Text.byteLength gap) (hc : StartsNothing (c :: rest)) :
      Tokenizes lo (gap ++ c :: rest)
        [⟨.unknown, String.ofList [c], none, .ofBounds start (start + c.utf8Size)⟩,
          .eof (start + c.utf8Size)]
  | token {lo start stop : Nat} {gap text rest : List Char} {kind : Token.Kind}
      {value : Option Literal} {ts : List Token} (hgap : Trivia gap (text ++ rest))
      (hstart : start = lo + Text.byteLength gap) (hstop : stop = start + Text.byteLength text)
      (hspells : Spells text rest kind value) (hlongest : Longest text rest)
      (hrest : Tokenizes stop rest ts) :
      Tokenizes lo (gap ++ (text ++ rest))
        (⟨kind, String.ofList text, value, .ofBounds start stop⟩ :: ts)

/-- A token in the text it was read from: the longest one at its place, or an unknown character. -/
inductive StandsIn (src : List Char) : Token → Prop where
  | token {before text rest : List Char} {start : Nat} {kind : Token.Kind}
      {value : Option Literal} (hsrc : src = before ++ (text ++ rest))
      (hstart : start = Text.byteLength before) (hspells : Spells text rest kind value)
      (hlongest : Longest text rest) :
      StandsIn src
        ⟨kind, String.ofList text, value, .ofBounds start (start + Text.byteLength text)⟩
  | unknown {before rest : List Char} {start : Nat} {c : Char} (hsrc : src = before ++ c :: rest)
      (hstart : start = Text.byteLength before) (hc : StartsNothing (c :: rest)) :
      StandsIn src ⟨.unknown, String.ofList [c], none, .ofBounds start (start + c.utf8Size)⟩

def OnlyTrivia (src : List Char) (lo hi : Nat) : Prop :=
  ∃ before gap rest, src = before ++ (gap ++ rest) ∧ Text.byteLength before = lo ∧
    lo + Text.byteLength gap = hi ∧ Trivia gap rest

/-- Where reading stopped: at the end of the text, or just after the one unknown character. -/
inductive StopsAt (size : Nat) : List Token → Nat → Prop where
  | done {ts : List Token} (h : ∀ t ∈ ts, t.kind ≠ .unknown) : StopsAt size ts size
  | unknown {ts : List Token} {u : Token} (h : ∀ t ∈ ts, t.kind ≠ .unknown)
      (hu : u.kind = .unknown) : StopsAt size (ts ++ [u]) u.span.hi

structure Layout (src : List Char) (ts : List Token) : Prop where
  ordered : (ts.map Token.span).Pairwise Span.Before
  gaps : (.empty :: ts.map Token.span).IsChain fun a b => OnlyTrivia src a.hi b.lo
  ends : ∃ front stop, ts = front ++ [.eof stop] ∧ StopsAt (Text.byteLength src) front stop ∧
    ∀ t ∈ front, t.kind ≠ .eof ∧ 0 < t.span.len ∧ StandsIn src t

end Lexed
end HumanScript
