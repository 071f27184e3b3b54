import HumanScript.Lexeme

/-! A source text as tokens. -/
namespace HumanScript

namespace Lexeme

/-- Where a lexeme that starts at `lo` stops. -/
def stop (l : Lexeme) (lo : Nat) : Nat := lo + Text.byteLength l.text

def span (l : Lexeme) (lo : Nat) : Span := .ofBounds lo (l.stop lo)

def token (l : Lexeme) (lo : Nat) : Token := ⟨l.kind, String.ofList l.text, l.value, l.span lo⟩

def errors (l : Lexeme) (lo : Nat) : List (Spanned LexError) := l.error.toList.map (⟨l.span lo, ·⟩)

end Lexeme

/-- The tokens of a text, in order. The token that marks its end is kept apart, as an offset. -/
structure Lexed where
  tokens : List Token
  /-- Where reading stopped: the end of the text, or just after a character that starts no token. -/
  stop : Nat
  errors : List (Spanned LexError)
deriving DecidableEq

namespace Lexed

/-- All tokens, the last one of kind `eof`. -/
def all (l : Lexed) : List Token := l.tokens ++ [.eof l.stop]

/-- The range of the last token of `all`. -/
def stopSpan (l : Lexed) : Span := .ofBounds l.stop l.stop

/-- Reads token after token from byte `offset` on. Blanks are passed over, and so are comments,
which run from two slashes to the end of the line. An unknown character ends the reading. -/
def ofChars (offset : Nat) : List Char → Lexed
  | [] => ⟨[], offset, []⟩
  | '/' :: '/' :: cs =>
    let comment := cs.takeWhile (· ≠ '\n')
    ofChars (offset + 2 + Text.byteLength comment) (cs.dropWhile (· ≠ '\n'))
  | c :: cs =>
    if Lexeme.isBlank c then ofChars (offset + c.utf8Size) cs
    else
      let front := Lexeme.scan c cs
      let lexeme := front.1
      if lexeme.kind = .unknown then
        ⟨[lexeme.token offset], lexeme.stop offset, lexeme.errors offset⟩
      else
        let more := ofChars (lexeme.stop offset) front.2
        ⟨lexeme.token offset :: more.tokens, more.stop, lexeme.errors offset ++ more.errors⟩
termination_by cs => cs.length
decreasing_by
  · have := (List.dropWhile_sublist (l := cs) (· ≠ '\n')).length_le
    simp only [List.length_cons]
    omega
  · simp
  · exact Lexeme.length_scan_lt c cs

def ofSource (src : String) : Lexed := ofChars 0 src.toList

end Lexed
end HumanScript
