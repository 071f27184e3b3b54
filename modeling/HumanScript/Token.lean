import HumanScript.Span
import HumanScript.Ty
import HumanScript.Text.Quoted
import HumanScript.Binary64.Text

/-! Tokens: the words, literals and marks that a program is spelled with. -/
namespace HumanScript

/-- A value written out in a program. -/
inductive Literal where
  | int (value : Int)
  | float (value : Binary64)
  | string (value : String)
  | bool (value : Bool)
deriving DecidableEq

namespace Literal

def ty : Literal → Ty
  | int _ => .lnumber
  | float _ => .riel
  | string _ => .text
  | bool _ => .logic

/-- The kind of literal with its value in parentheses. -/
def describe : Literal → String
  | int value => "Int(" ++ toString value ++ ")"
  | float value => "Float(" ++ value.render ++ ")"
  | string value => "String(" ++ Text.quotedString value ++ ")"
  | bool value => "Bool(" ++ toString value ++ ")"

end Literal

namespace Token

inductive Kind where
  | numberKw | lnumberKw | textKw | logicKw | rielKw
  | sayKw | trueKw | falseKw | useKw | ifKw | elseKw
  | identifier | int | float | string
  | colonEq | questionEq | plus | semicolon
  | lparen | rparen | lbrace | rbrace | less | greater | dot | slash
  /-- The end of the text. -/
  | eof
  /-- A character that starts no token. -/
  | unknown
deriving DecidableEq, Repr

namespace Kind

def name : Kind → String
  | numberKw => "Number"
  | lnumberKw => "LNumber"
  | textKw => "Text"
  | logicKw => "Logic"
  | rielKw => "Riel"
  | sayKw => "Says"
  | trueKw => "True"
  | falseKw => "False"
  | useKw => "Use"
  | ifKw => "If"
  | elseKw => "Else"
  | identifier => "Identifier"
  | int => "Int"
  | float => "Float"
  | string => "String"
  | colonEq => "ColonEq"
  | questionEq => "QuestionEq"
  | plus => "Plus"
  | semicolon => "Semicolon"
  | lparen => "LParen"
  | rparen => "RParen"
  | lbrace => "LBrace"
  | rbrace => "RBrace"
  | less => "Less"
  | greater => "Greater"
  | dot => "Dot"
  | slash => "Slash"
  | eof => "Eof"
  | unknown => "Unknown"

def all : List Kind :=
  [numberKw, lnumberKw, textKw, logicKw, rielKw, sayKw, trueKw, falseKw, useKw, ifKw, elseKw,
   identifier, int, float, string, colonEq, questionEq, plus, semicolon, lparen, rparen, lbrace,
   rbrace, less, greater, dot, slash, eof, unknown]

/-- The reserved words. -/
def keywords : List (String × Kind) :=
  [("number", numberKw), ("lnumber", lnumberKw), ("text", textKw), ("logic", logicKw),
   ("riel", rielKw), ("says", sayKw), ("true", trueKw), ("false", falseKw), ("use", useKw),
   ("if", ifKw), ("else", elseKw)]

def ofKeyword? (word : String) : Option Kind := keywords.lookup word

/-- The type that a type word names. -/
def ty? : Kind → Option Ty
  | numberKw => some .number
  | lnumberKw => some .lnumber
  | textKw => some .text
  | logicKw => some .logic
  | rielKw => some .riel
  | _ => none

/-- The operator that a mark stands for. -/
def binaryOp? : Kind → Option BinaryOp
  | plus => some .add
  | questionEq => some .eq
  | _ => none

def startsStatement (k : Kind) : Bool :=
  k.ty?.isSome || k = sayKw || k = ifKw || k = lbrace

end Kind
end Token

/-- A token with its spelling, the value of a literal, and its place. Spelling and value are those of
the whole token, also where it is longer than `maxSpanLength` and the place is cut off: the text at
the place is then only the start of the spelling. -/
structure Token where
  kind : Token.Kind
  text : String
  value : Option Literal
  span : Span
deriving DecidableEq

/-- Kind, place and value, for inspection. -/
def Token.describe (t : Token) : String :=
  let value := match t.value with
    | some v => ", " ++ v.describe
    | none => ""
  "Token(" ++ t.kind.name ++ ", " ++ t.span.render ++ value ++ ")"

/-- The token that marks the end of a text of `size` bytes. -/
def Token.eof (size : Nat) : Token := ⟨.eof, "", none, .ofBounds size size⟩

end HumanScript
