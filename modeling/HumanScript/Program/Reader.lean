import HumanScript.Lexed
import HumanScript.Program.Basic

/-! Programs read from tokens. Reading stops at the first token that cannot go on, so a failure has
exactly one cause and one place. -/
namespace HumanScript

inductive ParseError where
  | unexpected (actual expected : Token.Kind)
  | unexpectedInExpr (actual : Token.Kind)
  | unexpectedStatement (actual : Token.Kind)
  | unexpectedTopLevel (actual : Token.Kind)
  | invalidImportPath (actual : Token.Kind)
  | emptyImportPath
  | unknownToken
deriving DecidableEq

namespace ParseError

def message : ParseError → String
  | unexpected actual expected => "expected token " ++ expected.name ++ ", but got " ++ actual.name
  | unexpectedInExpr actual => "unexpected token " ++ actual.name ++ " in expression"
  | unexpectedStatement actual => "unexpected token " ++ actual.name ++ " at start of statement"
  | unexpectedTopLevel actual => "unexpected token " ++ actual.name ++ " at top level"
  | invalidImportPath actual => "invalid token " ++ actual.name ++ " in import path"
  | emptyImportPath => "empty import path"
  | unknownToken => "unrecognized token"

end ParseError

/-- The complaint about a token. An unknown one is at fault itself, whatever was wanted. -/
def Token.blame (t : Token) (complaint : Token.Kind → ParseError) : Spanned ParseError :=
  ⟨t.span, if t.kind = .unknown then .unknownToken else complaint t.kind⟩

/-- The literal that a token stands for. -/
def Token.literal? (t : Token) : Option Literal :=
  match t.kind, t.value with
  | .int, some (.int n) => some (.int n)
  | .float, some (.float x) => some (.float x)
  | .string, some (.string s) => some (.string s)
  | .trueKw, some (.bool b) | .falseKw, some (.bool b) => some (.bool b)
  | _, _ => none

/-- How strongly an operator holds on to its left operand. -/
def BinaryOp.leftPower : BinaryOp → Nat
  | eq => 1
  | add => 3

/-- How strongly it holds on to its right operand: more, so that operators group to the left. -/
def BinaryOp.rightPower (op : BinaryOp) : Nat := op.leftPower + 1

/-- What was read from the front of some tokens, and the tokens left over, fewer than `bound`. -/
structure Read (α : Type) (bound : Nat) where
  value : α
  rest : List Token
  lt : rest.length < bound

abbrev Reading (α : Type) (bound : Nat) := Except (Spanned ParseError) (Read α bound)

namespace Reading
variable (stop : Span)

/-- Takes one token of the wanted kind. The tokens end at `stop`. -/
def expect (kind : Token.Kind) : (ts : List Token) → Reading Token ts.length
  | [] => .error ⟨stop, .unexpected .eof kind⟩
  | t :: ts =>
    if t.kind = kind then .ok ⟨t, ts, by simp⟩ else .error (t.blame (.unexpected · kind))

def ident (ts : List Token) : Reading Ident ts.length := do
  let ⟨t, rest, h⟩ ← expect stop .identifier ts
  return ⟨⟨t.text, t.span⟩, rest, h⟩

mutual

/-- An expression whose operators all hold at least as strongly as `power`. -/
def expr (power : Nat) (ts : List Token) : Reading (Expr Unit) ts.length := do
  let ⟨lhs, rest, h⟩ ← operand ts
  let ⟨e, rest, h'⟩ ← operators power lhs rest
  return ⟨e, rest, by omega⟩
termination_by 2 * ts.length + 1
decreasing_by all_goals omega

/-- A literal, a name, or an expression in parentheses. -/
def operand : (ts : List Token) → Reading (Expr Unit) ts.length
  | [] => .error ⟨stop, .unexpectedInExpr .eof⟩
  | t :: ts =>
    match t.literal? with
    | some value => .ok ⟨.literal value t.span (), ts, Nat.lt_add_one _⟩
    | none =>
      if t.kind = .identifier then .ok ⟨.name ⟨t.text, t.span⟩ t.span (), ts, Nat.lt_add_one _⟩
      else if t.kind = .lparen then do
        let ⟨e, rest, h⟩ ← expr 0 ts
        let ⟨close, rest, h'⟩ ← expect stop .rparen rest
        return ⟨e.withSpan (t.span.join close.span), rest,
          Nat.lt_add_one_of_lt (Nat.lt_trans h' h)⟩
      else .error (t.blame .unexpectedInExpr)
termination_by ts => 2 * ts.length
decreasing_by
  all_goals try simp only [List.length_cons] at *
  all_goals omega

/-- Extends `lhs` by the operators and operands that follow it. -/
def operators (power : Nat) (lhs : Expr Unit) :
    (ts : List Token) → Reading (Expr Unit) (ts.length + 1)
  | [] => .ok ⟨lhs, [], by simp⟩
  | t :: ts =>
    match t.kind.binaryOp? with
    | none => .ok ⟨lhs, t :: ts, by simp⟩
    | some op =>
      if op.leftPower < power then .ok ⟨lhs, t :: ts, by simp⟩
      else do
        let ⟨rhs, rest, h⟩ ← expr op.rightPower ts
        let ⟨e, rest, h'⟩ ← operators power (.binary op lhs rhs (lhs.span.join rhs.span) ()) rest
        return ⟨e, rest, by simp only [List.length_cons]; omega⟩
termination_by ts => 2 * ts.length
decreasing_by
  all_goals try simp only [List.length_cons] at *
  all_goals omega

end

mutual

def stmt : (ts : List Token) → Reading (Stmt Unit) ts.length
  | [] => .error ⟨stop, .unexpectedStatement .eof⟩
  | t :: ts =>
    match t.kind.ty? with
    | some ty => do
      let ⟨name, rest, h₁⟩ ← ident stop ts
      let ⟨_, rest, h₂⟩ ← expect stop .colonEq rest
      let ⟨init, rest, h₃⟩ ← expr stop 0 rest
      let ⟨last, rest, h₄⟩ ← expect stop .semicolon rest
      return ⟨.declare ty name init (t.span.join last.span), rest,
        by simp only [List.length_cons]; omega⟩
    | none =>
      if t.kind = .sayKw then do
        let ⟨value, rest, h₁⟩ ← expr stop 0 ts
        let ⟨last, rest, h₂⟩ ← expect stop .semicolon rest
        return ⟨.print value (t.span.join last.span), rest, by simp only [List.length_cons]; omega⟩
      else if t.kind = .ifKw then do
        let ⟨_, rest, h₁⟩ ← expect stop .lparen ts
        let ⟨condition, rest, h₂⟩ ← expr stop 0 rest
        let ⟨_, rest, h₃⟩ ← expect stop .rparen rest
        let ⟨thenArm, rest, h₄⟩ ← stmt rest
        let ⟨elseArm, rest, h₅⟩ ← otherwise rest
        let s := match elseArm with
          | some arm => .ifElse condition thenArm arm (t.span.join arm.span)
          | none => .ifThen condition thenArm (t.span.join thenArm.span)
        return ⟨s, rest, by simp only [List.length_cons]; omega⟩
      else if t.kind = .lbrace then do
        let ⟨body, rest, h₁⟩ ← stmts ts
        let ⟨last, rest, h₂⟩ ← expect stop .rbrace rest
        return ⟨.block body (t.span.join last.span), rest, by simp only [List.length_cons]; omega⟩
      else .error (t.blame .unexpectedStatement)
termination_by ts => 2 * ts.length
decreasing_by
  all_goals try simp only [List.length_cons] at *
  all_goals omega

/-- The second arm of a conditional, if there is one. -/
def otherwise : (ts : List Token) → Reading (Option (Stmt Unit)) (ts.length + 1)
  | [] => .ok ⟨none, [], by simp⟩
  | t :: ts =>
    if t.kind = .elseKw then do
      let ⟨arm, rest, h⟩ ← stmt ts
      return ⟨some arm, rest, by simp only [List.length_cons]; omega⟩
    else .ok ⟨none, t :: ts, by simp⟩
termination_by ts => 2 * ts.length
decreasing_by
  all_goals try simp only [List.length_cons] at *
  all_goals omega

/-- The statements up to a closing brace or the end. -/
def stmts : (ts : List Token) → Reading (List (Stmt Unit)) (ts.length + 1)
  | [] => .ok ⟨[], [], by simp⟩
  | t :: ts =>
    if t.kind = .rbrace then .ok ⟨[], t :: ts, by simp⟩
    else do
      let ⟨s, rest, h⟩ ← stmt (t :: ts)
      let ⟨body, rest, h'⟩ ← stmts rest
      return ⟨s :: body, rest, by omega⟩
termination_by ts => 2 * ts.length + 1
decreasing_by
  all_goals try simp only [List.length_cons] at *
  all_goals omega

end

/-- The pieces of a header name, up to a closing mark or the end. -/
def path : (ts : List Token) → Reading (List String) (ts.length + 1)
  | [] => .ok ⟨[], [], by simp⟩
  | t :: ts =>
    if t.kind = .greater then .ok ⟨[], t :: ts, by simp⟩
    else if t.kind ∈ [.identifier, .int, .dot, .slash] then do
      let ⟨pieces, rest, h⟩ ← path ts
      return ⟨t.text :: pieces, rest, by simp only [List.length_cons]; omega⟩
    else .error (t.blame .invalidImportPath)

/-- Where the next token is. -/
def place : List Token → Span
  | [] => stop
  | t :: _ => t.span

def «import» (ts : List Token) : Reading Import ts.length := do
  let ⟨first, rest, h₁⟩ ← expect stop .useKw ts
  let ⟨_, rest, h₂⟩ ← expect stop .less rest
  let start := place stop rest
  let ⟨pieces, rest, h₃⟩ ← path rest
  if pieces.isEmpty then throw ⟨start, .emptyImportPath⟩
  let ⟨_, rest, h₄⟩ ← expect stop .greater rest
  let ⟨last, rest, h₅⟩ ← expect stop .semicolon rest
  return ⟨⟨String.join pieces, first.span.join last.span⟩, rest, by omega⟩

/-- The `use` lines at the front. -/
def imports : (ts : List Token) → Reading (List Import) (ts.length + 1)
  | [] => .ok ⟨[], [], by simp⟩
  | t :: ts =>
    if t.kind = .useKw then do
      let ⟨i, rest, h⟩ ← «import» stop (t :: ts)
      let ⟨more, rest, h'⟩ ← imports rest
      return ⟨i :: more, rest, by omega⟩
    else .ok ⟨[], t :: ts, by simp⟩
termination_by ts => ts.length
decreasing_by
  all_goals try simp only [List.length_cons] at *
  all_goals omega

/-- The statements of a whole program. -/
def body : List Token → Except (Spanned ParseError) (List (Stmt Unit))
  | [] => .ok []
  | t :: ts =>
    if t.kind.startsStatement then do
      let ⟨s, rest, _h⟩ ← stmt stop (t :: ts)
      let more ← body rest
      return s :: more
    else .error (t.blame .unexpectedTopLevel)
termination_by ts => ts.length
decreasing_by
  all_goals try simp only [List.length_cons] at *
  all_goals omega

end Reading

namespace Lexed

/-- The program that the tokens spell. -/
def program (l : Lexed) : Except (Spanned ParseError) (Program Unit) := do
  let ⟨imports, rest, _⟩ ← Reading.imports l.stopSpan l.tokens
  let body ← Reading.body l.stopSpan rest
  return ⟨imports, body⟩

/-- The expression that the tokens spell, if they spell one and nothing else. -/
def expr (l : Lexed) : Except (Spanned ParseError) (Expr Unit) := do
  let ⟨e, rest, _⟩ ← Reading.expr l.stopSpan 0 l.tokens
  match rest with
  | [] => return e
  | t :: _ => throw (t.blame (.unexpected · .eof))

end Lexed
end HumanScript
