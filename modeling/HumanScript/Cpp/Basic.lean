import HumanScript.Ty
import HumanScript.Text.Lines
import HumanScript.Binary64.Text

/-! The part of C++ that compiled programs are written in, and its spelling. -/
namespace HumanScript.Cpp

inductive CType where
  | int
  | longLong
  | string
  | bool
  | double
  | void
deriving DecidableEq

def CType.render : CType → String
  | int => "int"
  | longLong => "long long"
  | string => "std::string"
  | bool => "bool"
  | double => "double"
  | void => "void"

inductive Expr where
  | int (value : Int)
  | double (value : Binary64)
  | string (value : String)
  | bool (value : Bool)
  | name (x : String)
  /-- A string made from a string literal or a choice of them. -/
  | stringOf (value : Expr)
  /-- A string made from a number. -/
  | toString (value : Expr)
  | choice (condition whenTrue whenFalse : Expr)
  | binary (op : BinaryOp) (lhs rhs : Expr)
deriving DecidableEq

/-- A character of a string literal. NUL takes three octal digits, so that no digit after it is
taken into the escape. -/
def escape (c : Char) : List Char :=
  if c = '"' then ['\\', '"']
  else if c = '\\' then ['\\', '\\']
  else if c = '\n' then ['\\', 'n']
  else if c = '\r' then ['\\', 'r']
  else if c = '\t' then ['\\', 't']
  else if c = '\x00' then ['\\', '0', '0', '0']
  else [c]

def stringLiteral (s : String) : String :=
  String.ofList ('"' :: s.toList.flatMap escape ++ ['"'])

/-- A number that has neither point nor exponent gets a point, to be read as a `double`. -/
def doubleLiteral (x : Binary64) : String :=
  let text := x.render
  if text.toList.any fun c => c = '.' || c = 'e' || c = 'E' then text else text ++ ".0"

def operator : BinaryOp → String
  | .add => "+"
  | .eq => "=="

namespace Expr

/-- Integers are tagged, so that large ones keep their value. Operations stand in parentheses. -/
def render : Expr → String
  | int value => ToString.toString value ++ "LL"
  | double value => doubleLiteral value
  | string value => stringLiteral value
  | bool value => ToString.toString value
  | name x => x
  | stringOf value => "std::string(" ++ value.render ++ ")"
  | toString value => "std::to_string(" ++ value.render ++ ")"
  | choice condition whenTrue whenFalse =>
    condition.render ++ " ? " ++ whenTrue.render ++ " : " ++ whenFalse.render
  | binary op lhs rhs => "(" ++ lhs.render ++ " " ++ operator op ++ " " ++ rhs.render ++ ")"

/-- In exactly one pair of parentheses. -/
def renderCondition : Expr → String
  | binary op lhs rhs => (binary op lhs rhs).render
  | e => "(" ++ e.render ++ ")"

end Expr

inductive Stmt where
  | declare (ty : CType) (name : String) (init : Expr)
  | print (value : Expr)
  | ifThen (condition : Expr) (thenArm : List Stmt)
  | ifElse (condition : Expr) (thenArm elseArm : List Stmt)
  | block (body : List Stmt)

/-- A line of code, four blanks further in at each level. -/
def line (depth : Nat) (text : String) : String := Text.indented (4 * depth) text

mutual

def Stmt.lines (depth : Nat) : Stmt → List String
  | .declare ty name init =>
    [line depth (ty.render ++ " " ++ name ++ " = " ++ init.render ++ ";")]
  | .print value => [line depth ("std::cout << " ++ value.render ++ " << std::endl;")]
  | .ifThen condition thenArm =>
    line depth ("if " ++ condition.renderCondition ++ " \x7b") ::
      Stmt.linesAll (depth + 1) thenArm ++ [line depth "\x7d"]
  | .ifElse condition thenArm elseArm =>
    line depth ("if " ++ condition.renderCondition ++ " \x7b") ::
      Stmt.linesAll (depth + 1) thenArm ++ line depth "\x7d else \x7b" ::
      Stmt.linesAll (depth + 1) elseArm ++ [line depth "\x7d"]
  | .block body => line depth "\x7b" :: Stmt.linesAll (depth + 1) body ++ [line depth "\x7d"]

def Stmt.linesAll (depth : Nat) : List Stmt → List String
  | [] => []
  | s :: body => s.lines depth ++ Stmt.linesAll depth body

end

end HumanScript.Cpp
