import HumanScript.Text.Lines
import HumanScript.Program.Basic

/-! Programs as indented outlines, one node a line with its place. -/
namespace HumanScript

namespace Outline

/-- A line of an outline, two blanks further in at each level. -/
def line (depth : Nat) (text : String) : String := Text.indented (2 * depth) text

/-- What is shown of an expression that has only been read. -/
def untyped (_ : Unit) : String := ""

/-- What is shown of an expression that has been checked. -/
def typed (t : Ty) : String := " %: " ++ t.name

end Outline

def Literal.outline : Literal → String
  | int value => "int " ++ toString value
  | float value => "float " ++ value.render
  | string value => "string " ++ Text.quotedString value
  | bool value => "bool " ++ toString value

def BinaryOp.name : BinaryOp → String
  | add => "Add"
  | eq => "Eq"

variable {α : Type} (mark : α → String)

def Expr.outline (depth : Nat) : Expr α → List String
  | literal value span info =>
    [Outline.line depth (value.outline ++ " (" ++ span.render ++ mark info ++ ")")]
  | name ident span info =>
    [Outline.line depth ("ident " ++ ident.name ++ " (" ++ span.render ++ mark info ++ ")")]
  | binary op lhs rhs span info =>
    Outline.line depth ("binary " ++ op.name ++ " (" ++ span.render ++ mark info ++ ")") ::
      lhs.outline (depth + 1) ++ rhs.outline (depth + 1)

mutual

def Stmt.outline (depth : Nat) : Stmt α → List String
  | .declare ty name init span =>
    Outline.line depth ("var " ++ name.name ++ ": " ++ ty.name ++ " (" ++ span.render ++ ")") ::
      init.outline mark (depth + 1)
  | .print value span =>
    Outline.line depth ("print (" ++ span.render ++ ")") :: value.outline mark (depth + 1)
  | .ifThen condition thenArm span =>
    Outline.line depth ("if (" ++ span.render ++ ")") :: condition.outline mark (depth + 1) ++
      Outline.line (depth + 1) "then" :: thenArm.outline (depth + 2)
  | .ifElse condition thenArm elseArm span =>
    Outline.line depth ("if (" ++ span.render ++ ")") :: condition.outline mark (depth + 1) ++
      Outline.line (depth + 1) "then" :: thenArm.outline (depth + 2) ++
      Outline.line (depth + 1) "else" :: elseArm.outline (depth + 2)
  | .block body span =>
    Outline.line depth ("block (" ++ span.render ++ ")") :: Stmt.outlineAll (depth + 1) body

def Stmt.outlineAll (depth : Nat) : List (Stmt α) → List String
  | [] => []
  | s :: body => s.outline depth ++ Stmt.outlineAll depth body

end

def Import.outline (i : Import) : String :=
  "import <" ++ i.header ++ "> (" ++ i.span.render ++ ")"

def Program.outline (p : Program α) : List String :=
  p.imports.map Import.outline ++ Stmt.outlineAll mark 0 p.body

end HumanScript
