import HumanScript.Token

/-! Programs as trees. Every expression carries a piece of information of type `α`: nothing while a
program has only been read, a type once it has been checked. -/
namespace HumanScript

/-- A name and the place where it is written. -/
structure Ident where
  name : String
  span : Span
deriving DecidableEq

inductive Expr (α : Type) where
  | literal (value : Literal) (span : Span) (info : α)
  | name (ident : Ident) (span : Span) (info : α)
  | binary (op : BinaryOp) (lhs rhs : Expr α) (span : Span) (info : α)
deriving DecidableEq

namespace Expr
variable {α : Type}

def span : Expr α → Span
  | literal _ span _ | name _ span _ | binary _ _ _ span _ => span

def info : Expr α → α
  | literal _ _ info | name _ _ info | binary _ _ _ _ info => info

/-- The same expression at another place. -/
def withSpan (span : Span) : Expr α → Expr α
  | literal value _ info => literal value span info
  | name ident _ info => name ident span info
  | binary op lhs rhs _ info => binary op lhs rhs span info

end Expr

inductive Stmt (α : Type) where
  | declare (ty : Ty) (name : Ident) (init : Expr α) (span : Span)
  | print (value : Expr α) (span : Span)
  | ifThen (condition : Expr α) (thenArm : Stmt α) (span : Span)
  | ifElse (condition : Expr α) (thenArm elseArm : Stmt α) (span : Span)
  | block (body : List (Stmt α)) (span : Span)

def Stmt.span {α : Type} : Stmt α → Span
  | declare _ _ _ span | print _ span | ifThen _ _ span | ifElse _ _ _ span | block _ span => span

/-- A header named by a `use` line. -/
structure Import where
  header : String
  span : Span
deriving DecidableEq

structure Program (α : Type) where
  imports : List Import
  body : List (Stmt α)

end HumanScript
