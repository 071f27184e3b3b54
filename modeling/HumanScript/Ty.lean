/-! Types of expressions and variables, and the operators on them. -/
namespace HumanScript

inductive Ty where
  /-- An integer of 32 bits. -/
  | number
  /-- An integer of 64 bits, and the type of every integer literal. -/
  | lnumber
  | text
  | logic
  /-- A binary64 number. -/
  | riel
  | void
  | unknown
deriving DecidableEq, Repr

namespace Ty

def name : Ty → String
  | number => "number"
  | lnumber => "lnumber"
  | text => "text"
  | logic => "logic"
  | riel => "riel"
  | void => "void"
  | unknown => "unknown"

/-- Place in the order of widening, `number < lnumber < riel`. -/
def rank? : Ty → Option Nat
  | number => some 0
  | lnumber => some 1
  | riel => some 2
  | _ => none

def isNumeric (t : Ty) : Bool := t.rank?.isSome

/-- Whether the type has values. -/
def isValued : Ty → Bool
  | void | unknown => false
  | _ => true

/-- The wider of two numeric types. -/
def widest? (s t : Ty) : Option Ty := do
  let i ← s.rank?
  let j ← t.rank?
  return if j ≤ i then s else t

/-- Whether a variable of the first type may start with a value of the second. Only numbers
widen. -/
def accepts (declared value : Ty) : Bool :=
  declared = value || match declared, value with
    | lnumber, number | riel, number | riel, lnumber => true
    | _, _ => false

end Ty

inductive BinaryOp where
  | add
  | eq
deriving DecidableEq, Repr

namespace BinaryOp

def symbol : BinaryOp → String
  | add => "+"
  | eq => "?="

/-- The type of an operation. Numbers add to the wider type, a text takes in any value it is added
to, and values compare if they have one type or are both numbers. -/
def resultTy? (op : BinaryOp) (lhs rhs : Ty) : Option Ty :=
  match op with
  | add =>
    match lhs.widest? rhs with
    | some wide => some wide
    | none =>
      if lhs = .text ∧ rhs.isValued ∨ rhs = .text ∧ lhs.isValued then some .text else none
  | eq =>
    if lhs = rhs ∧ lhs.isValued ∨ lhs.isNumeric ∧ rhs.isNumeric then some .logic else none

end BinaryOp
end HumanScript
