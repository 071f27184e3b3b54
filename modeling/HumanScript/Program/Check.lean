import HumanScript.SymbolTable
import HumanScript.Program.Basic

/-! Programs checked against the variables declared so far. A checked program has a type at every
expression; the check also tells what it saw, a note for each statement once it is done. -/
namespace HumanScript

inductive CheckError where
  | alreadyDeclared (name : String) (earlier : Span)
  | undeclaredName (name : String)
  | unassignable (name : String) (declared actual : Ty)
  | invalidOperands (op : BinaryOp) (lhs rhs : Ty)
  | nonLogicCondition (actual : Ty)
  | unprintable (ty : Ty)
deriving DecidableEq

def CheckError.message : CheckError → String
  | alreadyDeclared name earlier =>
    "variable " ++ name ++ " already declared at " ++ earlier.render
  | undeclaredName name => "variable " ++ name ++ " used before declaration"
  | unassignable name declared actual =>
    "cannot assign type " ++ actual.name ++ " to variable " ++ name ++ " of type " ++ declared.name
  | invalidOperands op lhs rhs =>
    "invalid operands for " ++ op.symbol ++ ": " ++ lhs.name ++ " and " ++ rhs.name
  | nonLogicCondition actual => "if condition must be of type logic, but got " ++ actual.name
  | unprintable ty => "cannot print an expression of type " ++ ty.name

/-- Something seen while checking. -/
inductive Note where
  | imported (header : String)
  | declared (name : String) (ty : Ty)
  | printed (ty : Ty)
  | conditional
  | block
deriving DecidableEq

def Note.message : Note → String
  | imported header => "processing `use <" ++ header ++ ">;`"
  | declared name ty => "declared variable " ++ name ++ " of type " ++ ty.name
  | printed ty => "says statement with expression of type " ++ ty.name
  | conditional => "processed if statement"
  | block => "processed block statement"

def Expr.check (symbols : SymbolTable) : Expr Unit → Except (Spanned CheckError) (Expr Ty)
  | literal value span _ => .ok (literal value span value.ty)
  | name ident span _ =>
    match symbols.get? ident.name with
    | some symbol => .ok (name ident span symbol.ty)
    | none => .error ⟨ident.span, .undeclaredName ident.name⟩
  | binary op lhs rhs span _ => do
    let lhs ← lhs.check symbols
    let rhs ← rhs.check symbols
    match op.resultTy? lhs.info rhs.info with
    | some ty => return binary op lhs rhs span ty
    | none => throw ⟨span, .invalidOperands op lhs.info rhs.info⟩

/-- Whether an expression is an integer literal of at most 32 bits. -/
def Expr.isSmallLiteral {α : Type} : Expr α → Bool
  | literal (.int n) _ _ => -2147483648 ≤ n ∧ n < 2147483648
  | _ => false

/-- Whether a variable of type `declared` may start as `init`. A literal that is small enough fits
a `number`, though its own type is wider. -/
def Expr.fits (init : Expr Ty) (declared : Ty) : Bool :=
  declared.accepts init.info || declared = .number && init.isSmallLiteral

/-- A condition has to be of type `logic`. -/
def Expr.checkCondition (symbols : SymbolTable) (e : Expr Unit) :
    Except (Spanned CheckError) (Expr Ty) := do
  let e ← e.check symbols
  if e.info = .logic then return e else throw ⟨e.span, .nonLogicCondition e.info⟩

/-- What is known after checking a part of a program. -/
structure Checked (β : Type) where
  value : β
  symbols : SymbolTable
  notes : List (Spanned Note)

mutual

def Stmt.check (symbols : SymbolTable) :
    Stmt Unit → Except (Spanned CheckError) (Checked (Stmt Ty))
  | .declare ty name init span => do
    let extended ← (symbols.define name.name ⟨ty, name.span⟩).mapError fun earlier =>
      ⟨name.span, .alreadyDeclared name.name earlier⟩
    let init ← init.check symbols
    if init.fits ty then
      return ⟨.declare ty name init span, extended, [⟨span, .declared name.name ty⟩]⟩
    else throw ⟨init.span, .unassignable name.name ty init.info⟩
  | .print value span => do
    let value ← value.check symbols
    if value.info.isValued then
      return ⟨.print value span, symbols, [⟨span, .printed value.info⟩]⟩
    else throw ⟨value.span, .unprintable value.info⟩
  | .ifThen condition thenArm span => do
    let condition ← condition.checkCondition symbols
    let thenArm ← thenArm.check symbols
    return ⟨.ifThen condition thenArm.value span, thenArm.symbols,
      thenArm.notes ++ [⟨span, .conditional⟩]⟩
  | .ifElse condition thenArm elseArm span => do
    let condition ← condition.checkCondition symbols
    let thenArm ← thenArm.check symbols
    let elseArm ← elseArm.check thenArm.symbols
    return ⟨.ifElse condition thenArm.value elseArm.value span, elseArm.symbols,
      thenArm.notes ++ elseArm.notes ++ [⟨span, .conditional⟩]⟩
  | .block body span => do
    let body ← Stmt.checkAll symbols body
    return ⟨.block body.value span, body.symbols, body.notes ++ [⟨span, .block⟩]⟩

/-- Declarations stay in force after the statement that holds them, also out of a block. -/
def Stmt.checkAll (symbols : SymbolTable) :
    List (Stmt Unit) → Except (Spanned CheckError) (Checked (List (Stmt Ty)))
  | [] => .ok ⟨[], symbols, []⟩
  | s :: body => do
    let s ← s.check symbols
    let body ← Stmt.checkAll s.symbols body
    return ⟨s.value :: body.value, body.symbols, s.notes ++ body.notes⟩

end

def Import.note (i : Import) : Spanned Note := ⟨i.span, .imported i.header⟩

def Program.check (p : Program Unit) : Except (Spanned CheckError) (Checked (Program Ty)) := do
  let body ← Stmt.checkAll .empty p.body
  return ⟨⟨p.imports, body.value⟩, body.symbols, p.imports.map Import.note ++ body.notes⟩

end HumanScript
