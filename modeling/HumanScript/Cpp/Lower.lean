import HumanScript.Cpp.Basic
import HumanScript.Cpp.Headers

/-! C++ code for checked programs. -/
namespace HumanScript

inductive EmitError where
  | unmappableType (ty : Ty)
deriving DecidableEq

def EmitError.message : EmitError → String
  | unmappableType ty => "internal error: type " ++ ty.name ++ " has no C++ counterpart"

/-- The C++ type of a variable. -/
def Ty.toCpp : Ty → Except EmitError Cpp.CType
  | number => .ok .int
  | lnumber => .ok .longLong
  | text => .ok .string
  | logic => .ok .bool
  | riel => .ok .double
  | void => .ok .void
  | unknown => .error (.unmappableType .unknown)

/-- An operand made into a string. Truth values are spelled as they are printed. -/
def Ty.stringify (ty : Ty) (code : Cpp.Expr) : Cpp.Expr :=
  match ty with
  | text => code
  | logic => .stringOf (.choice code (.string "true") (.string "false"))
  | _ => .toString code

def Literal.toCpp : Literal → Cpp.Expr
  | int value => .int value
  | float value => .double value
  | string value => .string value
  | bool value => .bool value

def Expr.isStringLiteral : Expr Ty → Bool
  | literal (.string _) _ _ => true
  | _ => false

/-- Of two string literals the first is made a string: as they stand, C++ would work on their
addresses. -/
def Expr.toCpp : Expr Ty → Cpp.Expr
  | literal value _ _ => value.toCpp
  | name ident _ _ => .name ident.name
  | binary op lhs rhs _ ty =>
    let concatenates := op = .add ∧ ty = .text
    let left := if concatenates then lhs.info.stringify lhs.toCpp else lhs.toCpp
    let right := if concatenates then rhs.info.stringify rhs.toCpp else rhs.toCpp
    .binary op (if lhs.isStringLiteral ∧ rhs.isStringLiteral then .stringOf left else left) right

/-- The statements of an arm. Its braces are written anyway, so a block brings none of its own. -/
def Cpp.Stmt.arm : Cpp.Stmt → List Cpp.Stmt
  | .block body => body
  | s => [s]

mutual

def Stmt.toCpp : Stmt Ty → Except EmitError Cpp.Stmt
  | .declare ty name init _ => do
    let ty ← ty.toCpp
    return .declare ty name.name init.toCpp
  | .print value _ =>
    .ok (.print (if value.info.isValued then value.toCpp else .toString value.toCpp))
  | .ifThen condition thenArm _ => do
    let thenArm ← thenArm.toCpp
    return .ifThen condition.toCpp thenArm.arm
  | .ifElse condition thenArm elseArm _ => do
    let thenArm ← thenArm.toCpp
    let elseArm ← elseArm.toCpp
    return .ifElse condition.toCpp thenArm.arm elseArm.arm
  | .block body _ => do
    let body ← Stmt.allToCpp body
    return .block body

def Stmt.allToCpp : List (Stmt Ty) → Except EmitError (List Cpp.Stmt)
  | [] => .ok []
  | s :: body => do
    let s ← s.toCpp
    let body ← Stmt.allToCpp body
    return s :: body

end

namespace Cpp

/-- A C++ program: what it includes, and the statements of `main`. -/
structure Program where
  headers : Headers
  body : List Stmt

def banner : String := "// Generated by HumanScript Compiler"

/-- Truth values print as words. -/
def Program.lines (p : Program) : List String :=
  banner :: "" :: p.headers.lines ++ "int main() \x7b" ::
    (if p.headers.includes "iostream" then [line 1 "std::cout << std::boolalpha;"] else []) ++
    Stmt.linesAll 1 p.body ++ [line 1 "return 0;", "\x7d"]

def Program.render (p : Program) : String := Text.unlines p.lines

end Cpp

def Program.toCpp (p : Program Ty) : Except EmitError Cpp.Program := do
  let body ← Stmt.allToCpp p.body
  return ⟨.ofProgram p, body⟩

end HumanScript
