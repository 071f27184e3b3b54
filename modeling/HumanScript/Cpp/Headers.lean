import HumanScript.Program.Basic

/-! The headers that the code of a checked program needs. -/
namespace HumanScript

def Expr.usesText : Expr Ty → Bool
  | literal _ _ ty | name _ _ ty => ty = .text
  | binary _ lhs rhs _ ty => ty = .text || lhs.usesText || rhs.usesText

mutual

/-- Whether a text is declared or worked out anywhere in a statement. -/
def Stmt.usesText : Stmt Ty → Bool
  | .declare ty _ init _ => ty = .text || init.usesText
  | .print value _ => value.usesText
  | .ifThen condition thenArm _ => condition.usesText || thenArm.usesText
  | .ifElse condition thenArm elseArm _ =>
    condition.usesText || thenArm.usesText || elseArm.usesText
  | .block body _ => Stmt.anyUsesText body

def Stmt.anyUsesText : List (Stmt Ty) → Bool
  | [] => false
  | s :: body => s.usesText || Stmt.anyUsesText body

end

mutual

/-- Whether anything is printed in a statement. -/
def Stmt.prints : Stmt Ty → Bool
  | .declare .. => false
  | .print .. => true
  | .ifThen _ thenArm _ => thenArm.prints
  | .ifElse _ thenArm elseArm _ => thenArm.prints || elseArm.prints
  | .block body _ => Stmt.anyPrints body

def Stmt.anyPrints : List (Stmt Ty) → Bool
  | [] => false
  | s :: body => s.prints || Stmt.anyPrints body

end

namespace Cpp

/-- A header, and why the program needs it though it does not name it. -/
structure AddedHeader where
  header : String
  reason : String
deriving DecidableEq

/-- Headers in the order of their `include` lines. -/
structure Headers where
  /-- Those that the program names, as often as it does. -/
  named : List String
  added : List AddedHeader
deriving DecidableEq

namespace Headers

def includes (h : Headers) (header : String) : Bool :=
  h.named.contains header || h.added.any (·.header = header)

/-- Adds a header that is not there yet. -/
def require (h : Headers) (header reason : String) : Headers :=
  if h.includes header then h else { h with added := h.added ++ [⟨header, reason⟩] }

/-- Texts need strings. Printing needs streams, the names of truth values, and strings again for the
text of numbers. -/
def ofProgram (p : Program Ty) : Headers :=
  let named : Headers := ⟨p.imports.map Import.header, []⟩
  let withText :=
    if Stmt.anyUsesText p.body then named.require "string" "Auto-included for text values"
    else named
  if Stmt.anyPrints p.body then
    ((withText.require "iostream" "Auto-included for 'says'").require
      "iomanip" "Auto-included for std::boolalpha").require
      "string" "Auto-included for std::to_string"
  else withText

/-- The `include` lines, and a blank line after them. -/
def lines (h : Headers) : List String :=
  let includes := h.named.map (fun header => "#include <" ++ header ++ ">") ++
    h.added.map fun a => "#include <" ++ a.header ++ "> // " ++ a.reason
  if includes.isEmpty then [] else includes ++ [""]

end Headers
end Cpp
end HumanScript
