import HumanScript.Span
import HumanScript.Ty

/-! The variables of a program. There is one scope, and a name is declared in it at most once. -/
namespace HumanScript

/-- The declared type of a variable, and where its name is declared. -/
structure Symbol where
  ty : Ty
  span : Span
deriving DecidableEq

/-- Declared names, the latest first. -/
structure SymbolTable where
  entries : List (String × Symbol)
deriving DecidableEq

namespace SymbolTable

def empty : SymbolTable := ⟨[]⟩

def get? (t : SymbolTable) (name : String) : Option Symbol := t.entries.lookup name

def contains (t : SymbolTable) (name : String) : Bool := (t.get? name).isSome

def size (t : SymbolTable) : Nat := t.entries.length

def isEmpty (t : SymbolTable) : Bool := t.entries.isEmpty

/-- Adds a name, or fails with the place of its earlier declaration. -/
def define (t : SymbolTable) (name : String) (symbol : Symbol) : Except Span SymbolTable :=
  match t.get? name with
  | some earlier => .error earlier.span
  | none => .ok ⟨(name, symbol) :: t.entries⟩

/-- The entries ordered by name. -/
def sorted (t : SymbolTable) : List (String × Symbol) :=
  t.entries.mergeSort fun a b => a.1 ≤ b.1

@[simp] theorem get?_empty (name : String) : empty.get? name = none := rfl

theorem define_eq_ok_iff {t u : SymbolTable} {name : String} {symbol : Symbol} :
    t.define name symbol = .ok u ↔ t.get? name = none ∧ u = ⟨(name, symbol) :: t.entries⟩ := by
  unfold define
  cases t.get? name with
  | none => simp [eq_comm]
  | some earlier => simp

theorem get?_of_define {t u : SymbolTable} {name : String} {symbol : Symbol}
    (h : t.define name symbol = .ok u) (other : String) :
    u.get? other = if other = name then some symbol else t.get? other := by
  obtain ⟨_, rfl⟩ := define_eq_ok_iff.mp h
  by_cases hn : other = name
  · simp [get?, hn]
  · have : (other == name) = false := by simpa using hn
    simp [get?, List.lookup_cons, this, hn]

end SymbolTable
end HumanScript
