import Mathlib.Tactic.Common

/-! Brackets in a text: how deep they nest, and what stands outside of them. -/
namespace HumanScript.Cpp

theorem paren_ne : '(' ≠ ')' := by decide

theorem brace_ne : '\x7b' ≠ '\x7d' := by decide

/-- A kind of brackets. -/
structure Brackets where
  opening : Char
  closing : Char
  ne : opening ≠ closing

def parens : Brackets := ⟨'(', ')', paren_ne⟩

def braces : Brackets := ⟨'\x7b', '\x7d', brace_ne⟩

namespace Brackets
variable (b : Brackets) {d e : Nat} {cs xs : List Char}

/-- How many brackets are open after a text, if `d` are before it. There is no answer if the text
closes one that is not open. -/
def nesting (d : Nat) : List Char → Option Nat
  | [] => some d
  | c :: cs =>
    if c = b.opening then nesting (d + 1) cs
    else if c = b.closing then if d = 0 then none else nesting (d - 1) cs
    else nesting d cs

/-- The characters of a text that stand in no brackets, if `d` are open before it. -/
def outer (d : Nat) : List Char → List Char
  | [] => []
  | c :: cs =>
    if c = b.opening then outer (d + 1) cs
    else if c = b.closing then outer (d - 1) cs
    else if d = 0 then c :: outer d cs
    else outer d cs

/-- Every bracket that is opened is closed again, and no other. -/
def Balanced (cs : List Char) : Prop := b.nesting 0 cs = some 0

/-- A text in a pair of brackets that belong to each other. -/
def Wrapped (cs : List Char) : Prop :=
  ∃ inner, cs = b.opening :: (inner ++ [b.closing]) ∧ b.Balanced inner

/-- A text in one such pair, and not in a second one inside of it. -/
def WrappedOnce (cs : List Char) : Prop :=
  ∃ inner, cs = b.opening :: (inner ++ [b.closing]) ∧ b.Balanced inner ∧ ¬ b.Wrapped inner

theorem nesting_opening (d : Nat) (cs : List Char) :
    b.nesting d (b.opening :: cs) = b.nesting (d + 1) cs := by
  rw [nesting, if_pos rfl]

theorem nesting_closing (d : Nat) (cs : List Char) :
    b.nesting (d + 1) (b.closing :: cs) = b.nesting d cs := by
  rw [nesting, if_neg b.ne.symm, if_pos rfl, if_neg (Nat.succ_ne_zero d), Nat.add_sub_cancel]

theorem nesting_append (d : Nat) (xs ys : List Char) :
    b.nesting d (xs ++ ys) = (b.nesting d xs).bind (b.nesting · ys) := by
  induction xs generalizing d with
  | nil => rfl
  | cons c xs ih =>
    rw [List.cons_append, nesting, nesting]
    split_ifs
    · exact ih (d + 1)
    · rfl
    · exact ih (d - 1)
    · exact ih d

variable {b}

/-- What holds at some depth holds further in. -/
theorem nesting_add (h : b.nesting d cs = some e) (k : Nat) :
    b.nesting (d + k) cs = some (e + k) := by
  induction cs generalizing d with
  | nil =>
    cases h
    rfl
  | cons c cs ih =>
    rw [nesting] at h ⊢
    split_ifs at h ⊢ with hopening hclosing hzero hdeep
    · have hdeeper := ih h
      rwa [Nat.add_right_comm] at hdeeper
    · omega
    · have hdepth : d + k - 1 = d - 1 + k := by omega
      rw [hdepth]
      exact ih h
    · exact ih h

theorem nesting_of_not_mem (hopening : b.opening ∉ cs) (hclosing : b.closing ∉ cs) (d : Nat) :
    b.nesting d cs = some d := by
  induction cs with
  | nil => rfl
  | cons c cs ih =>
    rw [List.mem_cons, not_or] at hopening hclosing
    rw [nesting, if_neg (Ne.symm hopening.1), if_neg (Ne.symm hclosing.1),
      ih hopening.2 hclosing.2]

namespace Balanced

theorem of_not_mem (hopening : b.opening ∉ cs) (hclosing : b.closing ∉ cs) : b.Balanced cs :=
  nesting_of_not_mem hopening hclosing 0

theorem nesting_eq (h : b.Balanced cs) (d : Nat) : b.nesting d cs = some d := by
  have hdeeper := nesting_add h d
  rwa [Nat.zero_add] at hdeeper

theorem append (hx : b.Balanced xs) (hc : b.Balanced cs) : b.Balanced (xs ++ cs) := by
  rw [Balanced, nesting_append, hx, Option.bind_some, hc]

theorem wrap (h : b.Balanced cs) : b.Balanced (b.opening :: (cs ++ [b.closing])) := by
  rw [Balanced, nesting_opening, nesting_append, h.nesting_eq, Option.bind_some, nesting_closing]
  rfl

end Balanced

theorem outer_append (h : b.nesting d xs = some e) (ys : List Char) :
    b.outer d (xs ++ ys) = b.outer d xs ++ b.outer e ys := by
  induction xs generalizing d with
  | nil =>
    cases h
    rfl
  | cons c xs ih =>
    rw [nesting] at h
    rw [List.cons_append, outer, outer]
    split_ifs at h ⊢
    · exact ih h
    · exact ih h
    · rw [ih h, List.cons_append]
    · exact ih h

/-- A text that closes no bracket around it is inside of that bracket. -/
theorem outer_inside (h : b.nesting d cs = some e) : b.outer (d + 1) cs = [] := by
  induction cs generalizing d with
  | nil => rfl
  | cons c cs ih =>
    rw [nesting] at h
    rw [outer]
    split_ifs at h ⊢ with hopening hclosing hzero hdeep
    · exact ih h
    · have hinside := ih h
      rwa [Nat.sub_add_cancel (Nat.pos_of_ne_zero hzero)] at hinside
    · omega
    · exact ih h

theorem outer_of_not_mem (hopening : b.opening ∉ cs) (hclosing : b.closing ∉ cs) :
    b.outer 0 cs = cs := by
  induction cs with
  | nil => rfl
  | cons c cs ih =>
    rw [List.mem_cons, not_or] at hopening hclosing
    rw [outer, if_neg (Ne.symm hopening.1), if_neg (Ne.symm hclosing.1), if_pos rfl,
      ih hopening.2 hclosing.2]

theorem Wrapped.outer_eq (h : b.Wrapped cs) : b.outer 0 cs = [] := by
  obtain ⟨inner, rfl, hinner⟩ := h
  have hopen : b.nesting (0 + 1) inner = some (0 + 1) := hinner.nesting_eq (0 + 1)
  rw [outer, if_pos rfl, outer_append hopen, outer_inside hinner, outer, if_neg b.ne.symm,
    if_pos rfl]
  rfl

end Brackets

end HumanScript.Cpp
