import HumanScript.Cpp.Lower
import HumanScript.Proofs.NumberText
import HumanScript.Proofs.StringLiterals

/-! Expressions in code are read in one way. An expression shows by its first characters what it is,
and by what comes after it where it ends. -/
namespace HumanScript.Cpp

/-- The characters of numbers and words. -/
def isAtomic (c : Char) : Bool := Lexeme.continuesWord c || c = '.' || c = '-'

/-- What may come after an expression. No number, word or literal goes on with it. -/
def Ends : List Char → Prop
  | [] => False
  | c :: _ => c ∈ [' ', ')', ';']

/-- A word that is the name of a variable. -/
structure IsVariable (x : String) : Prop where
  chars : ∃ c more, x.toList = c :: more ∧ Lexeme.startsWord c = true ∧
    ∀ d ∈ more, Lexeme.continuesWord d = true
  ne_true : x ≠ "true"
  ne_false : x ≠ "false"

theorem IsVariable.atomic {x : String} (h : IsVariable x) :
    ∀ c ∈ x.toList, isAtomic c = true := by
  obtain ⟨d, more, hd, hstart, hmore⟩ := h.chars
  have hword : ∀ c, Lexeme.continuesWord c = true → isAtomic c = true := fun c hc => by
    simp [isAtomic, hc]
  rw [hd]
  exact List.forall_mem_cons.mpr
    ⟨hword d (Lexeme.continuesWord_of_startsWord hstart), fun c hc => hword c (hmore c hc)⟩

theorem IsVariable.not_mem {x : String} (h : IsVariable x) {c : Char} (hc : isAtomic c = false) :
    c ∉ x.toList := by
  intro hmem
  rw [h.atomic c hmem] at hc
  cases hc

namespace Expr

/-- Numbers and words. -/
inductive IsAtom : Expr → Prop where
  | int (n : Int) : IsAtom (.int n)
  | double {x : Binary64} (hx : x.isFinite = true) : IsAtom (.double x)
  | bool (b : Bool) : IsAtom (.bool b)
  | name {x : String} (hx : IsVariable x) : IsAtom (.name x)

end Expr

/-- What makes a string of a string literal, a truth value or a number. -/
inductive Conversion where
  | literal
  | truth
  | number

namespace Conversion

/-- Code for a truth value becomes one of two string literals. -/
def apply (k : Conversion) (v : Expr) : Expr :=
  match k with
  | literal => .stringOf v
  | truth => .stringOf (.choice v (.string "true") (.string "false"))
  | number => .toString v

/-- What stands before the code. -/
def front : Conversion → List Char
  | literal | truth => "std::string(".toList
  | number => "std::to_string(".toList

/-- What stands after the code. -/
def back : Conversion → List Char
  | literal | number => [')']
  | truth => " ? \"true\" : \"false\")".toList

end Conversion

namespace Expr

/-- The expressions of compiled programs. A choice is only between the words for truth values. -/
inductive Readable : Expr → Prop where
  | atom {e : Expr} (h : IsAtom e) : Readable e
  | string (s : String) : Readable (.string s)
  | conversion (k : Conversion) {v : Expr} (hv : Readable v) : Readable (k.apply v)
  | binary (op : BinaryOp) {l r : Expr} (hl : Readable l) (hr : Readable r) :
      Readable (.binary op l r)

end Expr

/-! Runs of characters and string literals. -/

theorem ends_blank (cs : List Char) : Ends (' ' :: cs) := by simp [Ends]

theorem ends_paren (cs : List Char) : Ends (')' :: cs) := by simp [Ends]

theorem ends_semicolon (cs : List Char) : Ends (';' :: cs) := by simp [Ends]

theorem Ends.head?_not_isAtomic {rest : List Char} (h : Ends rest) :
    ∀ c ∈ rest.head?, isAtomic c = false := by
  cases rest with
  | nil => cases h
  | cons c rest =>
    rintro _ ⟨⟩
    simp only [Ends, List.mem_cons, List.not_mem_nil, or_false] at h
    rcases h with rfl | rfl | rfl <;> rfl

theorem atoms_unique {a b rest rest' : List Char} (ha : ∀ c ∈ a, isAtomic c = true)
    (hb : ∀ c ∈ b, isAtomic c = true) (hrest : Ends rest) (hrest' : Ends rest')
    (h : a ++ rest = b ++ rest') : a = b ∧ rest = rest' := by
  obtain ⟨htake, hdrop⟩ := Lexeme.takeWhile_run ha hrest.head?_not_isAtomic
  obtain ⟨htake', hdrop'⟩ := Lexeme.takeWhile_run hb hrest'.head?_not_isAtomic
  rw [h] at htake hdrop
  exact ⟨htake.symm.trans htake', hdrop.symm.trans hdrop'⟩

theorem stringLiteral_unique {s t : String} {rest rest' : List Char}
    (h : (stringLiteral s).toList ++ rest = (stringLiteral t).toList ++ rest') :
    s = t ∧ rest = rest' := by
  rw [toList_stringLiteral, toList_stringLiteral] at h
  have hread := congrArg readInside (List.tail_eq_of_cons_eq h)
  rw [readInside_escaped, readInside_escaped, Option.some.injEq, Prod.mk.injEq] at hread
  exact ⟨String.toList_inj.mp hread.1, hread.2⟩

/-! Numbers and words. -/

theorem isAtomic_of_isDigit {c : Char} (h : c.isDigit = true) : isAtomic c = true := by
  simp [isAtomic, Lexeme.continuesWord, Char.isAlphanum, h]

/-- A finite number has a point or an exponent of its own. -/
theorem doubleLiteral_eq {x : Binary64} (hx : x.isFinite = true) : doubleLiteral x = x.render := by
  have hmarked : '.' ∈ x.render.toList ∨ 'e' ∈ x.render.toList := by
    have hmagnitude := x.isNumeral_magnitude.marked
    rw [Binary64.toList_render hx]
    split
    · simpa using hmagnitude
    · exact hmagnitude
  unfold doubleLiteral
  dsimp only
  rw [if_pos]
  rw [List.any_eq_true]
  rcases hmarked with h | h
  · exact ⟨'.', h, rfl⟩
  · exact ⟨'e', h, rfl⟩

theorem mem_render_double {x : Binary64} (hx : x.isFinite = true) {c : Char}
    (hc : c ∈ x.render.toList) : c.isDigit = true ∨ c ∈ ['.', 'e', '-'] := by
  rw [Binary64.toList_render hx] at hc
  split at hc
  · rcases List.mem_cons.mp hc with rfl | hc
    · exact .inr (by decide)
    · exact x.isNumeral_magnitude.chars c hc
  · exact x.isNumeral_magnitude.chars c hc

namespace Expr

/-- Whether an atom is a word: it starts as words do. -/
def isWord : Expr → Bool
  | .bool _ | .name _ => true
  | _ => false

theorem exists_head_toString (n : Int) :
    ∃ c more, (ToString.toString n).toList = c :: more ∧ Lexeme.startsWord c = false := by
  rw [Int.toString_eq_repr, Int.repr_eq_if]
  split
  · rw [Nat.toList_repr]
    obtain ⟨c, more, hc⟩ := List.exists_cons_of_ne_nil (@Nat.toDigits_ne_nil n.toNat 10)
    have hdigit : c.isDigit = true :=
      Nat.isDigit_of_mem_toDigits (by omega) (by omega) (hc ▸ List.mem_cons_self)
    exact ⟨c, more, hc, Lexeme.startsWord_of_isDigit hdigit⟩
  · rw [String.toList_append]
    exact ⟨'-', _, rfl, rfl⟩

section Rendering
variable (v l r : Expr)

theorem render_int (n : Int) : (int n).render = ToString.toString n ++ "LL" := rfl

theorem render_double {x : Binary64} (hx : x.isFinite = true) : (double x).render = x.render :=
  doubleLiteral_eq hx

theorem render_string (s : String) : (string s).render = stringLiteral s := rfl

theorem render_stringOf : (stringOf v).render = "std::string(" ++ v.render ++ ")" := rfl

theorem render_toString : (toString v).render = "std::to_string(" ++ v.render ++ ")" := rfl

theorem render_choice :
    (choice v l r).render = v.render ++ " ? " ++ l.render ++ " : " ++ r.render := rfl

theorem render_binary (op : BinaryOp) :
    (binary op l r).render = "(" ++ l.render ++ " " ++ operator op ++ " " ++ r.render ++ ")" := rfl

end Rendering

theorem IsAtom.exists_head {e : Expr} (h : IsAtom e) :
    ∃ c more, e.render.toList = c :: more ∧ Lexeme.startsWord c = e.isWord := by
  cases h with
  | int n =>
    obtain ⟨c, more, hc, hstart⟩ := exists_head_toString n
    exact ⟨c, more ++ "LL".toList, by rw [render_int, String.toList_append, hc]; rfl, hstart⟩
  | @double x hx =>
    obtain ⟨c, more, hc, hdigit⟩ := x.isNumeral_magnitude.head
    rw [render_double hx, Binary64.toList_render hx]
    split
    · exact ⟨'-', _, rfl, rfl⟩
    · exact ⟨c, more, hc, Lexeme.startsWord_of_isDigit hdigit⟩
  | bool b => cases b with
    | false => exact ⟨'f', _, rfl, rfl⟩
    | true => exact ⟨'t', _, rfl, rfl⟩
  | name hx =>
    obtain ⟨c, more, hc, hstart, -⟩ := hx.chars
    exact ⟨c, more, hc, hstart⟩

theorem IsAtom.atomic {e : Expr} (h : IsAtom e) : ∀ c ∈ e.render.toList, isAtomic c = true := by
  intro c hc
  cases h with
  | int n =>
    rw [render_int, String.toList_append] at hc
    rcases List.mem_append.mp hc with hc | hc
    · rcases Text.mem_toString_int hc with hdigit | rfl
      · exact isAtomic_of_isDigit hdigit
      · rfl
    · have hsuffix : ∀ c ∈ "LL".toList, Cpp.isAtomic c = true := List.all_eq_true.mp rfl
      exact hsuffix c hc
  | double hx =>
    rw [render_double hx] at hc
    have hmarks : ∀ c ∈ ['.', 'e', '-'], Cpp.isAtomic c = true := List.all_eq_true.mp rfl
    exact (mem_render_double hx hc).elim isAtomic_of_isDigit (hmarks c)
  | bool b =>
    have hwords : ∀ b, (Expr.bool b).render.toList.all Cpp.isAtomic = true := by decide
    exact List.all_eq_true.mp (hwords b) c hc
  | name hx => exact hx.atomic c hc

/-- Only integers are tagged. -/
theorem render_int_ne_double (n : Int) {x : Binary64} (hx : x.isFinite = true) :
    (int n).render ≠ (double x).render := by
  intro h
  have htag : ¬ ('L'.isDigit = true ∨ 'L' ∈ ['.', 'e', '-']) := by decide
  have hmem : 'L' ∈ (double x).render.toList := by
    rw [← h, render_int, String.toList_append]
    exact List.mem_append_right _ (by decide)
  rw [render_double hx] at hmem
  exact htag (mem_render_double hx hmem)

theorem IsAtom.eq_of_render {e e' : Expr} (h : IsAtom e) (h' : IsAtom e')
    (heq : e.render = e'.render) : e = e' := by
  have hword : e.isWord = e'.isWord := by
    obtain ⟨c, more, hc, hstart⟩ := h.exists_head
    obtain ⟨c', more', hc', hstart'⟩ := h'.exists_head
    rw [heq, hc', List.cons.injEq] at hc
    rw [← hstart, ← hstart', hc.1]
  cases h with
  | int n =>
    cases h' with
    | int n' =>
      have htext := congrArg String.toList heq
      rw [render_int, render_int, String.toList_append, String.toList_append] at htext
      have hread := congrArg Text.readInteger (List.append_cancel_right htext)
      rw [Text.readInteger_toString, Text.readInteger_toString] at hread
      rw [hread]
    | double hx => exact absurd heq (render_int_ne_double n hx)
    | bool | name => cases hword
  | double hx =>
    cases h' with
    | int n => exact absurd heq.symm (render_int_ne_double n hx)
    | double hx' =>
      rw [render_double hx, render_double hx'] at heq
      rw [Binary64.render_injective hx hx' heq]
    | bool | name => cases hword
  | bool b =>
    cases h' with
    | int | double => cases hword
    | bool b' =>
      revert heq
      cases b <;> cases b' <;> decide
    | name hx =>
      cases b with
      | false => exact absurd heq.symm hx.ne_false
      | true => exact absurd heq.symm hx.ne_true
  | name hx =>
    cases h' with
    | int | double => cases hword
    | bool b =>
      cases b with
      | false => exact absurd heq hx.ne_false
      | true => exact absurd heq hx.ne_true
    | name hx' => exact congrArg Expr.name heq

/-! Expressions. -/

/-- What an expression starts with. -/
inductive Lead where
  | atom
  | quote
  | call
  | paren
deriving DecidableEq

/-- A call is a word that goes on with a colon. -/
def Lead.ofChars (cs : List Char) : Lead :=
  if cs.head? = some '"' then .quote
  else if cs.head? = some '(' then .paren
  else if (cs.dropWhile isAtomic).head? = some ':' then .call
  else .atom

def lead : Expr → Lead
  | .string _ => .quote
  | .stringOf _ | .toString _ => .call
  | .binary .. => .paren
  | _ => .atom

theorem IsAtom.lead_eq {e : Expr} (h : IsAtom e) : e.lead = .atom := by
  cases h <;> rfl

theorem IsAtom.lead_ofChars {e : Expr} (h : IsAtom e) {rest : List Char} (hrest : Ends rest) :
    Lead.ofChars (e.render.toList ++ rest) = .atom := by
  obtain ⟨c, more, hc, -⟩ := h.exists_head
  have hatomic := h.atomic
  have hhead : Cpp.isAtomic c = true := hatomic c (by rw [hc]; exact List.mem_cons_self)
  have hdrop := (Lexeme.takeWhile_run hatomic hrest.head?_not_isAtomic).2
  have hnot : ∀ d, Cpp.isAtomic d = false → some c ≠ some d := by
    intro d hd heq
    rw [Option.some.inj heq, hd] at hhead
    cases hhead
  have hrest' : rest.head? ≠ some ':' := by
    cases rest with
    | nil => cases hrest
    | cons d rest =>
      intro heq
      cases Option.some.inj heq
      have hcolon : ':' ∉ [' ', ')', ';'] := by decide
      exact hcolon hrest
  have hhead' : (e.render.toList ++ rest).head? = some c := by rw [hc]; rfl
  unfold Lead.ofChars
  rw [hdrop, hhead', if_neg (hnot _ rfl), if_neg (hnot _ rfl), if_neg hrest']

theorem toList_binary (op : BinaryOp) (l r : Expr) (rest : List Char) :
    (binary op l r).render.toList ++ rest =
      '(' :: (l.render.toList ++ ' ' :: ((operator op).toList ++ ' ' ::
        (r.render.toList ++ ')' :: rest))) := by
  rw [render_binary]
  simp only [String.toList_append, List.append_assoc]
  rfl

end Expr

namespace Conversion

theorem lead_apply (k : Conversion) (v : Expr) : (k.apply v).lead = .call := by
  cases k <;> rfl

theorem toList_apply (k : Conversion) (v : Expr) (rest : List Char) :
    (k.apply v).render.toList ++ rest = k.front ++ (v.render.toList ++ (k.back ++ rest)) := by
  have hwords : (Expr.string "true").render = "\"true\"" ∧
      (Expr.string "false").render = "\"false\"" := by
    decide +kernel
  cases k with
  | literal =>
    rw [apply, Expr.render_stringOf]
    simp only [String.toList_append, List.append_assoc]
    rfl
  | truth =>
    rw [apply, Expr.render_stringOf, Expr.render_choice, hwords.1, hwords.2]
    simp only [String.toList_append, List.append_assoc]
    rfl
  | number =>
    rw [apply, Expr.render_toString]
    simp only [String.toList_append, List.append_assoc]
    rfl

theorem ends_back (k : Conversion) (rest : List Char) : Ends (k.back ++ rest) := by
  cases k with
  | literal | number => exact ends_paren _
  | truth => exact ends_blank _

theorem front_unique {k k' : Conversion} {a b : List Char} (h : k.front ++ a = k'.front ++ b) :
    k.front = k'.front ∧ a = b := by
  have hne : ∀ a b, "std::string(".toList ++ a ≠ "std::to_string(".toList ++ b := by
    intro a b h
    have hsixth : some 's' = some 't' := congrArg (fun cs => cs[5]?) h
    cases hsixth
  cases k with
  | literal | truth =>
    cases k' with
    | literal | truth => exact ⟨rfl, List.append_cancel_left h⟩
    | number => exact absurd h (hne a b)
  | number =>
    cases k' with
    | literal | truth => exact absurd h.symm (hne b a)
    | number => exact ⟨rfl, List.append_cancel_left h⟩

/-- Conversions that start in the same way show what they are after the code. -/
theorem back_unique {k k' : Conversion} (hfront : k.front = k'.front) {rest rest' : List Char}
    (h : k.back ++ rest = k'.back ++ rest') : k = k' ∧ rest = rest' := by
  cases k with
  | literal =>
    cases k' with
    | literal => exact ⟨rfl, List.append_cancel_left h⟩
    | truth => exact absurd (List.head_eq_of_cons_eq h) (by decide)
    | number => exact absurd hfront (by decide)
  | truth =>
    cases k' with
    | literal => exact absurd (List.head_eq_of_cons_eq h) (by decide)
    | truth => exact ⟨rfl, List.append_cancel_left h⟩
    | number => exact absurd hfront (by decide)
  | number =>
    cases k' with
    | literal | truth => exact absurd hfront (by decide)
    | number => exact ⟨rfl, List.append_cancel_left h⟩

end Conversion

namespace Expr

theorem Readable.lead_ofChars {e : Expr} (h : Readable e) {rest : List Char} (hrest : Ends rest) :
    Lead.ofChars (e.render.toList ++ rest) = e.lead := by
  cases h with
  | atom h => rw [h.lead_ofChars hrest, h.lead_eq]
  | string s =>
    rw [render_string, stringLiteral, String.toList_ofList]
    rfl
  | conversion k _ =>
    rw [k.toList_apply]
    cases k <;> rfl
  | binary op _ _ =>
    rw [toList_binary]
    rfl

theorem lead_eq_of_render {e e' : Expr} (he : Readable e) (he' : Readable e')
    {rest rest' : List Char} (hrest : Ends rest) (hrest' : Ends rest')
    (h : e.render.toList ++ rest = e'.render.toList ++ rest') : e.lead = e'.lead := by
  rw [← he.lead_ofChars hrest, ← he'.lead_ofChars hrest', h]

/-- No text starts with two expressions, or with one that ends in two places. -/
theorem Readable.unique {e e' : Expr} (he : Readable e) (he' : Readable e')
    {rest rest' : List Char} (hrest : Ends rest) (hrest' : Ends rest')
    (h : e.render.toList ++ rest = e'.render.toList ++ rest') : e = e' ∧ rest = rest' := by
  -- The lead tells which expression the second is, and the hypothesis for an operand, where the
  -- operand ends.
  induction he generalizing e' rest rest' with
  | atom ha =>
    have hlead := lead_eq_of_render (.atom ha) he' hrest hrest' h
    rw [ha.lead_eq] at hlead
    cases he' with
    | atom ha' =>
      obtain ⟨htext, hsame⟩ := atoms_unique ha.atomic ha'.atomic hrest hrest' h
      exact ⟨ha.eq_of_render ha' (String.toList_inj.mp htext), hsame⟩
    | conversion k' _ =>
      rw [k'.lead_apply] at hlead
      cases hlead
    | string | binary => cases hlead
  | string s =>
    have hlead := lead_eq_of_render (.string s) he' hrest hrest' h
    cases he' with
    | atom ha' =>
      rw [ha'.lead_eq] at hlead
      cases hlead
    | string t =>
      obtain ⟨hs, hsame⟩ := stringLiteral_unique h
      exact ⟨congrArg Expr.string hs, hsame⟩
    | conversion k' _ =>
      rw [k'.lead_apply] at hlead
      cases hlead
    | binary => cases hlead
  | conversion k hv ih =>
    have hlead := lead_eq_of_render (.conversion k hv) he' hrest hrest' h
    rw [k.lead_apply] at hlead
    cases he' with
    | atom ha' =>
      rw [ha'.lead_eq] at hlead
      cases hlead
    | conversion k' hv' =>
      rw [k.toList_apply, k'.toList_apply] at h
      obtain ⟨hfront, hcode⟩ := Conversion.front_unique h
      obtain ⟨rfl, hback⟩ := ih hv' (k.ends_back _) (k'.ends_back _) hcode
      obtain ⟨rfl, hsame⟩ := Conversion.back_unique hfront hback
      exact ⟨rfl, hsame⟩
    | string | binary => cases hlead
  | binary op hl hr ihl ihr =>
    have hlead := lead_eq_of_render (.binary op hl hr) he' hrest hrest' h
    cases he' with
    | atom ha' =>
      rw [ha'.lead_eq] at hlead
      cases hlead
    | conversion k' _ =>
      rw [k'.lead_apply] at hlead
      cases hlead
    | binary op' hl' hr' =>
      rw [toList_binary, toList_binary] at h
      obtain ⟨rfl, hafter⟩ := ihl hl' (ends_blank _) (ends_blank _) (List.tail_eq_of_cons_eq h)
      have hop : op = op' := by
        have hsign := congrArg (fun cs => cs[1]?) hafter
        cases op <;> cases op' <;> first | rfl | cases hsign
      subst hop
      have hright := List.append_cancel_left (List.tail_eq_of_cons_eq hafter)
      obtain ⟨rfl, hsame⟩ := ihr hr' (ends_paren _) (ends_paren _) (List.tail_eq_of_cons_eq hright)
      exact ⟨rfl, List.tail_eq_of_cons_eq hsame⟩
    | string => cases hlead

/-- An operation brings its parentheses; anything else is put in a pair of them. -/
theorem Readable.condition_cases {c : Expr} (hc : Readable c) :
    (∃ op l r, c = .binary op l r ∧ Readable l) ∨
      ∀ rest, c.renderCondition.toList ++ rest = '(' :: (c.render.toList ++ ')' :: rest) := by
  have hplain : ∀ rest, ("(" ++ c.render ++ ")").toList ++ rest =
      '(' :: (c.render.toList ++ ')' :: rest) := by
    intro rest
    rw [String.toList_append, String.toList_append, List.append_assoc, List.append_assoc]
    rfl
  cases hc with
  | atom ha => cases ha <;> exact .inr hplain
  | string => exact .inr hplain
  | conversion k _ => cases k <;> exact .inr hplain
  | binary op hl _ => exact .inl ⟨op, _, _, rfl, hl⟩

theorem Readable.unique_condition {c c' : Expr} (hc : Readable c) (hc' : Readable c')
    {rest rest' : List Char} (hrest : Ends rest) (hrest' : Ends rest')
    (h : c.renderCondition.toList ++ rest = c'.renderCondition.toList ++ rest') :
    c = c' ∧ rest = rest' := by
  rcases hc.condition_cases with ⟨op, l, r, rfl, hl⟩ | hplain <;>
    rcases hc'.condition_cases with ⟨op', l', r', rfl, hl'⟩ | hplain'
  · exact hc.unique hc' hrest hrest' h
  · rw [hplain', renderCondition, toList_binary] at h
    obtain ⟨-, hafter⟩ := hl.unique hc' (ends_blank _) (ends_paren _) (List.tail_eq_of_cons_eq h)
    cases List.head_eq_of_cons_eq hafter
  · rw [hplain, renderCondition, toList_binary] at h
    obtain ⟨-, hafter⟩ := hc.unique hl' (ends_paren _) (ends_blank _) (List.tail_eq_of_cons_eq h)
    cases List.head_eq_of_cons_eq hafter
  · rw [hplain, hplain'] at h
    obtain ⟨hsame, hafter⟩ := hc.unique hc' (ends_paren _) (ends_paren _)
      (List.tail_eq_of_cons_eq h)
    exact ⟨hsame, List.tail_eq_of_cons_eq hafter⟩

end Expr

end HumanScript.Cpp
