import HumanScript.Proofs.CodeLayout
import HumanScript.Proofs.QuotedText

/-! Lines of outlines are read in one way. The first word of a line shows what it is about, the
blanks before it show how deep it stands, and its place is behind a blank that nothing before it
takes in. -/
namespace HumanScript

/-! Places. -/

theorem Span.toList_render (s : Span) :
    s.render.toList = Nat.toDigits 10 s.lo ++ '.' :: '.' :: Nat.toDigits 10 s.hi := by
  have hpoints : (toString "..").toList = ['.', '.'] := by decide
  simp [render, Nat.toList_repr, hpoints]

/-- A place ends where no digit follows. -/
theorem Span.render_unique {s s' : Span} {rest rest' : List Char}
    (hrest : ∀ c ∈ rest.head?, c.isDigit = false) (hrest' : ∀ c ∈ rest'.head?, c.isDigit = false)
    (h : s.render.toList ++ rest = s'.render.toList ++ rest') : s = s' ∧ rest = rest' := by
  have hdigits : ∀ n, ∀ c ∈ Nat.toDigits 10 n, c.isDigit = true := fun _ _ =>
    Nat.isDigit_of_mem_toDigits (by omega) (by omega)
  have hpoint : ∀ n, '.' ∉ Nat.toDigits 10 n := fun n hmem => by cases hdigits n _ hmem
  have hnumber : ∀ {m n}, Nat.toDigits 10 m = Nat.toDigits 10 n → m = n := fun heq => by
    simpa [Nat.ofDigitChars_ten_toDigits] using congrArg (Nat.ofDigitChars 10 · 0) heq
  simp only [toList_render, List.append_assoc, List.cons_append] at h
  obtain ⟨hlo, htail⟩ := Text.append_mark_inj (hpoint _) (hpoint _) h
  have hhi := List.tail_eq_of_cons_eq htail
  obtain ⟨htake, hdrop⟩ := Lexeme.takeWhile_run (hdigits s.hi) hrest
  obtain ⟨htake', hdrop'⟩ := Lexeme.takeWhile_run (hdigits s'.hi) hrest'
  rw [hhi] at htake hdrop
  refine ⟨?_, hdrop.symm.trans hdrop'⟩
  have hlo' := hnumber hlo
  have hhi' := hnumber (htake.symm.trans htake')
  ext
  · exact hlo'
  · simp only [Span.hi] at hhi'
    omega

namespace Outline
open Cpp (IsVariable indentation)

/-! Labels. -/

/-- What a line is about. -/
inductive Label where
  | literal (value : Literal)
  | name (x : String)
  | operator (op : BinaryOp)
  | declare (x : String) (ty : Ty)
  | print
  | test
  | block
  | header (h : String)

namespace Label

def text : Label → String
  | literal value => value.outline
  | name x => "ident " ++ x
  | operator op => "binary " ++ op.name
  | declare x ty => "var " ++ x ++ ": " ++ ty.name
  | print => "print"
  | test => "if"
  | block => "block"
  | header h => "import <" ++ h ++ ">"

inductive Readable : Label → Prop where
  | int (n : Int) : Readable (.literal (.int n))
  | float {x : Binary64} (hx : x.isFinite = true) : Readable (.literal (.float x))
  | string (s : String) : Readable (.literal (.string s))
  | bool (b : Bool) : Readable (.literal (.bool b))
  | name {x : String} (hx : IsVariable x) : Readable (.name x)
  | operator (op : BinaryOp) : Readable (.operator op)
  | declare {x : String} (hx : IsVariable x) (ty : Ty) : Readable (.declare x ty)
  | print : Readable .print
  | test : Readable .test
  | block : Readable .block
  | header {h : String} (hchars : ∀ c ∈ h.toList, c ≠ ' ' ∧ c ≠ '\n') : Readable (.header h)

/-- The kinds of labels, by their first words. -/
inductive Form where
  | int | float | string | bool | name | operator | declare | print | test | block | header

def Form.word : Form → List Char
  | int => "int".toList
  | float => "float".toList
  | string => "string".toList
  | bool => "bool".toList
  | name => "ident".toList
  | operator => "binary".toList
  | declare => "var".toList
  | print => "print".toList
  | test => "if".toList
  | block => "block".toList
  | header => "import".toList

theorem Form.word_injective {f g : Form} (h : f.word = g.word) : f = g := by
  revert h
  cases f <;> cases g <;> first | exact fun _ => rfl | exact fun h => absurd h (by decide)

def form : Label → Form
  | literal (.int _) => .int
  | literal (.float _) => .float
  | literal (.string _) => .string
  | literal (.bool _) => .bool
  | name _ => .name
  | operator _ => .operator
  | declare _ _ => .declare
  | print => .print
  | test => .test
  | block => .block
  | header _ => .header

theorem before_text (l : Label) (rest : List Char) :
    Text.before ' ' (l.text.toList ++ ' ' :: rest) = l.form.word := by
  cases l with
  | literal v =>
    cases v <;> simp only [text, Literal.outline, String.toList_append, List.append_assoc] <;> rfl
  | name | operator | declare | print | test | block | header =>
    simp only [text, String.toList_append, List.append_assoc]
    rfl

/-- Numbers and words. -/
def Atomic (text : String) : Prop := ∀ c ∈ text.toList, Cpp.isAtomic c = true

theorem Atomic.not_mem {text : String} (h : Atomic text) {c : Char} (hc : Cpp.isAtomic c = false) :
    c ∉ text.toList := by
  intro hmem
  rw [h c hmem] at hc
  cases hc

theorem atomic_int (n : Int) : Atomic (toString n) := by
  intro c hmem
  refine (Cpp.Expr.IsAtom.int n).atomic c ?_
  rw [Cpp.Expr.render_int, String.toList_append]
  exact List.mem_append_left _ hmem

theorem atomic_float {x : Binary64} (hx : x.isFinite = true) : Atomic x.render := by
  have hatomic := (Cpp.Expr.IsAtom.double hx).atomic
  rwa [Cpp.Expr.render_double hx] at hatomic

theorem atomic_bool (b : Bool) : Atomic (toString b) :=
  List.all_eq_true.mp (by cases b <;> decide)

theorem atomic_operator (op : BinaryOp) : Atomic op.name :=
  List.all_eq_true.mp (by cases op <;> decide)

theorem atomic_ty (ty : Ty) : Atomic ty.name := List.all_eq_true.mp (by cases ty <;> decide)

/-- A number or word is over before the first blank. -/
theorem Atomic.unique {text text' : String} (h : Atomic text) (h' : Atomic text')
    {rest rest' : List Char} (heq : text.toList ++ ' ' :: rest = text'.toList ++ ' ' :: rest') :
    text = text' ∧ rest = rest' := by
  obtain ⟨htext, hrest⟩ := Text.append_mark_inj (h.not_mem rfl) (h'.not_mem rfl) heq
  exact ⟨String.toList_inj.mp htext, hrest⟩

theorem bool_injective {b b' : Bool} (h : toString b = toString b') : b = b' := by
  revert h
  cases b <;> cases b' <;> decide

theorem operator_injective {op op' : BinaryOp} (h : op.name = op'.name) : op = op' := by
  revert h
  cases op <;> cases op' <;> decide

theorem ty_injective {ty ty' : Ty} (h : ty.name = ty'.name) : ty = ty' := by
  revert h
  cases ty <;> cases ty' <;> decide

/-- A label shows what it is about, and where it ends if a blank follows. -/
theorem Readable.unique {l l' : Label} (hl : l.Readable) (hl' : l'.Readable)
    {rest rest' : List Char} (h : l.text.toList ++ ' ' :: rest = l'.text.toList ++ ' ' :: rest') :
    l = l' ∧ rest = rest' := by
  have hform : l.form = l'.form := Form.word_injective (by
    rw [← before_text l rest, h, before_text])
  -- Only labels of the same form are left, and the same word is taken off both.
  cases hl <;> cases hl' <;> cases hform
  all_goals simp only [text, Literal.outline, String.toList_append, List.append_assoc,
    List.append_cancel_left_eq] at h
  case int.int n n' =>
    obtain ⟨hsame, hrest⟩ := (atomic_int n).unique (atomic_int n') h
    rw [← Text.readInteger_toString n, hsame, Text.readInteger_toString]
    exact ⟨rfl, hrest⟩
  case float.float x hx x' hx' =>
    obtain ⟨hsame, hrest⟩ := (atomic_float hx).unique (atomic_float hx') h
    rw [Binary64.render_injective hx hx' hsame]
    exact ⟨rfl, hrest⟩
  case string.string s s' =>
    obtain ⟨rfl, hrest⟩ := Text.quotedString_unique h
    exact ⟨rfl, List.tail_eq_of_cons_eq hrest⟩
  case bool.bool b b' =>
    obtain ⟨hsame, hrest⟩ := (atomic_bool b).unique (atomic_bool b') h
    rw [bool_injective hsame]
    exact ⟨rfl, hrest⟩
  case name.name x hx x' hx' =>
    obtain ⟨rfl, hrest⟩ := Atomic.unique hx.atomic hx'.atomic h
    exact ⟨rfl, hrest⟩
  case operator.operator op op' =>
    obtain ⟨hsame, hrest⟩ := (atomic_operator op).unique (atomic_operator op') h
    rw [operator_injective hsame]
    exact ⟨rfl, hrest⟩
  case declare.declare x hx ty x' hx' ty' =>
    obtain ⟨hname, hmore⟩ := Text.append_mark_inj (hx.not_mem rfl) (hx'.not_mem rfl) h
    obtain ⟨hty, hrest⟩ := (atomic_ty ty).unique (atomic_ty ty') (List.tail_eq_of_cons_eq hmore)
    rw [String.toList_inj.mp hname, ty_injective hty]
    exact ⟨rfl, hrest⟩
  case print.print | test.test | block.block => exact ⟨rfl, List.tail_eq_of_cons_eq h⟩
  case header.header g hchars g' hchars' =>
    have hblank : ∀ {g : String}, (∀ c ∈ g.toList, c ≠ ' ' ∧ c ≠ '\n') →
        ' ' ∉ g.toList ++ ">".toList := fun hg hmem => by
      rcases List.mem_append.mp hmem with hmem | hmem
      · exact (hg _ hmem).1 rfl
      · cases List.mem_singleton.mp hmem
    rw [← List.append_assoc, ← List.append_assoc] at h
    obtain ⟨hsame, hrest⟩ := Text.append_mark_inj (hblank hchars) (hblank hchars') h
    rw [String.toList_inj.mp (List.append_cancel_right hsame)]
    exact ⟨rfl, hrest⟩

theorem Readable.newline_not_mem {l : Label} (h : l.Readable) : '\n' ∉ l.text.toList := by
  have hnewline : Cpp.isAtomic '\n' = false := rfl
  cases h with
  | int n =>
    rw [text, Literal.outline, String.toList_append, List.mem_append, not_or]
    exact ⟨by decide, (atomic_int n).not_mem hnewline⟩
  | float hx => simp [text, Literal.outline, (atomic_float hx).not_mem hnewline]
  | string s => simp [text, Literal.outline, Text.newline_not_mem_quotedString]
  | bool b => simp [text, Literal.outline, (atomic_bool b).not_mem hnewline]
  | name hx => simp [text, hx.not_mem hnewline]
  | operator op => simp [text, (atomic_operator op).not_mem hnewline]
  | declare hx ty => simp [text, hx.not_mem hnewline, (atomic_ty ty).not_mem hnewline]
  | print | test | block => decide
  | @header h hchars =>
    have hnone : '\n' ∉ h.toList := fun hmem => (hchars '\n' hmem).2 rfl
    simp [text, hnone]

theorem head?_text_append_ne (l : Label) (rest : List Char) :
    (l.text.toList ++ rest).head? ≠ some ' ' := by
  cases l with
  | literal v => cases v <;> simp [text, Literal.outline]
  | name | operator | declare | print | test | block | header => simp [text]

end Label

/-! Lines. -/

/-- The text of a line: what it is about, its place, and a note. -/
def heading (label : Label) (span : Span) (note : String) : String :=
  label.text ++ " (" ++ span.render ++ note ++ ")"

/-- What may stand after a place: no digit that the place could go on with, and no newline. -/
structure IsNote (note : String) : Prop where
  head : ∀ c ∈ note.toList.head?, c.isDigit = false
  newline_not_mem : '\n' ∉ note.toList

/-- Notes that show the information they are about. -/
structure IsMark {α : Type} (mark : α → String) : Prop where
  isNote (a : α) : IsNote (mark a)
  injective {a b : α} (h : mark a = mark b) : a = b

theorem isNote_empty : IsNote "" := ⟨by simp, by simp⟩

theorem isMark_untyped : IsMark untyped := ⟨fun _ => isNote_empty, fun _ => rfl⟩

theorem isMark_typed : IsMark typed := by
  refine ⟨fun ty => ⟨?_, ?_⟩, ?_⟩
  · intro c hc
    have hblank : ' ' = c := by simpa [typed] using hc
    rw [← hblank]
    rfl
  · have hname := (Label.atomic_ty ty).not_mem (show Cpp.isAtomic '\n' = false from rfl)
    simp [typed, hname]
  · intro ty ty' h
    have htext := congrArg String.toList h
    rw [typed, typed, String.toList_append, String.toList_append] at htext
    exact Label.ty_injective (String.toList_inj.mp (List.append_cancel_left htext))

theorem toList_heading (label : Label) (span : Span) (note : String) :
    (heading label span note).toList =
      label.text.toList ++ ' ' :: '(' :: (span.render.toList ++ (note.toList ++ [')'])) := by
  simp [heading]

theorem IsNote.head_append {note : String} (h : IsNote note) :
    ∀ c ∈ (note.toList ++ [')']).head?, c.isDigit = false := by
  intro c hc
  have hhead := h.head
  cases htext : note.toList with
  | nil =>
    rw [htext] at hc
    cases hc
    rfl
  | cons d more =>
    rw [htext] at hc hhead
    exact hhead c hc

/-- A line shows what it is about, its place and its note. -/
theorem heading_unique {label label' : Label} {span span' : Span} {note note' : String}
    (hlabel : label.Readable) (hlabel' : label'.Readable) (hnote : IsNote note)
    (hnote' : IsNote note') (h : heading label span note = heading label' span' note') :
    label = label' ∧ span = span' ∧ note = note' := by
  have htext := congrArg String.toList h
  rw [toList_heading, toList_heading] at htext
  obtain ⟨hsame, hplace⟩ := hlabel.unique hlabel' htext
  obtain ⟨hspan, hrest⟩ := Span.render_unique hnote.head_append hnote'.head_append
    (List.tail_eq_of_cons_eq hplace)
  exact ⟨hsame, hspan, String.toList_inj.mp (List.append_cancel_right hrest)⟩

theorem newline_not_mem_heading {label : Label} {note : String} (hlabel : label.Readable)
    (hnote : IsNote note) (span : Span) : '\n' ∉ (heading label span note).toList := by
  have hdigits : ∀ n, '\n' ∉ Nat.toDigits 10 n := fun n hmem => by
    cases Nat.isDigit_of_mem_toDigits (by omega) (by omega) hmem
  simp [toList_heading, Span.toList_render, hlabel.newline_not_mem, hnote.newline_not_mem, hdigits]

theorem indentation_line (depth : Nat) {t : String} (ht : t.toList.head? ≠ some ' ') :
    indentation (line depth t) = 2 * depth := by
  rw [indentation, line, (Text.blanks_indented _ ht).1, List.length_replicate]

theorem indentation_heading (depth : Nat) (label : Label) (span : Span) (note : String) :
    indentation (line depth (heading label span note)) = 2 * depth := by
  refine indentation_line depth ?_
  rw [toList_heading]
  exact label.head?_text_append_ne _

/-- Lines that do not go on with anything that stands `depth` levels in. -/
def Ends (depth : Nat) (lines : List String) : Prop :=
  ∀ l ∈ lines.head?, indentation l < 2 * depth

theorem Ends.mono {depth depth' : Nat} {lines : List String} (h : Ends depth lines)
    (hle : depth ≤ depth') : Ends depth' lines := fun l hl => by
  have hl' := h l hl
  omega

end Outline

end HumanScript
