import HumanScript.Proofs.ClosedText
import HumanScript.Proofs.Parts
import HumanScript.Proofs.Recovery

/-! The layout of code. Whatever program is lowered, its code is well bracketed and indented: a
parenthesis is closed on its own line, a brace opens a level and the next one closes it, and every
line stands as far in as braces are open. -/
namespace HumanScript.Cpp

/-! Lines. -/

/-- The number of blanks at the front of a line. -/
def indentation (l : String) : Nat := (l.toList.takeWhile (· = ' ')).length

/-- A line of code, with `d` braces open before it and `e` after it. It stands as far in as braces
are open, not counting one that it closes at its start. The condition of a test is in exactly one
pair of parentheses. -/
structure LaidLine (d : Nat) (l : String) (e : Nat) : Prop extends Closed l where
  braces : braces.nesting d (shown l) = some e
  indent : indentation l = 4 * if firstMark l = some '\x7d' then d - 1 else d
  test : ∀ depth c, l = line depth ("if " ++ c ++ " \x7b") → Cpp.parens.WrappedOnce (shown c)

/-- Lines of code one after the other, with `d` braces open before the first of them. -/
inductive Laid : Nat → List String → Nat → Prop where
  | nil (d : Nat) : Laid d [] d
  | cons {d e f : Nat} {l : String} {ls : List String} (hl : LaidLine d l e) (hls : Laid e ls f) :
      Laid d (l :: ls) f

namespace Laid
variable {d e f : Nat} {ls ms : List String}

theorem append (hls : Laid d ls e) (hms : Laid e ms f) : Laid d (ls ++ ms) f := by
  induction hls with
  | nil => exact hms
  | cons hl _ ih => exact .cons hl (ih hms)

theorem single {l : String} (h : LaidLine d l e) : Laid d [l] e := .cons h (.nil e)

/-- Over all lines braces nest as they do line by line. -/
theorem nesting_unlines (h : Laid d ls e) :
    braces.nesting d (shown (Text.unlines ls)) = some e := by
  induction h with
  | nil => rfl
  | @cons d e f l ls hl _ ih =>
    have hshown : shown (Text.unlines (l :: ls)) = shown l ++ '\n' :: shown (Text.unlines ls) := by
      rw [shown, Text.toList_unlines_cons, hl.outside]
      rfl
    rw [hshown, Brackets.nesting_append, hl.braces, Option.bind_some]
    exact ih

end Laid

/-- Texts that start differently are not tests. -/
theorem ne_test {t : String} (h : t.toList.take 2 ≠ "if".toList) (c : String) :
    t ≠ "if " ++ c ++ " \x7b" := by
  rintro rfl
  apply h
  simp

/-- Blanks in front of a text change neither its brackets nor what it says. -/
theorem LaidLine.of_text {t : String} {d e depth : Nat} (ht : Closed t)
    (hbraces : Cpp.braces.nesting d (shown t) = some e) (hhead : t.toList.head? ≠ some ' ')
    (hdepth : depth = if t.toList.head? = some '\x7d' then d - 1 else d)
    (htest : ∀ c, t = "if " ++ c ++ " \x7b" → Cpp.parens.WrappedOnce (shown c)) :
    LaidLine d (line depth t) e := by
  have hblanks : Tidy (String.ofList (List.replicate (4 * depth) ' ')) := by
    refine .of_bare (List.all_eq_true.mpr ?_)
    intro c hc
    rw [String.toList_ofList] at hc
    rw [List.eq_of_mem_replicate hc]
    rfl
  have hshown : shown (line depth t) =
      shown (String.ofList (List.replicate (4 * depth) ' ')) ++ shown t :=
    shown_append hblanks.toClosed t
  refine ⟨hblanks.toClosed.append ht, ?_, ?_, ?_⟩
  · rw [hshown, Brackets.nesting_append,
      Brackets.nesting_of_not_mem hblanks.opening hblanks.closing, Option.bind_some, hbraces]
  · rw [indentation, (blanks_line depth hhead).1, List.length_replicate, firstMark_line depth hhead,
      hdepth]
  · intro depth' c hline
    have htext := (blanks_line depth hhead).2
    have hif : ("if " ++ c ++ " \x7b").toList.head? ≠ some ' ' := by simp
    rw [hline, (blanks_line depth' hif).2] at htext
    exact htest c (String.toList_inj.mp htext).symm

/-- A line without braces. -/
theorem Tidy.laidLine {t : String} (ht : Tidy t)
    (hhead : t.toList.head? ∉ [some ' ', some '\x7d']) (htest : t.toList.take 2 ≠ "if".toList)
    (d : Nat) : LaidLine d (line d t) d := by
  rw [List.mem_cons, List.mem_singleton, not_or] at hhead
  refine .of_text ht.toClosed ?_ hhead.1 ?_ fun c hc => absurd hc (ne_test htest c)
  · exact Brackets.nesting_of_not_mem ht.opening ht.closing d
  · rw [if_neg hhead.2]

/-- A line that ends by opening a brace. -/
theorem Tidy.laidLine_opening {t : String} (ht : Tidy t)
    (hhead : (t ++ "\x7b").toList.head? ∉ [some ' ', some '\x7d'])
    (htest : ∀ c, t ++ "\x7b" = "if " ++ c ++ " \x7b" → Cpp.parens.WrappedOnce (shown c))
    (d : Nat) : LaidLine d (line d (t ++ "\x7b")) (d + 1) := by
  have hbrace : Closed "\x7b" :=
    .of_not_mem (by decide) (by decide) (by decide) (by decide)
  rw [List.mem_cons, List.mem_singleton, not_or] at hhead
  refine .of_text (ht.toClosed.append hbrace) ?_ hhead.1 ?_ htest
  · rw [shown_append ht.toClosed, Brackets.nesting_append,
      Brackets.nesting_of_not_mem ht.opening ht.closing]
    exact Brackets.nesting_opening Cpp.braces d []
  · rw [if_neg hhead.2]

theorem laidLine_close (d : Nat) : LaidLine (d + 1) (line d "\x7d") d := by
  have hclosed : Closed "\x7d" :=
    .of_not_mem (by decide) (by decide) (by decide) (by decide)
  refine .of_text hclosed ?_ (by decide) ?_ fun c hc => absurd hc (ne_test (by decide) c)
  · exact Brackets.nesting_closing Cpp.braces d []
  · rfl

theorem laidLine_else (d : Nat) : LaidLine (d + 1) (line d "\x7d else \x7b") (d + 1) := by
  have hclosed : Closed "\x7d else \x7b" :=
    .of_not_mem (by decide) (by decide) (by decide) (by decide)
  refine .of_text hclosed ?_ (by decide) ?_ fun c hc => absurd hc (ne_test (by decide) c)
  · exact Brackets.nesting_closing Cpp.braces d " else \x7b".toList
  · rfl

/-! Statements. -/

namespace Stmt

theorem laidLine_declare (ty : CType) {name : String} {init : Expr} (hname : IsWord name)
    (hinit : ∀ x ∈ init.names, IsWord x) (d : Nat) :
    LaidLine d (line d (ty.render ++ " " ++ name ++ " = " ++ init.render ++ ";")) d := by
  have hty : Tidy ty.render := by cases ty <;> exact .of_bare rfl
  have hblank : Tidy " " := .of_bare rfl
  have hequals : Tidy " = " := .of_bare rfl
  have hend : Tidy ";" := .of_bare rfl
  have hword : Tidy name := .of_bare (all_isBare_of_isAtomic hname.atomic)
  have htext := ((((hty.append hblank).append hword).append hequals).append
    (Expr.tidy hinit)).append hend
  apply htext.laidLine
  · cases ty <;> simp [CType.render]
  · cases ty <;> simp [CType.render]

theorem laidLine_print {value : Expr} (h : ∀ x ∈ value.names, IsWord x) (d : Nat) :
    LaidLine d (line d ("std::cout << " ++ value.render ++ " << std::endl;")) d := by
  have hout : Tidy "std::cout << " := .of_bare rfl
  have hend : Tidy " << std::endl;" := .of_bare rfl
  apply ((hout.append (Expr.tidy h)).append hend).laidLine
  · simp
  · simp

/-- The condition is all that stands between the word and the brace. -/
theorem laidLine_test {c : Expr} (h : ∀ x ∈ c.names, IsWord x) (d : Nat) :
    LaidLine d (line d ("if " ++ c.renderCondition ++ " \x7b")) (d + 1) := by
  have hif : Tidy "if " := .of_bare rfl
  have hblank : Tidy " " := .of_bare rfl
  have htext : "if " ++ c.renderCondition ++ " \x7b" =
      "if " ++ c.renderCondition ++ " " ++ "\x7b" := by
    rw [← String.toList_inj]
    simp
  rw [htext]
  apply ((hif.append (Expr.tidy_condition h)).append hblank).laidLine_opening
  · simp
  · intro other hother
    have hsame : c.renderCondition = other := by
      rw [← htext, ← String.toList_inj] at hother
      simp only [String.toList_append] at hother
      exact String.toList_inj.mp (List.append_cancel_left (List.append_cancel_right hother))
    rw [← hsame]
    exact Expr.wrappedOnce_condition h

theorem laidLine_open (d : Nat) : LaidLine d (line d "\x7b") (d + 1) := by
  have hempty : Tidy "" := .of_bare rfl
  apply hempty.laidLine_opening
  · decide
  · exact fun c hc => absurd hc (ne_test (by decide) c)

mutual

/-- A statement closes what it opens, and all its lines stand where they belong. -/
theorem laid {s : Stmt} (h : Words s.events) (depth : Nat) :
    Laid depth (s.lines depth) depth := by
  have hclose : Laid (depth + 1) [line depth "\x7d"] depth := .single (laidLine_close depth)
  cases s with
  | declare ty name init =>
    rw [events, words_append, words_uses] at h
    exact .single (laidLine_declare ty (h.2 name (.inl (by simp))) h.1 depth)
  | print value =>
    rw [events, words_uses] at h
    exact .single (laidLine_print h depth)
  | ifThen condition thenArm =>
    rw [events, words_append, words_braced, words_uses] at h
    have hthen := laidAll h.2 (depth + 1)
    exact (Laid.cons (laidLine_test h.1 depth) hthen).append hclose
  | ifElse condition thenArm elseArm =>
    rw [events, words_append, words_append, words_braced, words_braced, words_uses] at h
    have hthen := laidAll h.1.2 (depth + 1)
    have helse := Laid.cons (laidLine_else depth) (laidAll h.2 (depth + 1))
    exact ((Laid.cons (laidLine_test h.1.1 depth) hthen).append helse).append hclose
  | block body =>
    rw [events, words_braced] at h
    exact (Laid.cons (laidLine_open depth) (laidAll h (depth + 1))).append hclose

theorem laidAll {body : List Stmt} (h : Words (eventsAll body)) (depth : Nat) :
    Laid depth (linesAll depth body) depth := by
  cases body with
  | nil => exact .nil depth
  | cons s body =>
    rw [eventsAll, words_append] at h
    exact (laid h.1 depth).append (laidAll h.2 depth)

end

end Stmt

/-! Programs. -/

theorem Laid.of_forall {d : Nat} {ls : List String} (h : ∀ l ∈ ls, LaidLine d l d) :
    Laid d ls d := by
  induction ls with
  | nil => exact .nil d
  | cons l ls ih =>
    rw [List.forall_mem_cons] at h
    exact .cons h.1 (ih h.2)

@[simp] theorem line_zero (t : String) : line 0 t = t := by
  simp [line, Text.indented]

namespace Headers

/-- All headers that a program may need though it does not name them. -/
def standard : List AddedHeader :=
  [⟨"string", "Auto-included for text values"⟩, ⟨"iostream", "Auto-included for 'says'"⟩,
    ⟨"iomanip", "Auto-included for std::boolalpha"⟩, ⟨"string", "Auto-included for std::to_string"⟩]

theorem added_require_subset {h : Headers} {known : List AddedHeader} {header reason : String}
    (hknown : ⟨header, reason⟩ ∈ known) (hh : h.added ⊆ known) :
    (h.require header reason).added ⊆ known := by
  unfold require
  split
  · exact hh
  · exact List.append_subset.mpr ⟨hh, List.cons_subset.mpr ⟨hknown, List.nil_subset _⟩⟩

theorem added_ofProgram_subset (p : HumanScript.Program Ty) : (ofProgram p).added ⊆ standard := by
  have hprint : ∀ h : Headers, h.added ⊆ standard →
      (((h.require "iostream" "Auto-included for 'says'").require
        "iomanip" "Auto-included for std::boolalpha").require
        "string" "Auto-included for std::to_string").added ⊆ standard := by
    intro h hh
    apply added_require_subset (by decide)
    apply added_require_subset (by decide)
    exact added_require_subset (by decide) hh
  have htext : ∀ h : Headers, h.added ⊆ standard →
      (h.require "string" "Auto-included for text values").added ⊆ standard := by
    intro h hh
    exact added_require_subset (by decide) hh
  unfold ofProgram
  dsimp only
  split_ifs
  · exact hprint _ (htext _ (List.nil_subset _))
  · exact hprint _ (List.nil_subset _)
  · exact htext _ (List.nil_subset _)
  · exact List.nil_subset _

theorem laid {h : Headers} (hnamed : ∀ header ∈ h.named, header.toList.all isBare = true)
    (hadded : h.added ⊆ standard) : Laid 0 h.lines 0 := by
  have hstandard : ∀ a ∈ standard, (addedLine a).toList.all isBare = true := by decide
  refine .of_forall fun l hl => ?_
  rw [← line_zero l]
  rcases mem_lines hl with ⟨header, hmem, rfl⟩ | ⟨a, ha, rfl⟩ | rfl
  · have hopen : Tidy "#include <" := .of_bare rfl
    have hheader : Tidy header := .of_bare (hnamed header hmem)
    have hclose : Tidy ">" := .of_bare rfl
    apply ((hopen.append hheader).append hclose).laidLine
    · simp
    · simp
  · have htext : Tidy (addedLine a) := .of_bare (hstandard a (hadded ha))
    apply htext.laidLine
    · simp [addedLine]
    · simp [addedLine]
  · have hempty : Tidy "" := .of_bare rfl
    apply hempty.laidLine
    · decide
    · decide

end Headers

namespace Program

theorem laidLine_main : LaidLine 0 "int main() \x7b" 1 := by
  have hmain : Tidy "int main" := .of_bare rfl
  have hempty : Tidy "" := .of_bare rfl
  have hblank : Tidy " " := .of_bare rfl
  rw [← line_zero "int main() \x7b"]
  apply ((hmain.append hempty.wrap).append hblank).laidLine_opening
  · decide
  · exact fun c hc => absurd hc (ne_test (by decide) c)

theorem laid_mainLines {q : Program} (h : Words (Stmt.eventsAll q.body)) :
    Laid 1 q.mainLines 1 := by
  have hboolalpha : Tidy "std::cout << std::boolalpha;" := .of_bare rfl
  have hreturn : Tidy "return 0;" := .of_bare rfl
  have hfirst : Laid 1 (if q.headers.includes "iostream" then [boolalphaLine] else []) 1 := by
    split
    · exact .single (hboolalpha.laidLine (by decide) (by decide) 1)
    · exact .nil 1
  have hlast : Laid 1 [line 1 "return 0;"] 1 :=
    .single (hreturn.laidLine (by decide) (by decide) 1)
  exact hfirst.append ((Stmt.laidAll h 1).append hlast)

theorem laid {q : Program} (hnamed : ∀ header ∈ q.headers.named, header.toList.all isBare = true)
    (hadded : q.headers.added ⊆ Headers.standard) (h : Words (Stmt.eventsAll q.body)) :
    Laid 0 q.lines 0 := by
  have hbanner : Tidy banner := .of_bare rfl
  have hempty : Tidy "" := .of_bare rfl
  have htop : Laid 0 [banner, ""] 0 := by
    have hfirst := hbanner.laidLine (by decide) (by decide) 0
    have hsecond := hempty.laidLine (by decide) (by decide) 0
    rw [line_zero] at hfirst hsecond
    exact .cons hfirst (.single hsecond)
  have hclose := laidLine_close 0
  rw [line_zero] at hclose
  rw [lines_eq]
  exact ((htop.append (Headers.laid hnamed hadded)).append
    (.cons laidLine_main (laid_mainLines h))).append (.single hclose)

end Program

end HumanScript.Cpp

namespace HumanScript

/-! Code outside of parentheses. -/

/-- An operation stands in parentheses, and other code has no operators outside of them. -/
theorem Expr.outer_toCpp {e : Expr Ty} (h : ∀ x ∈ e.names, Cpp.IsWord x) {c : Char}
    (hc : c ∈ ['+', '=', '?']) : c ∉ Cpp.parens.outer 0 (Cpp.shown e.toCpp.render) := by
  have hatomic : Cpp.isAtomic c = false := by
    simp only [List.mem_cons, List.not_mem_nil, or_false] at hc
    rcases hc with rfl | rfl | rfl <;> rfl
  have hbare : ∀ {code : Cpp.Expr}, code.IsBareCode →
      c ∉ Cpp.parens.outer 0 (Cpp.shown code.render) := by
    intro code hcode
    have hall := Cpp.all_isBare_of_isAtomic hcode.atomic
    rw [Cpp.shown_of_bare hall, Cpp.Brackets.outer_of_not_mem (Cpp.not_mem_of_bare hall rfl)
      (Cpp.not_mem_of_bare hall rfl)]
    intro hmem
    rw [hcode.atomic c hmem] at hatomic
    cases hatomic
  cases e with
  | literal value span ty =>
    cases value with
    | int n => exact hbare (.int n)
    | float x => exact hbare (.double x)
    | bool b => exact hbare (.bool b)
    | string s =>
      have hshown : Cpp.shown (Cpp.stringLiteral s) = ['"', '"'] := Cpp.shown_stringLiteral s
      change c ∉ Cpp.parens.outer 0 (Cpp.shown (Cpp.stringLiteral s))
      rw [hshown, Cpp.Brackets.outer_of_not_mem (by decide) (by decide)]
      intro hquote
      have hnone : '"' ∉ ['+', '=', '?'] := by decide
      simp only [List.mem_cons, List.not_mem_nil, or_false, or_self] at hquote
      exact hnone (hquote ▸ hc)
  | name ident span ty => exact hbare (.name (h ident.name (List.mem_singleton.mpr rfl)))
  | binary op lhs rhs span ty =>
    obtain ⟨left, right, hcode, -, -⟩ := toCpp_binary op lhs rhs span ty
    have hnames := names_toCpp (binary op lhs rhs span ty)
    rw [hcode, Cpp.Expr.names] at hnames
    rw [← hnames, List.forall_mem_append] at h
    have htidy := Cpp.Expr.tidy_operation op (Cpp.Expr.tidy h.1) (Cpp.Expr.tidy h.2)
    have hwrapped : Cpp.parens.Wrapped (Cpp.shown (Cpp.Expr.binary op left right).render) := by
      rw [Cpp.Expr.render_eq_operation]
      exact ⟨_, htidy.shown_parens, htidy.parens⟩
    rw [hcode, hwrapped.outer_eq]
    exact List.not_mem_nil

/-! Conditions. -/

section Tests
open Cpp (HasLine)

def Stmt.condition? {α : Type} : Stmt α → Option (Expr α)
  | ifThen condition _ _ | ifElse condition _ _ _ => some condition
  | _ => none

/-- The line that a condition is tested on. -/
def Expr.testLine (c : Expr Ty) : String := "if " ++ c.toCpp.renderCondition ++ " \x7b"

theorem Stmt.hasLine_test {t : Stmt Ty} {c : Expr Ty} {r : Cpp.Stmt}
    (hc : t.condition? = some c) (hr : t.toCpp = .ok r) (depth : Nat) :
    HasLine (r.lines depth) c.testLine := by
  cases t with
  | ifThen condition thenArm span =>
    cases hc
    obtain ⟨a, -, rfl⟩ := toCpp_ifThen_iff.mp hr
    exact ⟨depth, by simp [Cpp.Stmt.lines, Expr.testLine]⟩
  | ifElse condition thenArm elseArm span =>
    cases hc
    obtain ⟨a, -, b, -, rfl⟩ := toCpp_ifElse_iff.mp hr
    exact ⟨depth, by simp [Cpp.Stmt.lines, Expr.testLine]⟩
  | declare | print | block => cases hc

end Tests

/-! Programs as they can be written, whatever their types. -/

/-- A text that is read as a name. -/
def IsName (x : String) : Prop :=
  ∃ src, ∃ t ∈ (Lexed.ofSource src).tokens, t.kind = .identifier ∧ t.text = x

/-- A text that is read as the path of a header. -/
def IsHeader (header : String) : Prop :=
  ∃ src p, (Lexed.ofSource src).program = .ok p ∧ header ∈ p.imports.map Import.header

theorem IsName.isWord {x : String} (h : IsName x) : Cpp.IsWord x := by
  obtain ⟨src, t, ht, hkind, rfl⟩ := h
  exact Lexed.isWord_of_identifier ht hkind

theorem Lexeme.Front.all_isBare_of_path {l : Lexeme} {rest : List Char} (h : Front l rest)
    (hkind : l.kind ∈ Grammar.pathKinds) : l.text.all Cpp.isBare = true := by
  have hword : ∀ {cs : List Char}, (∀ c ∈ cs, continuesWord c = true) →
      cs.all Cpp.isBare = true := by
    intro cs hcs
    refine Cpp.all_isBare_of_isAtomic fun c hc => ?_
    simp [Cpp.isAtomic, hcs c hc]
  have hkinds : ∀ k ∈ [.float, .string, .unknown], k ∉ Grammar.pathKinds := by decide
  cases h with
  | mark hmark =>
    have hmarks : ∀ m ∈ marks, m.2 ∈ Grammar.pathKinds → m.1.all Cpp.isBare = true := by decide
    exact hmarks _ hmark hkind
  | word hc hmore _ =>
    rw [text_ofWord]
    exact hword (List.forall_mem_cons.mpr ⟨continuesWord_of_startsWord hc, hmore⟩)
  | int hdigits _ _ =>
    rw [text_ofDigits]
    refine hword fun c hc => ?_
    simp [continuesWord, Char.isAlphanum, hdigits.2 c hc]
  | float => exact absurd hkind (hkinds .float (by simp))
  | string | openString | openEscape => exact absurd hkind (hkinds .string (by simp))
  | unknown => exact absurd hkind (hkinds .unknown (by simp))

theorem IsHeader.all_isBare {header : String} (h : IsHeader header) :
    header.toList.all Cpp.isBare = true := by
  obtain ⟨src, p, hp, hmem⟩ := h
  obtain ⟨i, hi, rfl⟩ := List.mem_map.mp hmem
  obtain ⟨hplaced, -⟩ := Lexed.placed_of_program (fun t ht => Lexed.valueFits_of_mem ht) hp
  obtain ⟨ts, hts, himport⟩ := hplaced.nodes_within.1 i hi
  cases himport with
  | @use t o u v path _ _ _ hpath _ _ =>
    refine List.all_eq_true.mpr fun c hc => ?_
    rw [String.toList_join, List.mem_flatMap] at hc
    obtain ⟨_, htext, hc⟩ := hc
    obtain ⟨n, hn, rfl⟩ := List.mem_map.mp htext
    have htoken : n ∈ (Lexed.ofSource src).tokens := hts.subset (by simp [hn])
    obtain ⟨d, more, lo, rfl⟩ := Lexed.exists_scan_of_mem_ofChars htoken
    have hbare := (Lexeme.front_scan d more).all_isBare_of_path (hpath _ hn)
    rw [Lexeme.token, String.toList_ofList] at hc
    exact List.all_eq_true.mp hbare c hc

namespace Program

/-- All names are read as names, and all headers as paths. Nothing is said of the types. -/
structure Spelled (p : Program Ty) : Prop where
  declared : ∀ body ∈ p.body :: Stmt.bodiesAll p.body,
    ∀ x ∈ body.filterMap Stmt.declared?, IsName x
  used : ∀ x ∈ Stmt.usesAll p.body, IsName x
  imports : ∀ i ∈ p.imports, IsHeader i.header

theorem Spelled.words {p : Program Ty} {qs : List Cpp.Stmt} (h : p.Spelled)
    (hqs : Stmt.allToCpp p.body = .ok qs) : Cpp.Words (Cpp.Stmt.eventsAll qs) := by
  rintro x (hx | hx)
  · obtain ⟨body, hbody, hdeclared⟩ := Stmt.exists_body_of_declareAll hqs hx
    exact (h.declared body hbody x hdeclared).isWord
  · have hcount := List.count_pos_iff.mpr hx
    rw [Stmt.count_eventsAll hqs, List.count_pos_iff] at hcount
    exact (h.used x hcount).isWord

theorem toCpp_iff {p : Program Ty} {q : Cpp.Program} :
    p.toCpp = .ok q ↔ ∃ qs, Stmt.allToCpp p.body = .ok qs ∧ ⟨.ofProgram p, qs⟩ = q := by
  simp only [toCpp, Except.bind_eq_ok_iff, Except.pure_eq_ok_iff]

/-- Whatever the types in a program, its code is well bracketed and indented, line by line and as a
whole. Every condition is tested on a line of its own, and no expression shows an operator outside
of parentheses. -/
theorem toCpp_laid_out {p : Program Ty} {q : Cpp.Program} (hp : p.Spelled) (h : p.toCpp = .ok q) :
    Cpp.Laid 0 q.lines 0 ∧ Cpp.braces.Balanced (Cpp.shown q.render) ∧
      q.render = Text.unlines q.lines ∧
      q.lines = Cpp.banner :: "" :: q.headers.lines ++ "int main() \x7b" ::
        q.mainLines ++ ["\x7d"] ∧
      (∀ s ∈ Stmt.partsAll p.body, ∀ c, s.condition? = some c →
        Cpp.HasLine q.mainLines c.testLine) ∧
      ∀ e ∈ Stmt.exprsAll p.body, ∀ c ∈ ['+', '=', '?'],
        c ∉ Cpp.parens.outer 0 (Cpp.shown e.toCpp.render) := by
  obtain ⟨qs, hqs, rfl⟩ := toCpp_iff.mp h
  have hnamed : ∀ header ∈ (Cpp.Headers.ofProgram p).named,
      header.toList.all Cpp.isBare = true := by
    rw [named_headers]
    exact List.forall_mem_map.mpr fun i hi => (hp.imports i hi).all_isBare
  have hlaid : Cpp.Laid 0 (Cpp.Program.lines ⟨.ofProgram p, qs⟩) 0 :=
    Cpp.Program.laid hnamed (Cpp.Headers.added_ofProgram_subset p) (hp.words hqs)
  refine ⟨hlaid, hlaid.nesting_unlines, rfl, Cpp.Program.lines_eq _, ?_, ?_⟩
  · intro s hs c hc
    obtain ⟨r, hr, hwithin⟩ := Stmt.within_allToCpp hqs hs
    have hline := hwithin c.testLine (by simp [Cpp.Worded, Expr.testLine])
      (Stmt.hasLine_test hc hr) 1
    refine hline.mono fun l hl => ?_
    simp [Cpp.Program.mainLines, Cpp.Program.statementLines, hl]
  · intro e he c hc
    exact Expr.outer_toCpp (fun x hx => (hp.used x (Stmt.names_subset_usesAll he hx)).isWord) hc

/-- A text is compared with a variable that is not known, and the result is no truth value. -/
def mistypedCondition : Expr Ty :=
  .binary .eq (.literal (.string ")\n\x7b") .empty .number) (.name ⟨"x", .empty⟩ .empty .riel)
    .empty .void

/-- A truth value that starts as a sum, and a variable of no type. -/
def mistyped : Program Ty :=
  ⟨[⟨"a/b.h", .empty⟩], [.ifElse mistypedCondition
    (.declare .logic ⟨"y", .empty⟩ (.binary .add (.literal (.int 1) .empty .text)
      (.name ⟨"x", .empty⟩ .empty .number) .empty .logic) .empty)
    (.block [.print (.name ⟨"y", .empty⟩ .empty .unknown) .empty] .empty) .empty]⟩

theorem spelled_mistyped : mistyped.Spelled := by
  have hx : IsName "x" := ⟨"x", by decide +kernel⟩
  have hy : IsName "y" := ⟨"y", by decide +kernel⟩
  have hheader : IsHeader "a/b.h" := by
    have hread : (Lexed.ofSource "use <a/b.h>;").program.toOption.any
        (fun p => p.imports.map Import.header = ["a/b.h"]) = true := by
      decide +kernel
    simp only [Option.any_eq_true, decide_eq_true_eq, Except.toOption_eq_some_iff] at hread
    obtain ⟨p, hp, himports⟩ := hread
    exact ⟨_, p, hp, by simp [himports]⟩
  constructor
  · simp [mistyped, Stmt.bodiesAll, Stmt.bodies, Stmt.declared?, hy]
  · simp [mistyped, mistypedCondition, Stmt.usesAll, Stmt.uses, Expr.names, hx, hy]
  · simp [mistyped, hheader]

theorem toCpp_laid_out_mistyped :
    mistyped.Spelled ∧ ∃ q, mistyped.toCpp = .ok q ∧
      q.mainLines = ["    std::cout << std::boolalpha;", "    if (\")\\n\x7b\" == x) \x7b",
        "        bool y = (1LL + x);", "    \x7d else \x7b",
        "        std::cout << std::to_string(y) << std::endl;", "    \x7d", "    return 0;"] ∧
      Cpp.Laid 0 q.lines 0 ∧ Cpp.braces.Balanced (Cpp.shown q.render) ∧
      q.render = Text.unlines q.lines ∧
      Cpp.HasLine q.mainLines "if (\")\\n\x7b\" == x) \x7b" ∧
      '=' ∉ Cpp.parens.outer 0 (Cpp.shown "(\")\\n\x7b\" == x)") := by
  obtain ⟨hlaid, hbraces, hrender, -, htests, hexprs⟩ := toCpp_laid_out spelled_mistyped rfl
  refine ⟨spelled_mistyped, _, rfl, by decide +kernel, hlaid, hbraces, hrender, ?_, ?_⟩
  · exact htests _ (List.mem_append_left _ List.mem_cons_self) mistypedCondition rfl
  · refine hexprs mistypedCondition ?_ '=' (by decide)
    simp [mistyped, mistypedCondition, Stmt.exprsAll, Stmt.exprs, Expr.parts]

end Program

end HumanScript
