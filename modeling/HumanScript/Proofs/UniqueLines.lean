import HumanScript.Proofs.Mentions
import HumanScript.Proofs.UniqueReading

/-! Programs in code are read in one way, line by line. The first line of a statement shows what it
is, and a line that closes something is not the first line of a statement. -/
namespace HumanScript

namespace Text

/-- A list is cut in one way at the first of its marks. -/
theorem append_mark_inj {α : Type} {mark : α} {a b rest rest' : List α} (ha : mark ∉ a)
    (hb : mark ∉ b) (h : a ++ mark :: rest = b ++ mark :: rest') : a = b ∧ rest = rest' := by
  induction a generalizing b with
  | nil =>
    cases b with
    | nil => exact ⟨rfl, List.tail_eq_of_cons_eq h⟩
    | cons d b =>
      have hmark : mark = d := List.head_eq_of_cons_eq h
      exact absurd (hmark ▸ List.mem_cons_self) hb
  | cons c a ih =>
    cases b with
    | nil =>
      have hmark : c = mark := List.head_eq_of_cons_eq h
      exact absurd (hmark ▸ List.mem_cons_self) ha
    | cons d b =>
      obtain ⟨rfl, htail⟩ := List.cons.inj h
      obtain ⟨rfl, hrest⟩ := ih (fun hmem => ha (List.mem_cons_of_mem _ hmem))
        (fun hmem => hb (List.mem_cons_of_mem _ hmem)) htail
      exact ⟨rfl, hrest⟩

theorem head?_before {mark : Char} {cs : List Char} (h : before mark cs ≠ []) :
    (before mark cs).head? = cs.head? := by
  have hcs : before mark cs ++ cs.dropWhile (· ≠ mark) = cs := List.takeWhile_append_dropWhile
  rw [← List.head?_append_of_ne_nil _ h, hcs]

/-! Lines and blanks before them. -/

theorem indented_injective {blanks : Nat} {t t' : String}
    (h : indented blanks t = indented blanks t') : t = t' := by
  have htext := congrArg String.toList h
  rw [indented, indented, String.toList_append, String.toList_append] at htext
  exact String.toList_inj.mp (List.append_cancel_left htext)

/-- A line is cut in two where its blanks end. -/
theorem blanks_indented (blanks : Nat) {t : String} (ht : t.toList.head? ≠ some ' ') :
    (indented blanks t).toList.takeWhile (· = ' ') = List.replicate blanks ' ' ∧
      (indented blanks t).toList.dropWhile (· = ' ') = t.toList := by
  have hblanks : ∀ c ∈ List.replicate blanks ' ', decide (c = ' ') = true := by
    intro c hc
    rw [List.eq_of_mem_replicate hc]
    rfl
  have hhead : ∀ c ∈ t.toList.head?, decide (c = ' ') = false := by
    intro c hc
    rw [decide_eq_false_iff_not]
    rintro rfl
    exact ht hc
  rw [indented, String.toList_append, String.toList_ofList]
  exact Lexeme.takeWhile_run hblanks hhead

theorem newline_not_mem_indented {blanks : Nat} {t : String} (h : '\n' ∉ t.toList) :
    '\n' ∉ (indented blanks t).toList := by
  simp [indented, h]

theorem toList_unlines_cons (l : String) (ls : List String) :
    (unlines (l :: ls)).toList = l.toList ++ '\n' :: (unlines ls).toList := by
  simp [unlines]

/-- Lines are found again in their text. -/
theorem unlines_injective {ls ms : List String} (hls : ∀ l ∈ ls, '\n' ∉ l.toList)
    (hms : ∀ m ∈ ms, '\n' ∉ m.toList) (h : unlines ls = unlines ms) : ls = ms := by
  have hne : ∀ l (ls : List String), unlines [] ≠ unlines (l :: ls) := by
    intro l ls hnil
    have htext := congrArg String.toList hnil
    rw [toList_unlines_cons] at htext
    exact List.append_ne_nil_of_right_ne_nil _ (List.cons_ne_nil _ _) htext.symm
  induction ls generalizing ms with
  | nil =>
    cases ms with
    | nil => rfl
    | cons m ms => exact absurd h (hne m ms)
  | cons l ls ih =>
    cases ms with
    | nil => exact absurd h.symm (hne l ls)
    | cons m ms =>
      have htext := congrArg String.toList h
      rw [toList_unlines_cons, toList_unlines_cons] at htext
      obtain ⟨hline, hrest⟩ := append_mark_inj (hls l (by simp)) (hms m (by simp)) htext
      rw [String.toList_inj.mp hline, ih (fun t ht => hls t (List.mem_cons_of_mem _ ht))
        (fun t ht => hms t (List.mem_cons_of_mem _ ht)) (String.toList_inj.mp hrest)]

end Text

namespace Cpp

/-- The first line of a statement. -/
inductive Opening where
  | declare (ty : CType) (name : String) (init : Expr)
  | print (value : Expr)
  | test (condition : Expr)
  | brace

namespace Opening

def text : Opening → String
  | declare ty name init => ty.render ++ " " ++ name ++ " = " ++ init.render ++ ";"
  | print value => "std::cout << " ++ value.render ++ " << std::endl;"
  | test condition => "if " ++ condition.renderCondition ++ " \x7b"
  | brace => "\x7b"

inductive Readable : Opening → Prop where
  | declare (ty : CType) {x : String} {e : Expr} (hx : IsVariable x) (he : e.Readable) :
      Readable (.declare ty x e)
  | print {e : Expr} (he : e.Readable) : Readable (.print e)
  | test {c : Expr} (hc : c.Readable) : Readable (.test c)
  | brace : Readable .brace

/-- What kind of statement starts. -/
inductive Form where
  | declare (ty : CType)
  | print
  | test
  | brace

def form : Opening → Form
  | declare ty _ _ => .declare ty
  | print _ => .print
  | test _ => .test
  | brace => .brace

/-- What stands before the first blank. -/
def Form.word : Form → List Char
  | declare .int => "int".toList
  | declare .longLong => "long".toList
  | declare .string => "std::string".toList
  | declare .bool => "bool".toList
  | declare .double => "double".toList
  | declare .void => "void".toList
  | print => "std::cout".toList
  | test => "if".toList
  | brace => "\x7b".toList

theorem Form.word_injective {f g : Form} (h : f.word = g.word) : f = g := by
  revert h
  rcases f with ty | _ | _ | _ <;> try cases ty
  all_goals rcases g with ty | _ | _ | _ <;> try cases ty
  all_goals first | exact fun _ => rfl | exact fun h => absurd h (by decide)

theorem before_text (o : Opening) : Text.before ' ' o.text.toList = o.form.word := by
  cases o with
  | declare ty x e =>
    simp only [text, String.toList_append, List.append_assoc]
    cases ty <;> rfl
  | print e =>
    simp only [text, String.toList_append, List.append_assoc]
    rfl
  | test c =>
    simp only [text, String.toList_append, List.append_assoc]
    rfl
  | brace => rfl

theorem text_injective {o o' : Opening} (ho : Readable o) (ho' : Readable o')
    (h : o.text = o'.text) : o = o' := by
  have hform : o.form = o'.form := Form.word_injective (by rw [← before_text, h, before_text])
  have htext := congrArg String.toList h
  cases ho with
  | @declare ty x e hx he =>
    cases ho' with
    | @declare ty' x' e' hx' he' =>
      cases hform
      simp only [text, String.toList_append, List.append_assoc] at htext
      have hname : x.toList ++ ' ' :: ("= ".toList ++ (e.render.toList ++ ";".toList)) =
          x'.toList ++ ' ' :: ("= ".toList ++ (e'.render.toList ++ ";".toList)) :=
        List.append_cancel_left (List.append_cancel_left htext)
      obtain ⟨hsame, hinit⟩ := Text.append_mark_inj (hx.not_mem rfl) (hx'.not_mem rfl) hname
      obtain ⟨rfl, -⟩ := he.unique he' (ends_semicolon _) (ends_semicolon _)
        (List.append_cancel_left hinit)
      rw [String.toList_inj.mp hsame]
    | print | test | brace => cases hform
  | print he =>
    cases ho' with
    | print he' =>
      simp only [text, String.toList_append, List.append_assoc] at htext
      obtain ⟨rfl, -⟩ := he.unique he' (ends_blank _) (ends_blank _)
        (List.append_cancel_left htext)
      rfl
    | declare | test | brace => cases hform
  | test hc =>
    cases ho' with
    | test hc' =>
      simp only [text, String.toList_append, List.append_assoc] at htext
      obtain ⟨rfl, -⟩ := hc.unique_condition hc' (ends_blank _) (ends_blank _)
        (List.append_cancel_left htext)
      rfl
    | declare | print | brace => cases hform
  | brace =>
    cases ho' with
    | brace => rfl
    | declare | print | test => cases hform

end Opening

namespace Stmt

/-- The statements of compiled programs. -/
inductive Readable : Stmt → Prop where
  | declare (ty : CType) {x : String} {e : Expr} (hx : IsVariable x) (he : e.Readable) :
      Readable (.declare ty x e)
  | print {e : Expr} (he : e.Readable) : Readable (.print e)
  | ifThen {c : Expr} {a : List Stmt} (hc : c.Readable) (ha : ∀ s ∈ a, Readable s) :
      Readable (.ifThen c a)
  | ifElse {c : Expr} {a b : List Stmt} (hc : c.Readable) (ha : ∀ s ∈ a, Readable s)
      (hb : ∀ s ∈ b, Readable s) : Readable (.ifElse c a b)
  | block {body : List Stmt} (hbody : ∀ s ∈ body, Readable s) : Readable (.block body)

def opening : Stmt → Opening
  | .declare ty x e => .declare ty x e
  | .print e => .print e
  | .ifThen c _ | .ifElse c _ _ => .test c
  | .block _ => .brace

/-- The lines after the first. -/
def inside (depth : Nat) : Stmt → List String
  | .declare .. | .print _ => []
  | .ifThen _ a => linesAll (depth + 1) a ++ [line depth "\x7d"]
  | .ifElse _ a b =>
    linesAll (depth + 1) a ++ line depth "\x7d else \x7b" ::
      (linesAll (depth + 1) b ++ [line depth "\x7d"])
  | .block body => linesAll (depth + 1) body ++ [line depth "\x7d"]

theorem lines_eq (depth : Nat) (s : Stmt) :
    s.lines depth = line depth s.opening.text :: s.inside depth := by
  cases s with
  | declare | print | ifThen | block => rw [lines]; rfl
  | ifElse => rw [lines, List.append_assoc]; rfl

theorem Readable.opening {s : Stmt} (h : Readable s) : s.opening.Readable := by
  cases h with
  | declare ty hx he => exact .declare ty hx he
  | print he => exact .print he
  | ifThen hc _ => exact .test hc
  | ifElse hc _ _ => exact .test hc
  | block _ => exact .brace

end Stmt

theorem blanks_line (depth : Nat) {t : String} (ht : t.toList.head? ≠ some ' ') :
    (line depth t).toList.takeWhile (· = ' ') = List.replicate (4 * depth) ' ' ∧
      (line depth t).toList.dropWhile (· = ' ') = t.toList :=
  Text.blanks_indented (4 * depth) ht

/-- The first character of a line that is not blank. -/
def firstMark (l : String) : Option Char := (l.toList.dropWhile (· = ' ')).head?

theorem firstMark_line (depth : Nat) {t : String} (ht : t.toList.head? ≠ some ' ') :
    firstMark (line depth t) = t.toList.head? := by
  rw [firstMark, (blanks_line depth ht).2]

/-- A line that ends a row of statements. -/
def IsClosing (l : String) : Prop := firstMark l ∈ [some '\x7d', some 'r']

theorem isClosing_line (depth : Nat) {t : String}
    (ht : t.toList.head? ∈ [some '\x7d', some 'r']) : IsClosing (line depth t) := by
  rw [IsClosing, firstMark_line]
  · exact ht
  · rintro hblank
    rw [hblank] at ht
    revert ht
    decide

theorem Opening.head?_text_not_mem (o : Opening) :
    o.text.toList.head? ∉ [some ' ', some '\x7d', some 'r'] := by
  have hword : ∀ f : Form,
      f.word ≠ [] ∧ f.word.head? ∉ [some ' ', some '\x7d', some 'r'] := by
    intro f
    cases f with
    | declare ty => cases ty <;> decide
    | print | test | brace => decide
  obtain ⟨hne, hnot⟩ := hword o.form
  rw [← o.before_text] at hne hnot
  rwa [Text.head?_before hne] at hnot

theorem Opening.not_isClosing (depth : Nat) (o : Opening) : ¬ IsClosing (line depth o.text) := by
  have hnot := o.head?_text_not_mem
  rw [IsClosing, firstMark_line]
  · exact fun hmem => hnot (List.mem_cons_of_mem _ hmem)
  · exact fun hblank => hnot (hblank ▸ List.mem_cons_self)

namespace Stmt

/-- A row of statements ends where a closing line comes. -/
theorem linesAll_unique_of_forall {body body' : List Stmt} {depth : Nat}
    (hstmt : ∀ s ∈ body, ∀ s', Readable s' → ∀ more more',
      s.lines depth ++ more = s'.lines depth ++ more' → s = s' ∧ more = more')
    (hbody' : ∀ s ∈ body', Readable s) {close close' : String} (hclose : IsClosing close)
    (hclose' : IsClosing close') {more more' : List String}
    (h : linesAll depth body ++ close :: more = linesAll depth body' ++ close' :: more') :
    body = body' ∧ close = close' ∧ more = more' := by
  induction body generalizing body' with
  | nil =>
    cases body' with
    | nil => exact ⟨rfl, List.cons.inj h⟩
    | cons s' body' =>
      rw [linesAll, linesAll, lines_eq] at h
      rw [List.head_eq_of_cons_eq h] at hclose
      exact absurd hclose (Opening.not_isClosing _ _)
  | cons s body ih =>
    cases body' with
    | nil =>
      rw [linesAll, linesAll, lines_eq] at h
      rw [← List.head_eq_of_cons_eq h] at hclose'
      exact absurd hclose' (Opening.not_isClosing _ _)
    | cons s' body' =>
      rw [linesAll, linesAll, List.append_assoc, List.append_assoc] at h
      obtain ⟨rfl, hmore⟩ := hstmt s (by simp) s' (hbody' s' (by simp)) _ _ h
      obtain ⟨rfl, hrest⟩ := ih (fun t ht => hstmt t (by simp [ht]))
        (fun t ht => hbody' t (by simp [ht])) hmore
      exact ⟨rfl, hrest⟩

theorem Readable.opening_and_inside {s s' : Stmt} (hs : Readable s) (hs' : Readable s')
    {depth : Nat} {more more' : List String}
    (h : s.lines depth ++ more = s'.lines depth ++ more') :
    s.opening = s'.opening ∧ s.inside depth ++ more = s'.inside depth ++ more' := by
  rw [lines_eq, lines_eq] at h
  obtain ⟨hline, hinside⟩ := List.cons.inj h
  exact ⟨Opening.text_injective hs.opening hs'.opening (Text.indented_injective hline), hinside⟩

/-- No lines start with two statements. -/
theorem Readable.unique_lines {s s' : Stmt} (hs : Readable s) (hs' : Readable s') {depth : Nat}
    {more more' : List String} (h : s.lines depth ++ more = s'.lines depth ++ more') :
    s = s' ∧ more = more' := by
  have hbrace : ∀ d, IsClosing (line d "\x7d") := fun d => isClosing_line d (by decide)
  have helse : ∀ d, IsClosing (line d "\x7d else \x7b") := fun d => isClosing_line d (by decide)
  have hne : ∀ d, line d "\x7d" ≠ line d "\x7d else \x7b" := fun d heq =>
    absurd (Text.indented_injective heq) (by decide)
  induction hs generalizing s' depth more more' with
  | declare ty hx he =>
    obtain ⟨hopening, hinside⟩ := (Readable.declare ty hx he).opening_and_inside hs' h
    cases hs' with
    | declare =>
      cases hopening
      exact ⟨rfl, hinside⟩
    | print | ifThen | ifElse | block => cases hopening
  | print he =>
    obtain ⟨hopening, hinside⟩ := (Readable.print he).opening_and_inside hs' h
    cases hs' with
    | print =>
      cases hopening
      exact ⟨rfl, hinside⟩
    | declare | ifThen | ifElse | block => cases hopening
  | ifThen hc ha ih =>
    obtain ⟨hopening, hinside⟩ := (Readable.ifThen hc ha).opening_and_inside hs' h
    cases hs' with
    | ifThen _ ha' =>
      cases hopening
      rw [inside, inside, List.append_assoc, List.append_assoc] at hinside
      obtain ⟨rfl, -, hmore⟩ := linesAll_unique_of_forall (fun t ht _ ht' _ _ => ih t ht ht') ha'
        (hbrace depth) (hbrace depth) hinside
      exact ⟨rfl, hmore⟩
    | ifElse _ ha' _ =>
      rw [inside, inside, List.append_assoc, List.append_assoc] at hinside
      obtain ⟨-, hclose, -⟩ := linesAll_unique_of_forall (fun t ht _ ht' _ _ => ih t ht ht') ha'
        (hbrace depth) (helse depth) hinside
      exact absurd hclose (hne depth)
    | declare | print | block => cases hopening
  | ifElse hc ha hb iha ihb =>
    obtain ⟨hopening, hinside⟩ := (Readable.ifElse hc ha hb).opening_and_inside hs' h
    cases hs' with
    | ifThen _ ha' =>
      rw [inside, inside, List.append_assoc, List.append_assoc] at hinside
      obtain ⟨-, hclose, -⟩ := linesAll_unique_of_forall (fun t ht _ ht' _ _ => iha t ht ht') ha'
        (helse depth) (hbrace depth) hinside
      exact absurd hclose.symm (hne depth)
    | ifElse _ ha' hb' =>
      cases hopening
      rw [inside, inside, List.append_assoc, List.append_assoc, List.cons_append,
        List.cons_append] at hinside
      obtain ⟨rfl, -, helseArm⟩ := linesAll_unique_of_forall
        (fun t ht _ ht' _ _ => iha t ht ht') ha' (helse depth) (helse depth) hinside
      rw [List.append_assoc, List.append_assoc] at helseArm
      obtain ⟨rfl, -, hmore⟩ := linesAll_unique_of_forall (fun t ht _ ht' _ _ => ihb t ht ht') hb'
        (hbrace depth) (hbrace depth) helseArm
      exact ⟨rfl, hmore⟩
    | declare | print | block => cases hopening
  | block hbody ih =>
    obtain ⟨hopening, hinside⟩ := (Readable.block hbody).opening_and_inside hs' h
    cases hs' with
    | block hbody' =>
      rw [inside, inside, List.append_assoc, List.append_assoc] at hinside
      obtain ⟨rfl, -, hmore⟩ := linesAll_unique_of_forall (fun t ht _ ht' _ _ => ih t ht ht')
        hbody' (hbrace depth) (hbrace depth) hinside
      exact ⟨rfl, hmore⟩
    | declare | print | ifThen | ifElse => cases hopening

theorem linesAll_unique {body body' : List Stmt} (hbody : ∀ s ∈ body, Readable s)
    (hbody' : ∀ s ∈ body', Readable s) {depth : Nat} {close close' : String}
    (hclose : IsClosing close) (hclose' : IsClosing close') {more more' : List String}
    (h : linesAll depth body ++ close :: more = linesAll depth body' ++ close' :: more') :
    body = body' ∧ close = close' ∧ more = more' :=
  linesAll_unique_of_forall (fun s hs _ hs' _ _ => (hbody s hs).unique_lines hs') hbody' hclose
    hclose' h

end Stmt

/-- A line with this text, at any depth. -/
def HasLine (lines : List String) (text : String) : Prop := ∃ depth, line depth text ∈ lines

theorem HasLine.mono {ls ms : List String} {text : String} (h : HasLine ls text) (hsub : ls ⊆ ms) :
    HasLine ms text := by
  obtain ⟨depth, hmem⟩ := h
  exact ⟨depth, hsub hmem⟩

/-- The lines of an arm are those of its statement, up to the braces of a block. -/
theorem Stmt.hasLine_arm {a : Stmt} {text : String}
    (htext : text.toList.head? ∉ [some ' ', some '\x7b', some '\x7d'])
    (h : ∀ depth, HasLine (a.lines depth) text) (depth : Nat) :
    HasLine (linesAll (depth + 1) a.arm) text := by
  have hmark : ∀ d, firstMark (line d text) = text.toList.head? := fun d =>
    firstMark_line d fun hblank => htext (by simp [hblank])
  cases a with
  | block body =>
    have hne : ∀ d brace, brace ∈ ["\x7b", "\x7d"] → line d text ≠ line depth brace := by
      intro d brace hbrace hline
      have hmarks := congrArg firstMark hline
      simp only [List.mem_cons, List.not_mem_nil, or_false] at hbrace
      rcases hbrace with rfl | rfl
      · rw [hmark, firstMark_line depth (by decide)] at hmarks
        exact htext (hmarks ▸ by decide)
      · rw [hmark, firstMark_line depth (by decide)] at hmarks
        exact htext (hmarks ▸ by decide)
    obtain ⟨d, hd⟩ := h depth
    rw [lines, List.mem_append, List.mem_cons, List.mem_singleton] at hd
    rcases hd with (hopen | hbody) | hclose
    · exact absurd hopen (hne d _ (by simp))
    · exact ⟨d, hbody⟩
    · exact absurd hclose (hne d _ (by simp))
  | declare | print | ifThen | ifElse =>
    exact (h (depth + 1)).mono (List.subset_append_left _ _)

/-! No line of code has a newline in it. -/

theorem Expr.Readable.newline_not_mem {e : Expr} (h : e.Readable) : '\n' ∉ e.render.toList := by
  have hnewline : isAtomic '\n' = false := rfl
  induction h with
  | atom ha =>
    intro hmem
    rw [ha.atomic _ hmem] at hnewline
    cases hnewline
  | string s => exact not_mem_stringLiteral (by decide) s
  | @conversion k v _ ih =>
    have hends : '\n' ∉ k.front ∧ '\n' ∉ k.back := by cases k <;> decide
    have htext := k.toList_apply v []
    rw [List.append_nil, List.append_nil] at htext
    simp [htext, hends, ih]
  | binary op _ _ ihl ihr =>
    have hop : '\n' ∉ (operator op).toList := by cases op <;> decide
    simp [render_binary, ihl, ihr, hop]

theorem Opening.Readable.newline_not_mem {o : Opening} (h : o.Readable) :
    '\n' ∉ o.text.toList := by
  cases h with
  | declare ty hx he =>
    have hty : '\n' ∉ ty.render.toList := by cases ty <;> decide
    have hname := hx.not_mem (show isAtomic '\n' = false from rfl)
    simp [text, hty, hname, he.newline_not_mem]
  | print he => simp [text, he.newline_not_mem]
  | @test c hc =>
    have hcondition : '\n' ∉ c.renderCondition.toList := by
      rcases hc.condition_cases with ⟨op, l, r, rfl, -⟩ | hplain
      · exact hc.newline_not_mem
      · have htext := hplain []
        rw [List.append_nil] at htext
        rw [htext]
        simp [hc.newline_not_mem]
    simp [text, hcondition]
  | brace => decide

namespace Stmt

theorem newline_not_mem_linesAll_of_forall {body : List Stmt} {depth : Nat}
    (hstmt : ∀ s ∈ body, ∀ l ∈ s.lines depth, '\n' ∉ l.toList) :
    ∀ l ∈ linesAll depth body, '\n' ∉ l.toList := by
  induction body with
  | nil => simp [linesAll]
  | cons s body ih =>
    rw [linesAll]
    exact List.forall_mem_append.mpr
      ⟨hstmt s (by simp), ih fun t ht => hstmt t (List.mem_cons_of_mem _ ht)⟩

theorem Readable.newline_not_mem {s : Stmt} (h : Readable s) {depth : Nat} :
    ∀ l ∈ s.lines depth, '\n' ∉ l.toList := by
  have hbrace : ∀ d, '\n' ∉ (line d "\x7d").toList := fun d =>
    Text.newline_not_mem_indented (by decide)
  have helse : ∀ d, '\n' ∉ (line d "\x7d else \x7b").toList := fun d =>
    Text.newline_not_mem_indented (by decide)
  have hstmt : ∀ {t : Stmt} {d : Nat}, Readable t → (∀ l ∈ t.inside d, '\n' ∉ l.toList) →
      ∀ l ∈ t.lines d, '\n' ∉ l.toList := fun {t d} ht hinside => by
    rw [lines_eq]
    exact List.forall_mem_cons.mpr
      ⟨Text.newline_not_mem_indented ht.opening.newline_not_mem, hinside⟩
  induction h generalizing depth with
  | declare ty hx he => exact hstmt (.declare ty hx he) (by simp [inside])
  | print he => exact hstmt (.print he) (by simp [inside])
  | ifThen hc ha ih =>
    refine hstmt (.ifThen hc ha) ?_
    rw [inside, List.forall_mem_append, List.forall_mem_singleton]
    exact ⟨newline_not_mem_linesAll_of_forall fun t ht => ih t ht, hbrace depth⟩
  | ifElse hc ha hb iha ihb =>
    refine hstmt (.ifElse hc ha hb) ?_
    rw [inside, List.forall_mem_append, List.forall_mem_cons, List.forall_mem_append,
      List.forall_mem_singleton]
    exact ⟨newline_not_mem_linesAll_of_forall fun t ht => iha t ht, helse depth,
      newline_not_mem_linesAll_of_forall fun t ht => ihb t ht, hbrace depth⟩
  | block hbody ih =>
    refine hstmt (.block hbody) ?_
    rw [inside, List.forall_mem_append, List.forall_mem_singleton]
    exact ⟨newline_not_mem_linesAll_of_forall fun t ht => ih t ht, hbrace depth⟩

end Stmt

/-! The lines around the statements. -/

namespace Headers

/-- The headers of compiled programs. Those that a program names have no blanks in them. -/
structure Readable (h : Headers) : Prop where
  named : ∀ header ∈ h.named, ∀ c ∈ header.toList, c ≠ ' ' ∧ c ≠ '\n'
  added : ∀ a ∈ h.added, '\n' ∉ a.header.toList ∧ '\n' ∉ a.reason.toList

def namedLine (header : String) : String := "#include <" ++ header ++ ">"

def addedLine (a : AddedHeader) : String := "#include <" ++ a.header ++ "> // " ++ a.reason

theorem lines_eq (h : Headers) :
    h.lines = h.named.map namedLine ++ h.added.map addedLine ++
      if h.named = [] ∧ h.added = [] then [] else [""] := by
  unfold lines
  by_cases hnone : h.named = [] ∧ h.added = []
  · simp [hnone]
  · rw [if_neg hnone, if_neg (by simpa using hnone)]
    rfl

theorem mem_lines {h : Headers} {l : String} (hl : l ∈ h.lines) :
    (∃ header ∈ h.named, namedLine header = l) ∨ (∃ a ∈ h.added, addedLine a = l) ∨ l = "" := by
  rw [lines_eq, List.mem_append, List.mem_append, List.mem_map, List.mem_map, or_assoc] at hl
  refine hl.imp_right (Or.imp_right fun hblank => ?_)
  split at hblank
  · cases hblank
  · exact List.mem_singleton.mp hblank

theorem Readable.newline_not_mem {h : Headers} (hh : h.Readable) :
    ∀ l ∈ h.lines, '\n' ∉ l.toList := by
  intro l hl
  rcases mem_lines hl with ⟨header, hmem, rfl⟩ | ⟨a, ha, rfl⟩ | rfl
  · have hheader : '\n' ∉ header.toList := fun hc => (hh.named header hmem _ hc).2 rfl
    simp [namedLine, hheader]
  · simp [addedLine, hh.added a ha]
  · simp

theorem main_not_mem_lines (h : Headers) : "int main() \x7b" ∉ h.lines := by
  have hhead : ∀ l ∈ h.lines, l.toList.head? = some '#' ∨ l = "" := by
    intro l hl
    rcases mem_lines hl with ⟨header, -, rfl⟩ | ⟨a, -, rfl⟩ | rfl
    · simp [namedLine]
    · simp [addedLine]
    · exact .inr rfl
  intro hmem
  exact absurd (hhead _ hmem) (by decide)

/-- The lines with one blank in them are those of the headers that the program names. -/
theorem Readable.filter_lines {h : Headers} (hh : h.Readable) :
    h.lines.filter (fun l => l.toList.count ' ' = 1) = h.named.map namedLine := by
  have hnamed : ∀ l ∈ h.named.map namedLine, decide (l.toList.count ' ' = 1) = true := by
    refine List.forall_mem_map.mpr fun header hmem => ?_
    have hnone : header.toList.count ' ' = 0 :=
      List.count_eq_zero.mpr fun hc => (hh.named header hmem _ hc).1 rfl
    simp [namedLine, hnone]
  have hadded : ∀ l ∈ h.added.map addedLine, ¬ decide (l.toList.count ' ' = 1) = true := by
    refine List.forall_mem_map.mpr fun a _ => ?_
    simp [addedLine]
  rw [lines_eq, List.filter_append, List.filter_append, List.filter_eq_self.mpr hnamed,
    List.filter_eq_nil_iff.mpr hadded]
  split <;> simp

theorem Readable.named_eq {h h' : Headers} (hh : h.Readable) (hh' : h'.Readable)
    (hlines : h.lines = h'.lines) : h.named = h'.named := by
  have hnamed := hh.filter_lines
  rw [hlines, hh'.filter_lines] at hnamed
  refine (List.map_injective_iff.mpr ?_ hnamed).symm
  intro header header' hline
  simpa [namedLine, ← String.toList_inj] using hline

end Headers

namespace Program

/-- Compiled programs. -/
structure Readable (q : Program) : Prop where
  headers : q.headers.Readable
  body : ∀ s ∈ q.body, s.Readable

theorem Readable.newline_not_mem {q : Program} (h : q.Readable) :
    ∀ l ∈ q.lines, '\n' ∉ l.toList := by
  have hboolalpha : ∀ l ∈ if q.headers.includes "iostream" then [boolalphaLine] else [],
      '\n' ∉ l.toList := by
    split <;> decide
  have hbody : ∀ l ∈ Stmt.linesAll 1 q.body, '\n' ∉ l.toList :=
    Stmt.newline_not_mem_linesAll_of_forall fun s hs => (h.body s hs).newline_not_mem
  rw [lines_eq, mainLines, statementLines]
  simp only [List.forall_mem_append, List.forall_mem_cons]
  exact ⟨⟨⟨by decide, by decide, h.headers.newline_not_mem⟩, by decide, hboolalpha, hbody,
    by decide⟩, by decide⟩

/-- No statement is written like the line that makes truth values print as words. -/
theorem boolalphaLine_ne_opening (o : Opening) : boolalphaLine ≠ line 1 o.text := by
  intro h
  have htext : "std::cout << std::boolalpha;" = o.text := Text.indented_injective h
  have hform : o.form = .print := Opening.Form.word_injective (by
    rw [← Opening.before_text, ← htext]
    decide)
  cases o with
  | print e =>
    -- Printing something takes more blanks.
    have hblanks := congrArg (fun text => text.toList.count ' ') htext
    have hfew : "std::cout << std::boolalpha;".toList.count ' ' = 2 := by decide
    have hprint : "std::cout << ".toList.count ' ' = 2 := by decide
    have hend : " << std::endl;".toList.count ' ' = 2 := by decide
    simp only [Opening.text, String.toList_append, List.count_append] at hblanks
    omega
  | declare | test | brace => cases hform

theorem boolalphaLine_ne_head {body : List Stmt} {more : List String} :
    boolalphaLine :: more ≠ Stmt.linesAll 1 body ++ [line 1 "return 0;", "\x7d"] := by
  intro h
  cases body with
  | nil => exact absurd (List.head_eq_of_cons_eq h) (by decide)
  | cons s body =>
    rw [Stmt.linesAll, Stmt.lines_eq] at h
    exact boolalphaLine_ne_opening _ (List.head_eq_of_cons_eq h)

/-- A program is found again in its code: the headers it names, and its statements. -/
theorem Readable.eq_of_render {q q' : Program} (hq : q.Readable) (hq' : q'.Readable)
    (h : q.render = q'.render) : q.headers.named = q'.headers.named ∧ q.body = q'.body := by
  have hlines : q.lines = q'.lines :=
    Text.unlines_injective hq.newline_not_mem hq'.newline_not_mem h
  rw [lines_eq, lines_eq] at hlines
  obtain ⟨hheaders, hmain⟩ := Text.append_mark_inj q.headers.main_not_mem_lines
    q'.headers.main_not_mem_lines (by simpa using hlines)
  refine ⟨hq.headers.named_eq hq'.headers hheaders, ?_⟩
  simp only [mainLines, statementLines, List.append_assoc, List.cons_append, List.nil_append]
    at hmain
  have hreturn : IsClosing (line 1 "return 0;") := isClosing_line 1 (by decide)
  split at hmain <;> split at hmain
  · exact (Stmt.linesAll_unique hq.body hq'.body hreturn hreturn (List.cons.inj hmain).2).1
  · exact absurd hmain boolalphaLine_ne_head
  · exact absurd hmain.symm boolalphaLine_ne_head
  · exact (Stmt.linesAll_unique hq.body hq'.body hreturn hreturn hmain).1

end Program

end Cpp
end HumanScript
