import HumanScript.Proofs.OutlineLines

/-! Outlines tell programs apart. What belongs to a node ends before the next line that is not
deeper, so an outline shows all of a program but the places of names. -/
namespace HumanScript
variable {α : Type}

/-! Programs without the places of names. -/

def Ident.unplaced (i : Ident) : Ident := ⟨i.name, .empty⟩

def Expr.unplacedNames : Expr α → Expr α
  | literal value span info => literal value span info
  | name ident span info => name ident.unplaced span info
  | binary op lhs rhs span info => binary op lhs.unplacedNames rhs.unplacedNames span info

mutual

def Stmt.unplacedNames : Stmt α → Stmt α
  | .declare ty name init span => .declare ty name.unplaced init.unplacedNames span
  | .print value span => .print value.unplacedNames span
  | .ifThen condition thenArm span => .ifThen condition.unplacedNames thenArm.unplacedNames span
  | .ifElse condition thenArm elseArm span =>
    .ifElse condition.unplacedNames thenArm.unplacedNames elseArm.unplacedNames span
  | .block body span => .block (Stmt.unplacedNamesAll body) span

def Stmt.unplacedNamesAll : List (Stmt α) → List (Stmt α)
  | [] => []
  | s :: body => s.unplacedNames :: Stmt.unplacedNamesAll body

end

/-- The same program with all its places but those of names. -/
def Program.unplacedNames (p : Program α) : Program α :=
  ⟨p.imports, Stmt.unplacedNamesAll p.body⟩

/-! Expressions. -/

namespace Expr
open Outline (Label heading IsMark)
variable {mark : α → String}

/-- What the first line of an expression is about. -/
def label : Expr α → Label
  | literal value _ _ => .literal value
  | name ident _ _ => .name ident.name
  | binary op _ _ _ _ => .operator op

/-- The lines of the operands. -/
def operandLines (mark : α → String) (depth : Nat) : Expr α → List String
  | literal .. | name .. => []
  | binary _ lhs rhs _ _ => lhs.outline mark (depth + 1) ++ rhs.outline mark (depth + 1)

theorem outline_eq (mark : α → String) (depth : Nat) (e : Expr α) :
    e.outline mark depth =
      Outline.line depth (heading e.label e.span (mark e.info)) :: e.operandLines mark depth := by
  cases e with
  | literal | name => rfl
  | binary => rw [outline]; rfl

theorem readable_label {e : Expr α} (h : e.untyped.Written) : e.label.Readable := by
  cases e with
  | literal value span info =>
    cases value with
    | int n => exact .int n
    | float x => exact .float (h x rfl)
    | string s => exact .string s
    | bool b => exact .bool b
  | name ident span info => exact .name h
  | binary op lhs rhs span info => exact .operator op

theorem unique_heading (hmark : IsMark mark) {e e' : Expr α} (he : e.untyped.Written)
    (he' : e'.untyped.Written) {depth : Nat} {more more' : List String}
    (h : e.outline mark depth ++ more = e'.outline mark depth ++ more') :
    e.label = e'.label ∧ e.span = e'.span ∧ e.info = e'.info ∧
      e.operandLines mark depth ++ more = e'.operandLines mark depth ++ more' := by
  rw [outline_eq, outline_eq] at h
  obtain ⟨hline, hrest⟩ := List.cons.inj h
  obtain ⟨hlabel, hspan, hnote⟩ := Outline.heading_unique (readable_label he) (readable_label he')
    (hmark.isNote _) (hmark.isNote _) (Text.indented_injective hline)
  exact ⟨hlabel, hspan, hmark.injective hnote, hrest⟩

/-- An expression shows by its operators how many lines belong to it. -/
theorem outline_unique (hmark : IsMark mark) {e e' : Expr α} (he : e.untyped.Written)
    (he' : e'.untyped.Written) {depth : Nat} {more more' : List String}
    (h : e.outline mark depth ++ more = e'.outline mark depth ++ more') :
    e.unplacedNames = e'.unplacedNames ∧ more = more' := by
  induction e generalizing e' depth more more' with
  | literal value span info =>
    obtain ⟨hlabel, hspan, hinfo, hrest⟩ := unique_heading hmark he he' h
    cases e' with
    | literal =>
      cases hlabel
      cases hspan
      cases hinfo
      exact ⟨rfl, hrest⟩
    | name | binary => cases hlabel
  | name ident span info =>
    obtain ⟨hlabel, hspan, hinfo, hrest⟩ := unique_heading hmark he he' h
    cases e' with
    | name ident' =>
      have hname : ident.unplaced = ident'.unplaced := by
        rw [Ident.unplaced, Label.name.inj hlabel]
        rfl
      cases hspan
      cases hinfo
      exact ⟨by rw [unplacedNames, unplacedNames, hname], hrest⟩
    | literal | binary => cases hlabel
  | binary op lhs rhs span info ihl ihr =>
    obtain ⟨hlabel, hspan, hinfo, hrest⟩ := unique_heading hmark he he' h
    cases e' with
    | binary op' lhs' rhs' =>
      cases hlabel
      cases hspan
      cases hinfo
      rw [operandLines, operandLines, List.append_assoc, List.append_assoc] at hrest
      obtain ⟨hlhs, hrest⟩ := ihl he.1 he'.1 hrest
      obtain ⟨hrhs, hrest⟩ := ihr he.2 he'.2 hrest
      exact ⟨by rw [unplacedNames, unplacedNames, hlhs, hrhs], hrest⟩
    | literal | name => cases hlabel

theorem newline_not_mem_outline (hmark : IsMark mark) {e : Expr α} (he : e.untyped.Written)
    (depth : Nat) : ∀ l ∈ e.outline mark depth, '\n' ∉ l.toList := by
  have hheading : ∀ {e : Expr α} (depth : Nat), e.untyped.Written →
      '\n' ∉ (Outline.line depth (heading e.label e.span (mark e.info))).toList := fun _ he =>
    Text.newline_not_mem_indented
      (Outline.newline_not_mem_heading (readable_label he) (hmark.isNote _) _)
  induction e generalizing depth with
  | literal | name =>
    rw [outline_eq]
    exact List.forall_mem_cons.mpr ⟨hheading depth he, by simp [operandLines]⟩
  | binary op lhs rhs span info ihl ihr =>
    rw [outline_eq]
    exact List.forall_mem_cons.mpr ⟨hheading depth he,
      List.forall_mem_append.mpr ⟨ihl he.1 (depth + 1), ihr he.2 (depth + 1)⟩⟩

theorem eq_of_outline (hmark : IsMark mark) {e e' : Expr α} (he : e.untyped.Written)
    (he' : e'.untyped.Written)
    (h : Text.unlines (e.outline mark 0) = Text.unlines (e'.outline mark 0)) :
    e.unplacedNames = e'.unplacedNames := by
  have hlines := Text.unlines_injective (newline_not_mem_outline hmark he 0)
    (newline_not_mem_outline hmark he' 0) h
  rw [← List.append_nil (e.outline mark 0), ← List.append_nil (e'.outline mark 0)] at hlines
  exact (outline_unique hmark he he' hlines).1

theorem written_of_expr {src : String} {e : Expr Unit} (h : (Lexed.ofSource src).expr = .ok e) :
    e.untyped.Written := by
  rw [e.untyped_self]
  exact (Lexed.placed_of_expr (fun _ => Lexed.valueFits_of_mem) h).written fun _ =>
    Lexed.written_of_mem

end Expr

/-! Statements. -/

namespace Stmt
open Outline (Label heading IsMark Ends)
variable {mark : α → String}

/-- What the first line of a statement is about. -/
def label : Stmt α → Label
  | declare ty name _ _ => .declare name.name ty
  | print _ _ => .print
  | ifThen _ _ _ | ifElse _ _ _ _ => .test
  | block _ _ => .block

/-- The lines after the first. -/
def inside (mark : α → String) (depth : Nat) : Stmt α → List String
  | declare _ _ init _ => init.outline mark (depth + 1)
  | print value _ => value.outline mark (depth + 1)
  | ifThen condition thenArm _ =>
    condition.outline mark (depth + 1) ++ Outline.line (depth + 1) "then" ::
      thenArm.outline mark (depth + 2)
  | ifElse condition thenArm elseArm _ =>
    condition.outline mark (depth + 1) ++ Outline.line (depth + 1) "then" ::
      (thenArm.outline mark (depth + 2) ++ Outline.line (depth + 1) "else" ::
        elseArm.outline mark (depth + 2))
  | block body _ => outlineAll mark (depth + 1) body

theorem outline_eq (mark : α → String) (depth : Nat) (s : Stmt α) :
    s.outline mark depth =
      Outline.line depth (heading s.label s.span "") :: s.inside mark depth := by
  cases s with
  | declare ty name init span =>
    simp only [outline, inside, label, heading, Label.text, String.append_empty, Stmt.span]
  | print | ifThen | ifElse | block => 
    simp [outline, inside, label, heading, Label.text, Stmt.span]

theorem readable_label {s : Stmt α} (h : s.untyped.Written) : s.label.Readable := by
  cases s with
  | declare ty name init span =>
    cases h with
    | declare hname _ => exact .declare hname ty
  | print | ifThen | ifElse | block => constructor

theorem unique_heading {s s' : Stmt α} (hs : s.untyped.Written) (hs' : s'.untyped.Written)
    {depth : Nat} {more more' : List String}
    (h : s.outline mark depth ++ more = s'.outline mark depth ++ more') :
    s.label = s'.label ∧ s.span = s'.span ∧
      s.inside mark depth ++ more = s'.inside mark depth ++ more' := by
  rw [outline_eq, outline_eq] at h
  obtain ⟨hline, hrest⟩ := List.cons.inj h
  obtain ⟨hlabel, hspan, -⟩ := Outline.heading_unique (readable_label hs) (readable_label hs')
    Outline.isNote_empty Outline.isNote_empty (Text.indented_injective hline)
  exact ⟨hlabel, hspan, hrest⟩

/-- No other statement has the same outline, if what comes after it is not deeper. -/
def ShownBy (mark : α → String) (s : Stmt α) : Prop :=
  ∀ (s' : Stmt α) {depth : Nat} {more more' : List String}, s'.untyped.Written →
    Ends (depth + 1) more → Ends (depth + 1) more' →
    s.outline mark depth ++ more = s'.outline mark depth ++ more' →
    s.unplacedNames = s'.unplacedNames ∧ more = more'

/-- The next statement is not deeper than the one before it. -/
theorem ends_outlineAll {depth : Nat} {more : List String} (hmore : Ends depth more)
    (body : List (Stmt α)) : Ends (depth + 1) (outlineAll mark depth body ++ more) := by
  cases body with
  | nil => exact hmore.mono (Nat.le_succ _)
  | cons s body =>
    rw [outlineAll, outline_eq]
    rintro l ⟨⟩
    rw [Outline.indentation_heading]
    omega

/-- A row of statements ends where the lines are no longer deep enough. -/
theorem not_ends_outlineAll {depth : Nat} (s : Stmt α) (body : List (Stmt α))
    (more : List String) : ¬ Ends depth (outlineAll mark depth (s :: body) ++ more) := by
  intro hends
  rw [outlineAll, outline_eq] at hends
  have hdeep := hends _ rfl
  rw [Outline.indentation_heading] at hdeep
  omega

/-- A row of statements whose outlines show them is shown by its outline. -/
theorem ShownBy.all {body body' : List (Stmt α)} (hshown : ∀ s ∈ body, s.ShownBy mark)
    (hbody' : ∀ s ∈ body', s.untyped.Written) {depth : Nat} {more more' : List String}
    (hmore : Ends depth more) (hmore' : Ends depth more')
    (h : outlineAll mark depth body ++ more = outlineAll mark depth body' ++ more') :
    unplacedNamesAll body = unplacedNamesAll body' ∧ more = more' := by
  induction body generalizing body' with
  | nil =>
    cases body' with
    | nil => exact ⟨rfl, h⟩
    | cons s' body' =>
      rw [show more = _ from h] at hmore
      exact absurd hmore (not_ends_outlineAll s' body' more')
  | cons s body ih =>
    cases body' with
    | nil =>
      rw [show more' = _ from h.symm] at hmore'
      exact absurd hmore' (not_ends_outlineAll s body more)
    | cons s' body' =>
      rw [List.forall_mem_cons] at hshown hbody'
      rw [outlineAll, outlineAll, List.append_assoc, List.append_assoc] at h
      obtain ⟨hsame, hrest⟩ := hshown.1 s' hbody'.1 (ends_outlineAll hmore body)
        (ends_outlineAll hmore' body') h
      obtain ⟨hbody, hmore⟩ := ih hshown.2 hbody'.2 hrest
      exact ⟨by rw [unplacedNamesAll, unplacedNamesAll, hsame, hbody], hmore⟩

/-- The line before a second arm ends the first one, but goes on with the test. -/
theorem ends_else (depth : Nat) (lines : List String) :
    Ends (depth + 3) (Outline.line (depth + 1) "else" :: lines) ∧
      ¬ Ends (depth + 1) (Outline.line (depth + 1) "else" :: lines) := by
  have hindent := Outline.indentation_line (depth + 1) (t := "else") (by decide)
  constructor
  · rintro l ⟨⟩
    rw [hindent]
    omega
  · intro hends
    have hdeep := hends _ rfl
    rw [hindent] at hdeep
    omega

/-- The condition and the first arm of a test are shown, whatever comes after them. -/
theorem ShownBy.test {thenArm : Stmt α} (hshown : thenArm.ShownBy mark) (hmark : IsMark mark)
    {condition condition' : Expr α} (hcond : condition.untyped.Written)
    (hcond' : condition'.untyped.Written) {thenArm' : Stmt α} (hthen' : thenArm'.untyped.Written)
    {depth : Nat} {rest rest' : List String} (hrest : Ends (depth + 3) rest)
    (hrest' : Ends (depth + 3) rest')
    (h : condition.outline mark (depth + 1) ++ Outline.line (depth + 1) "then" ::
        (thenArm.outline mark (depth + 2) ++ rest) =
      condition'.outline mark (depth + 1) ++ Outline.line (depth + 1) "then" ::
        (thenArm'.outline mark (depth + 2) ++ rest')) :
    condition.unplacedNames = condition'.unplacedNames ∧
      thenArm.unplacedNames = thenArm'.unplacedNames ∧ rest = rest' := by
  obtain ⟨hsame, harms⟩ := Expr.outline_unique hmark hcond hcond' h
  exact ⟨hsame, hshown thenArm' hthen' hrest hrest' (List.tail_eq_of_cons_eq harms)⟩

theorem shownBy_declare (hmark : IsMark mark) {ty : Ty} {name : Ident} {init : Expr α} {span : Span}
    (hs : (declare ty name init span).untyped.Written) :
    (declare ty name init span).ShownBy mark := by
  intro s' depth more more' hs' hmore hmore' h
  obtain ⟨hlabel, hspan, hrest⟩ := unique_heading hs hs' h
  cases s' with
  | declare ty' name' init' span' =>
    obtain ⟨hname, hty⟩ := Label.declare.inj hlabel
    cases hs with
    | declare _ hinit =>
      cases hs' with
      | declare _ hinit' =>
        obtain ⟨hsame, hmore⟩ := Expr.outline_unique hmark hinit hinit' hrest
        cases hspan
        rw [unplacedNames, unplacedNames, hsame, hty, Ident.unplaced, Ident.unplaced, hname]
        exact ⟨rfl, hmore⟩
  | print | ifThen | ifElse | block => cases hlabel

theorem shownBy_print (hmark : IsMark mark) {value : Expr α} {span : Span}
    (hs : (print value span).untyped.Written) : (print value span).ShownBy mark := by
  intro s' depth more more' hs' hmore hmore' h
  obtain ⟨hlabel, hspan, hrest⟩ := unique_heading hs hs' h
  cases s' with
  | print value' span' =>
    cases hs with
    | print hvalue =>
      cases hs' with
      | print hvalue' =>
        obtain ⟨hsame, hmore⟩ := Expr.outline_unique hmark hvalue hvalue' hrest
        cases hspan
        rw [unplacedNames, unplacedNames, hsame]
        exact ⟨rfl, hmore⟩
  | declare | ifThen | ifElse | block => cases hlabel

theorem ShownBy.ifThen (hmark : IsMark mark) {condition : Expr α} {thenArm : Stmt α} {span : Span}
    (hs : (Stmt.ifThen condition thenArm span).untyped.Written) (hthen : thenArm.ShownBy mark) :
    (Stmt.ifThen condition thenArm span).ShownBy mark := by
  intro s' depth more more' hs' hmore hmore' h
  obtain ⟨hlabel, hspan, hrest⟩ := unique_heading hs hs' h
  cases hs with
  | ifThen hcond _ =>
    cases s' with
    | ifThen condition' thenArm' span' =>
      cases hs' with
      | ifThen hcond' hthen' =>
        simp only [inside, List.append_assoc, List.cons_append] at hrest
        obtain ⟨hsame, harm, hmore⟩ := hthen.test hmark hcond hcond' hthen'
          (hmore.mono (by omega)) (hmore'.mono (by omega)) hrest
        cases hspan
        rw [unplacedNames, unplacedNames, hsame, harm]
        exact ⟨rfl, hmore⟩
    | ifElse condition' thenArm' elseArm' span' =>
      cases hs' with
      | ifElse hcond' hthen' _ =>
        simp only [inside, List.append_assoc, List.cons_append] at hrest
        obtain ⟨-, -, rfl⟩ := hthen.test hmark hcond hcond' hthen'
          (hmore.mono (by omega)) (ends_else depth _).1 hrest
        -- What comes after a test without a second arm would be deeper than the test.
        exact absurd hmore (ends_else depth _).2
    | declare | print | block => cases hlabel

theorem ShownBy.ifElse (hmark : IsMark mark) {condition : Expr α} {thenArm elseArm : Stmt α}
    {span : Span} (hs : (Stmt.ifElse condition thenArm elseArm span).untyped.Written)
    (hthen : thenArm.ShownBy mark) (helse : elseArm.ShownBy mark) :
    (Stmt.ifElse condition thenArm elseArm span).ShownBy mark := by
  intro s' depth more more' hs' hmore hmore' h
  obtain ⟨hlabel, hspan, hrest⟩ := unique_heading hs hs' h
  cases hs with
  | ifElse hcond _ _ =>
    cases s' with
    | ifThen condition' thenArm' span' =>
      cases hs' with
      | ifThen hcond' hthen' =>
        simp only [inside, List.append_assoc, List.cons_append] at hrest
        obtain ⟨-, -, rfl⟩ := hthen.test hmark hcond hcond' hthen' (ends_else depth _).1
          (hmore'.mono (by omega)) hrest
        exact absurd hmore' (ends_else depth _).2
    | ifElse condition' thenArm' elseArm' span' =>
      cases hs' with
      | ifElse hcond' hthen' helse' =>
        simp only [inside, List.append_assoc, List.cons_append] at hrest
        obtain ⟨hsame, harm, hrest⟩ := hthen.test hmark hcond hcond' hthen'
          (ends_else depth _).1 (ends_else depth _).1 hrest
        obtain ⟨harm', hmore⟩ := helse elseArm' helse' (hmore.mono (by omega))
          (hmore'.mono (by omega)) (List.tail_eq_of_cons_eq hrest)
        cases hspan
        rw [unplacedNames, unplacedNames, hsame, harm, harm']
        exact ⟨rfl, hmore⟩
    | declare | print | block => cases hlabel

theorem ShownBy.block {body : List (Stmt α)} {span : Span}
    (hs : (Stmt.block body span).untyped.Written) (hbody : ∀ s ∈ body, s.ShownBy mark) :
    (Stmt.block body span).ShownBy mark := by
  intro s' depth more more' hs' hmore hmore' h
  obtain ⟨hlabel, hspan, hrest⟩ := unique_heading hs hs' h
  cases s' with
  | block body' span' =>
    rw [untyped_block] at hs'
    cases hs' with
    | block hbody' =>
      rw [List.forall_mem_map] at hbody'
      obtain ⟨hsame, hmore⟩ := ShownBy.all hbody hbody' hmore hmore' hrest
      cases hspan
      rw [unplacedNames, unplacedNames, hsame]
      exact ⟨rfl, hmore⟩
  | declare | print | ifThen | ifElse => cases hlabel

/-- Every statement of a program is shown by its outline. -/
theorem shownBy (hmark : IsMark mark) {s : Stmt α} (hs : s.untyped.Written) : s.ShownBy mark := by
  induction s with
  | declare => exact shownBy_declare hmark hs
  | print => exact shownBy_print hmark hs
  | ifThen condition thenArm span ih =>
    refine .ifThen hmark hs (ih ?_)
    cases hs with
    | ifThen _ hthen => exact hthen
  | ifElse condition thenArm elseArm span iha ihb =>
    refine .ifElse hmark hs (iha ?_) (ihb ?_)
    · cases hs with
      | ifElse _ hthen _ => exact hthen
    · cases hs with
      | ifElse _ _ helse => exact helse
  | block body span ih =>
    refine .block hs fun t ht => ih t ht ?_
    rw [untyped_block] at hs
    cases hs with
    | block hbody => exact hbody _ (List.mem_map_of_mem ht)

theorem newline_not_mem_outlineAll_of_forall {body : List (Stmt α)} {depth : Nat}
    (hstmt : ∀ s ∈ body, ∀ l ∈ s.outline mark depth, '\n' ∉ l.toList) :
    ∀ l ∈ outlineAll mark depth body, '\n' ∉ l.toList := by
  induction body with
  | nil => simp [outlineAll]
  | cons s body ih =>
    rw [outlineAll]
    exact List.forall_mem_append.mpr
      ⟨hstmt s (by simp), ih fun t ht => hstmt t (List.mem_cons_of_mem _ ht)⟩

theorem newline_not_mem_outline (hmark : IsMark mark) {s : Stmt α} (hs : s.untyped.Written)
    (depth : Nat) : ∀ l ∈ s.outline mark depth, '\n' ∉ l.toList := by
  have hheading : ∀ {s : Stmt α} {depth : Nat}, s.untyped.Written →
      (∀ l ∈ s.inside mark depth, '\n' ∉ l.toList) →
      ∀ l ∈ s.outline mark depth, '\n' ∉ l.toList := fun hs hinside => by
    rw [outline_eq]
    exact List.forall_mem_cons.mpr ⟨Text.newline_not_mem_indented
      (Outline.newline_not_mem_heading (readable_label hs) Outline.isNote_empty _), hinside⟩
  have hexpr : ∀ {e : Expr α} (depth : Nat), e.untyped.Written →
      ∀ l ∈ e.outline mark depth, '\n' ∉ l.toList := fun depth he =>
    Expr.newline_not_mem_outline hmark he depth
  have harm : ∀ depth, ∀ word ∈ ["then", "else"],
      '\n' ∉ (Outline.line depth word).toList := fun depth word hword => by
    have hwords : ∀ word ∈ ["then", "else"], '\n' ∉ word.toList := by decide
    exact Text.newline_not_mem_indented (hwords word hword)
  induction s generalizing depth with
  | declare ty name init span =>
    refine hheading hs ?_
    cases hs with
    | declare _ hinit => exact hexpr _ hinit
  | print value span =>
    refine hheading hs ?_
    cases hs with
    | print hvalue => exact hexpr _ hvalue
  | ifThen condition thenArm span ih =>
    refine hheading hs ?_
    cases hs with
    | ifThen hcond hthen =>
      rw [inside, List.forall_mem_append, List.forall_mem_cons]
      exact ⟨hexpr _ hcond, harm _ _ (by simp), ih hthen _⟩
  | ifElse condition thenArm elseArm span iha ihb =>
    refine hheading hs ?_
    cases hs with
    | ifElse hcond hthen helse =>
      rw [inside, List.forall_mem_append, List.forall_mem_cons, List.forall_mem_append,
        List.forall_mem_cons]
      exact ⟨hexpr _ hcond, harm _ _ (by simp), iha hthen _, harm _ _ (by simp), ihb helse _⟩
  | block body span ih =>
    refine hheading hs ?_
    rw [untyped_block] at hs
    cases hs with
    | block hbody =>
      rw [List.forall_mem_map] at hbody
      exact newline_not_mem_outlineAll_of_forall fun t ht => ih t ht (hbody t ht) _

end Stmt

/-! Programs. -/

theorem Import.outline_eq (i : Import) :
    i.outline = Outline.heading (.header i.header) i.span "" := by
  simp [Import.outline, Outline.heading, Outline.Label.text, String.append_assoc]

namespace Program
open Outline (Label heading IsMark)
variable {mark : α → String}

/-- The programs of texts: there are no blanks in the names of headers, names are no keywords, and
numbers are finite. -/
structure Written (p : Program α) : Prop where
  imports : ∀ i ∈ p.imports, ∀ c ∈ i.header.toList, c ≠ ' ' ∧ c ≠ '\n'
  body : ∀ s ∈ p.body, s.untyped.Written

theorem line_zero (t : String) : Outline.line 0 t = t := by
  simp [Outline.line, Text.indented]

/-- No statement has the outline of an import. -/
theorem outlineAll_ne_import {i : Import} (hi : ∀ c ∈ i.header.toList, c ≠ ' ' ∧ c ≠ '\n')
    {body : List (Stmt α)} (hbody : ∀ s ∈ body, s.untyped.Written) (lines : List String) :
    i.outline :: lines ≠ Stmt.outlineAll mark 0 body := by
  intro h
  cases body with
  | nil => cases h
  | cons s body =>
    rw [Stmt.outlineAll, Stmt.outline_eq, line_zero, Import.outline_eq] at h
    obtain ⟨hlabel, -⟩ := Outline.heading_unique (.header hi)
      (Stmt.readable_label (hbody s (by simp))) Outline.isNote_empty Outline.isNote_empty
      (List.head_eq_of_cons_eq h)
    cases s with
    | declare | print | ifThen | ifElse | block => cases hlabel

theorem imports_unique {is is' : List Import} {body body' : List (Stmt α)}
    (his : ∀ i ∈ is, ∀ c ∈ i.header.toList, c ≠ ' ' ∧ c ≠ '\n')
    (his' : ∀ i ∈ is', ∀ c ∈ i.header.toList, c ≠ ' ' ∧ c ≠ '\n')
    (hbody : ∀ s ∈ body, s.untyped.Written) (hbody' : ∀ s ∈ body', s.untyped.Written)
    (h : is.map Import.outline ++ Stmt.outlineAll mark 0 body =
      is'.map Import.outline ++ Stmt.outlineAll mark 0 body') :
    is = is' ∧ Stmt.outlineAll mark 0 body = Stmt.outlineAll mark 0 body' := by
  induction is generalizing is' with
  | nil =>
    cases is' with
    | nil => exact ⟨rfl, h⟩
    | cons i' is' => exact absurd h.symm (outlineAll_ne_import (his' i' (by simp)) hbody _)
  | cons i is ih =>
    cases is' with
    | nil => exact absurd h (outlineAll_ne_import (his i (by simp)) hbody' _)
    | cons i' is' =>
      rw [List.forall_mem_cons] at his his'
      obtain ⟨hline, hrest⟩ := List.cons.inj h
      rw [Import.outline_eq, Import.outline_eq] at hline
      obtain ⟨hlabel, hspan, -⟩ := Outline.heading_unique (.header his.1) (.header his'.1)
        Outline.isNote_empty Outline.isNote_empty hline
      obtain ⟨rfl, hbodies⟩ := ih his.2 his'.2 hrest
      obtain ⟨header, span⟩ := i
      cases hspan
      cases hlabel
      exact ⟨rfl, hbodies⟩

theorem newline_not_mem_outline (hmark : IsMark mark) {p : Program α} (hp : p.Written) :
    ∀ l ∈ p.outline mark, '\n' ∉ l.toList := by
  refine List.forall_mem_append.mpr ⟨List.forall_mem_map.mpr fun i hi => ?_,
    Stmt.newline_not_mem_outlineAll_of_forall fun s hs =>
      Stmt.newline_not_mem_outline hmark (hp.body s hs) 0⟩
  rw [Import.outline_eq]
  exact Outline.newline_not_mem_heading (.header (hp.imports i hi)) Outline.isNote_empty _

theorem eq_of_outline (hmark : IsMark mark) {p p' : Program α} (hp : p.Written) (hp' : p'.Written)
    (h : Text.unlines (p.outline mark) = Text.unlines (p'.outline mark)) :
    p.unplacedNames = p'.unplacedNames := by
  have hlines := Text.unlines_injective (newline_not_mem_outline hmark hp)
    (newline_not_mem_outline hmark hp') h
  obtain ⟨himports, hbody⟩ := imports_unique hp.imports hp'.imports hp.body hp'.body hlines
  have hend : Outline.Ends 0 [] := by simp [Outline.Ends]
  rw [← List.append_nil (Stmt.outlineAll mark 0 p.body),
    ← List.append_nil (Stmt.outlineAll mark 0 p'.body)] at hbody
  obtain ⟨hsame, -⟩ := Stmt.ShownBy.all (fun s hs => Stmt.shownBy hmark (hp.body s hs)) hp'.body
    hend hend hbody
  rw [unplacedNames, unplacedNames, himports, hsame]

theorem written_of_program {src : String} {p : Program Unit}
    (h : (Lexed.ofSource src).program = .ok p) : p.Written := by
  obtain ⟨hplaced, -⟩ := Lexed.placed_of_program (fun _ => Lexed.valueFits_of_mem) h
  obtain ⟨himports, hbody⟩ := hplaced.written fun _ => Lexed.written_of_mem
  refine ⟨himports, fun s hs => ?_⟩
  rw [s.untyped_self]
  exact hbody s hs

theorem written_of_check {p : Program Unit} (hp : p.Written) {c : Checked (Program Ty)}
    (h : p.check = .ok c) : c.value.Written := by
  have htyping : ProgramTyping p c.value := check_iff.mp ⟨c, h, rfl⟩
  refine ⟨htyping.imports_eq ▸ hp.imports, fun s hs => ?_⟩
  have hmem : s.untyped ∈ p.body := by
    rw [← htyping.untyped]
    exact List.mem_map_of_mem hs
  rw [← s.untyped.untyped_self]
  exact hp.body _ hmem

end Program

/-- Outlines tell apart whatever is read. Two programs with the same outline, both as they were read
or both as they were checked, and two expressions with the same outline are the same but for the
places of names. -/
theorem same_of_same_outline (src src' : String) :
    (∀ p p', (Lexed.ofSource src).program = .ok p → (Lexed.ofSource src').program = .ok p' →
      (Text.unlines (p.outline Outline.untyped) = Text.unlines (p'.outline Outline.untyped) →
        p.unplacedNames = p'.unplacedNames) ∧
      ∀ c c', p.check = .ok c → p'.check = .ok c' →
        Text.unlines (c.value.outline Outline.typed) =
          Text.unlines (c'.value.outline Outline.typed) →
        c.value.unplacedNames = c'.value.unplacedNames) ∧
    ∀ e e', (Lexed.ofSource src).expr = .ok e → (Lexed.ofSource src').expr = .ok e' →
      Text.unlines (e.outline Outline.untyped 0) = Text.unlines (e'.outline Outline.untyped 0) →
      e.unplacedNames = e'.unplacedNames := by
  refine ⟨fun p p' hp hp' => ⟨fun h => ?_, fun c c' hc hc' h => ?_⟩, fun e e' he he' h => ?_⟩
  · exact Program.eq_of_outline Outline.isMark_untyped (Program.written_of_program hp)
      (Program.written_of_program hp') h
  · exact Program.eq_of_outline Outline.isMark_typed
      (Program.written_of_check (Program.written_of_program hp) hc)
      (Program.written_of_check (Program.written_of_program hp') hc') h
  · exact Expr.eq_of_outline Outline.isMark_untyped (Expr.written_of_expr he)
      (Expr.written_of_expr he') h

theorem same_of_same_outline_parentheses :
    (∃ p p' c c', (Lexed.ofSource "lnumber x := 1; says ( x);").program = .ok p ∧
      (Lexed.ofSource "lnumber x := 1; says (x );").program = .ok p' ∧
      p.check = .ok c ∧ p'.check = .ok c' ∧ p.unplacedNames = p'.unplacedNames ∧
      c.value.unplacedNames = c'.value.unplacedNames) ∧
    ∃ e e', (Lexed.ofSource "( x)").expr = .ok e ∧ (Lexed.ofSource "(x )").expr = .ok e' ∧
      e ≠ e' ∧ e.unplacedNames = e'.unplacedNames := by
  have hprogram : (Lexed.ofSource "lnumber x := 1; says ( x);").program.toOption.any (fun p =>
      (Lexed.ofSource "lnumber x := 1; says (x );").program.toOption.any fun p' =>
        p.check.toOption.any fun c => p'.check.toOption.any fun c' =>
          Text.unlines (p.outline Outline.untyped) = Text.unlines (p'.outline Outline.untyped) ∧
            Text.unlines (c.value.outline Outline.typed) =
              Text.unlines (c'.value.outline Outline.typed)) = true := by
    decide +kernel
  have hexpr : (Lexed.ofSource "( x)").expr.toOption.any (fun e =>
      (Lexed.ofSource "(x )").expr.toOption.any fun e' => e ≠ e' ∧
        Text.unlines (e.outline Outline.untyped 0) =
          Text.unlines (e'.outline Outline.untyped 0)) = true := by
    decide +kernel
  simp only [Option.any_eq_true, decide_eq_true_eq, Except.toOption_eq_some_iff] at hprogram hexpr
  obtain ⟨p, hp, p', hp', c, hc, c', hc', houtline, houtline'⟩ := hprogram
  obtain ⟨e, he, e', he', hne, houtlines⟩ := hexpr
  obtain ⟨hread, hchecked⟩ := (same_of_same_outline _ _).1 p p' hp hp'
  exact ⟨⟨p, p', c, c', hp, hp', hc, hc', hread houtline, hchecked c c' hc hc' houtline'⟩,
    e, e', he, he', hne, (same_of_same_outline _ _).2 e e' he he' houtlines⟩

end HumanScript
