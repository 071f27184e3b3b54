import HumanScript.Proofs.Brackets
import HumanScript.Proofs.UniqueLines

/-! Texts that can stand on a line of code: they end no line, and leave no string literal and no
parenthesis open. Whatever is in its string literals, the code of an expression is such a text. -/
namespace HumanScript.Cpp

/-- What a text shows outside of its string literals. -/
def shown (t : String) : List Char := outside false t.toList

/-- A character that neither brackets nor quotes anything, and ends no line. -/
def isBare (c : Char) : Bool := !(['"', '(', ')', '\x7b', '\x7d', '\n'].contains c)

/-- A text that leaves no string literal and no parenthesis open, and ends no line. -/
structure Closed (t : String) : Prop where
  newline : '\n' ∉ t.toList
  outside : ∀ more, outside false (t.toList ++ more) = shown t ++ outside false more
  parens : parens.Balanced (shown t)

/-- A closed text without braces. -/
structure Tidy (t : String) : Prop extends Closed t where
  opening : '\x7b' ∉ shown t
  closing : '\x7d' ∉ shown t

theorem not_mem_of_bare {cs : List Char} (h : cs.all isBare = true) {c : Char}
    (hc : isBare c = false) : c ∉ cs := by
  intro hmem
  have hbare := List.all_eq_true.mp h c hmem
  rw [hc] at hbare
  cases hbare

theorem isBare_of_isAtomic {c : Char} (h : isAtomic c = true) : isBare c = true := by
  cases hbare : isBare c with
  | true => rfl
  | false =>
    rw [isBare, Bool.not_eq_false', List.contains_iff_mem] at hbare
    simp only [List.mem_cons, List.not_mem_nil, or_false] at hbare
    rcases hbare with rfl | rfl | rfl | rfl | rfl | rfl <;> cases h

theorem all_isBare_of_isAtomic {cs : List Char} (h : ∀ c ∈ cs, isAtomic c = true) :
    cs.all isBare = true := List.all_eq_true.mpr fun c hc => isBare_of_isAtomic (h c hc)

theorem shown_of_not_mem {t : String} (h : '"' ∉ t.toList) : shown t = t.toList := by
  have houtside := outside_of_not_mem h []
  rwa [List.append_nil, outside, List.append_nil] at houtside

theorem shown_of_bare {t : String} (h : t.toList.all isBare = true) : shown t = t.toList :=
  shown_of_not_mem (not_mem_of_bare h rfl)

theorem shown_append {t : String} (ht : Closed t) (u : String) :
    shown (t ++ u) = shown t ++ shown u := by
  rw [shown, String.toList_append, ht.outside]
  rfl

/-- A text with neither quotes nor parentheses. -/
theorem Closed.of_not_mem {t : String} (hnewline : '\n' ∉ t.toList) (hquote : '"' ∉ t.toList)
    (hopening : '(' ∉ t.toList) (hclosing : ')' ∉ t.toList) : Closed t := by
  have hshown := shown_of_not_mem hquote
  refine ⟨hnewline, ?_, ?_⟩
  · rw [hshown]
    exact outside_of_not_mem hquote
  · rw [hshown]
    exact .of_not_mem hopening hclosing

theorem Closed.append {t u : String} (ht : Closed t) (hu : Closed u) : Closed (t ++ u) := by
  have hshown := shown_append ht u
  refine ⟨?_, ?_, ?_⟩
  · rw [String.toList_append, List.mem_append, not_or]
    exact ⟨ht.newline, hu.newline⟩
  · intro more
    rw [hshown, String.toList_append, List.append_assoc, ht.outside, hu.outside, List.append_assoc]
  · rw [hshown]
    exact ht.parens.append hu.parens

theorem shown_stringLiteral (s : String) : shown (stringLiteral s) = ['"', '"'] := by
  have houtside := outside_stringLiteral s []
  rwa [List.append_nil] at houtside

namespace Tidy
variable {t u : String}

theorem of_bare (h : t.toList.all isBare = true) : Tidy t := by
  have hnone : ∀ {c}, isBare c = false → c ∉ t.toList := not_mem_of_bare h
  have hshown := shown_of_bare h
  refine ⟨.of_not_mem (hnone rfl) (hnone rfl) (hnone rfl) (hnone rfl), ?_, ?_⟩
  · rw [hshown]
    exact hnone rfl
  · rw [hshown]
    exact hnone rfl

theorem append (ht : Tidy t) (hu : Tidy u) : Tidy (t ++ u) := by
  have hshown := shown_append ht.toClosed u
  refine ⟨ht.toClosed.append hu.toClosed, ?_, ?_⟩
  · rw [hshown, List.mem_append, not_or]
    exact ⟨ht.opening, hu.opening⟩
  · rw [hshown, List.mem_append, not_or]
    exact ⟨ht.closing, hu.closing⟩

theorem stringLiteral (s : String) : Tidy (Cpp.stringLiteral s) := by
  have hshown := shown_stringLiteral s
  refine ⟨⟨not_mem_stringLiteral (by decide) s, ?_, ?_⟩, ?_, ?_⟩
  · rw [hshown]
    exact outside_stringLiteral s
  · rw [hshown]
    exact .of_not_mem (by decide) (by decide)
  · rw [hshown]
    decide
  · rw [hshown]
    decide

theorem shown_parens (ht : Tidy t) : shown ("(" ++ t ++ ")") = '(' :: (shown t ++ [')']) := by
  have hopen : shown ("(" ++ t ++ ")") = '(' :: outside false (t.toList ++ [')']) := by
    rw [shown, String.toList_append, String.toList_append, List.append_assoc]
    rfl
  rw [hopen, ht.outside]
  rfl

theorem wrap (ht : Tidy t) : Tidy ("(" ++ t ++ ")") := by
  have hshown := ht.shown_parens
  refine ⟨⟨?_, ?_, ?_⟩, ?_, ?_⟩
  · simp [ht.newline]
  · intro more
    have htext : ("(" ++ t ++ ")").toList ++ more = '(' :: (t.toList ++ ')' :: more) := by
      simp
    rw [hshown, htext]
    change '(' :: outside false (t.toList ++ ')' :: more) = _
    rw [ht.outside]
    simp [Cpp.outside]
  · rw [hshown]
    exact ht.parens.wrap
  · rw [hshown]
    simp [ht.opening]
  · rw [hshown]
    simp [ht.closing]

end Tidy

/-- Something that stands outside of parentheses shows that no pair spans the whole. -/
theorem not_wrapped_of_blank {t u : String} (ht : Tidy t) :
    ¬ parens.Wrapped (shown (t ++ " " ++ u)) := by
  intro hwrapped
  have hblank : Tidy " " := .of_bare rfl
  have hshown : shown (t ++ " " ++ u) = shown t ++ (' ' :: shown u) := by
    rw [shown_append (ht.append hblank).toClosed, shown_append ht.toClosed, List.append_assoc]
    rfl
  have houter := hwrapped.outer_eq
  rw [hshown, Brackets.outer_append ht.parens] at houter
  exact List.append_ne_nil_of_right_ne_nil _ (List.cons_ne_nil _ _) houter

theorem not_wrapped_of_head {cs : List Char} (h : cs.head? ≠ some '(') : ¬ parens.Wrapped cs := by
  rintro ⟨inner, rfl, -⟩
  exact h rfl

/-! Expressions. -/

theorem IsWord.atomic {x : String} (h : IsWord x) : ∀ c ∈ x.toList, isAtomic c = true := by
  intro c hc
  simp [isAtomic, h c hc]

/-- Numbers that are not finite are written as words. -/
theorem atomic_double (x : Binary64) : ∀ c ∈ (doubleLiteral x).toList, isAtomic c = true := by
  cases hx : x.isFinite with
  | true => exact (Expr.IsAtom.double hx).atomic
  | false =>
    have hwords : ∀ w ∈ ["NaN", "inf", "-inf"], (w.toList.all isAtomic) = true := by decide
    have hrender : x.render ∈ ["NaN", "inf", "-inf"] := by
      unfold Binary64.render
      dsimp only
      rw [hx]
      split
      · simp
      · split <;> simp
    have htext := List.all_eq_true.mp (hwords _ hrender)
    unfold doubleLiteral
    dsimp only
    split
    · exact htext
    · intro c hc
      rw [String.toList_append] at hc
      rcases List.mem_append.mp hc with hc | hc
      · exact htext c hc
      · have hpoint : ∀ c ∈ ".0".toList, isAtomic c = true := List.all_eq_true.mp rfl
        exact hpoint c hc

namespace Expr

/-- The code of numbers, truth values and names. -/
inductive IsBareCode : Expr → Prop where
  | int (n : Int) : IsBareCode (.int n)
  | double (x : Binary64) : IsBareCode (.double x)
  | bool (b : Bool) : IsBareCode (.bool b)
  | name {x : String} (hx : IsWord x) : IsBareCode (.name x)

theorem IsBareCode.atomic {e : Expr} (h : IsBareCode e) :
    ∀ c ∈ e.render.toList, Cpp.isAtomic c = true := by
  cases h with
  | int n => exact (IsAtom.int n).atomic
  | double x => exact atomic_double x
  | bool b => exact (IsAtom.bool b).atomic
  | name hx => exact hx.atomic

theorem IsBareCode.tidy {e : Expr} (h : IsBareCode e) : Tidy e.render :=
  .of_bare (all_isBare_of_isAtomic h.atomic)

/-- An operation without the parentheses around it. -/
def operation (op : BinaryOp) (l r : Expr) : String :=
  l.render ++ " " ++ operator op ++ " " ++ r.render

theorem render_eq_operation (op : BinaryOp) (l r : Expr) :
    (binary op l r).render = "(" ++ operation op l r ++ ")" := by
  rw [render_binary, operation, ← String.toList_inj]
  simp

theorem tidy_operation (op : BinaryOp) {l r : Expr} (hl : Tidy l.render) (hr : Tidy r.render) :
    Tidy (operation op l r) := by
  have hblank : Tidy " " := .of_bare rfl
  have hop : Tidy (operator op) := by cases op <;> exact .of_bare rfl
  exact (((hl.append hblank).append hop).append hblank).append hr

theorem render_stringOf_eq (v : Expr) :
    (stringOf v).render = "std::string" ++ ("(" ++ v.render ++ ")") := by
  rw [render_stringOf, ← String.toList_inj]
  simp

theorem render_toString_eq (v : Expr) :
    (toString v).render = "std::to_string" ++ ("(" ++ v.render ++ ")") := by
  rw [render_toString, ← String.toList_inj]
  simp

/-- An expression leaves nothing open. -/
theorem tidy {e : Expr} (h : ∀ x ∈ e.names, IsWord x) : Tidy e.render := by
  induction e with
  | int n => exact (IsBareCode.int n).tidy
  | double x => exact (IsBareCode.double x).tidy
  | string s => exact .stringLiteral s
  | bool b => exact (IsBareCode.bool b).tidy
  | name x => exact (IsBareCode.name (h x (List.mem_singleton.mpr rfl))).tidy
  | stringOf v ih =>
    have hname : Tidy "std::string" := .of_bare rfl
    rw [render_stringOf_eq]
    exact hname.append (ih h).wrap
  | toString v ih =>
    have hname : Tidy "std::to_string" := .of_bare rfl
    rw [render_toString_eq]
    exact hname.append (ih h).wrap
  | choice v l r ihv ihl ihr =>
    simp only [names, List.forall_mem_append] at h
    have hthen : Tidy " ? " := .of_bare rfl
    have helse : Tidy " : " := .of_bare rfl
    exact ((((ihv h.1.1).append hthen).append (ihl h.1.2)).append helse).append (ihr h.2)
  | binary op l r ihl ihr =>
    rw [names, List.forall_mem_append] at h
    rw [render_eq_operation]
    exact (tidy_operation op (ihl h.1) (ihr h.2)).wrap

theorem IsBareCode.not_wrapped {e : Expr} (h : IsBareCode e) :
    ¬ parens.Wrapped (shown e.render) := by
  have hbare := all_isBare_of_isAtomic h.atomic
  rw [shown_of_bare hbare]
  refine not_wrapped_of_head fun hhead => ?_
  exact not_mem_of_bare hbare rfl (List.mem_of_mem_head? hhead)

theorem not_wrapped_operation (op : BinaryOp) {l r : Expr} (hl : Tidy l.render) :
    ¬ parens.Wrapped (shown (operation op l r)) := by
  have htext : operation op l r = l.render ++ " " ++ (operator op ++ " " ++ r.render) := by
    rw [operation, ← String.toList_inj]
    simp
  rw [htext]
  exact not_wrapped_of_blank hl

theorem tidy_condition {c : Expr} (h : ∀ x ∈ c.names, IsWord x) : Tidy c.renderCondition := by
  have htidy := tidy h
  cases c with
  | binary op l r => exact htidy
  | int | double | bool | name | string | stringOf | toString | choice => exact htidy.wrap

/-- A condition stands in exactly one pair of parentheses. -/
theorem wrappedOnce_condition {c : Expr} (h : ∀ x ∈ c.names, IsWord x) :
    parens.WrappedOnce (shown c.renderCondition) := by
  have hwrap : ∀ {t : String}, Tidy t → ¬ parens.Wrapped (shown t) →
      parens.WrappedOnce (shown ("(" ++ t ++ ")")) := by
    intro t ht hnot
    rw [ht.shown_parens]
    exact ⟨shown t, rfl, ht.parens, hnot⟩
  have htidy := tidy h
  cases c with
  | int n => exact hwrap htidy (IsBareCode.int n).not_wrapped
  | double x => exact hwrap htidy (IsBareCode.double x).not_wrapped
  | bool b => exact hwrap htidy (IsBareCode.bool b).not_wrapped
  | name x =>
    exact hwrap htidy (IsBareCode.name (h x (List.mem_singleton.mpr rfl))).not_wrapped
  | string s =>
    refine hwrap htidy (not_wrapped_of_head ?_)
    rw [render_string, shown_stringLiteral]
    decide
  | stringOf v =>
    have hname : Tidy "std::string" := .of_bare rfl
    refine hwrap htidy (not_wrapped_of_head ?_)
    rw [render_stringOf_eq, shown_append hname.toClosed, shown_of_bare rfl]
    simp
  | toString v =>
    have hname : Tidy "std::to_string" := .of_bare rfl
    refine hwrap htidy (not_wrapped_of_head ?_)
    rw [render_toString_eq, shown_append hname.toClosed, shown_of_bare rfl]
    simp
  | choice v l r =>
    simp only [names, List.forall_mem_append] at h
    have htext : (choice v l r).render =
        v.render ++ " " ++ ("? " ++ l.render ++ " : " ++ r.render) := by
      rw [render_choice, ← String.toList_inj]
      simp
    refine hwrap htidy ?_
    rw [htext]
    exact not_wrapped_of_blank (tidy h.1.1)
  | binary op l r =>
    rw [names, List.forall_mem_append] at h
    have hoperation := tidy_operation op (tidy h.1) (tidy h.2)
    rw [renderCondition, render_eq_operation]
    exact hwrap hoperation (not_wrapped_operation op (tidy h.1))

end Expr

end HumanScript.Cpp
