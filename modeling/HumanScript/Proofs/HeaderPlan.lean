import HumanScript.Proofs.Mentions
import HumanScript.Proofs.Parsing.Programs
import HumanScript.Proofs.Scanning

/-! The headers of a program fit its code. Headers are planned from the types in the program, and
names stand in the code where lowering puts them; for checked programs the two agree. -/
namespace HumanScript

namespace Cpp.Headers

@[simp] theorem includes_require (h : Headers) (header reason other : String) :
    (h.require header reason).includes other = (h.includes other || decide (header = other)) := by
  unfold require
  split
  · rename_i hin
    by_cases heq : header = other
    · subst heq
      simp [hin]
    · simp [heq]
  · simp [includes, Bool.or_assoc]

@[simp] theorem named_require (h : Headers) (header reason : String) :
    (h.require header reason).named = h.named := by
  unfold require
  split <;> rfl

/-- No header is added twice, and none that the program names. -/
structure Distinct (h : Headers) : Prop where
  nodup : (h.added.map AddedHeader.header).Nodup
  disjoint : ∀ a ∈ h.added, a.header ∉ h.named

theorem Distinct.require {h : Headers} (hd : h.Distinct) (header reason : String) :
    (h.require header reason).Distinct := by
  unfold Headers.require
  split
  · exact hd
  · rename_i hin
    simp only [includes, Bool.or_eq_true, List.contains_iff_mem, List.any_eq_true,
      decide_eq_true_eq, not_or, not_exists, not_and] at hin
    refine ⟨?_, ?_⟩
    · rw [List.map_append, List.nodup_append]
      refine ⟨hd.nodup, by simp, ?_⟩
      simp only [List.map_cons, List.map_nil, List.mem_singleton, List.mem_map]
      rintro _ ⟨a, ha, rfl⟩ _ rfl
      exact hin.2 a ha
    · exact List.forall_mem_append.mpr ⟨hd.disjoint, List.forall_mem_singleton.mpr hin.1⟩

end Cpp.Headers

namespace Program
open Cpp (Headers AddedHeader)
variable (p : Program Ty)

theorem distinct_headers : (Headers.ofProgram p).Distinct := by
  have hnamed : Headers.Distinct ⟨p.imports.map Import.header, []⟩ := ⟨by simp, by simp⟩
  unfold Headers.ofProgram
  dsimp only
  split_ifs
  · exact (((hnamed.require _ _).require _ _).require _ _).require _ _
  · exact ((hnamed.require _ _).require _ _).require _ _
  · exact hnamed.require _ _
  · exact hnamed

theorem named_headers : (Headers.ofProgram p).named = p.imports.map Import.header := by
  unfold Headers.ofProgram
  dsimp only
  split_ifs <;> simp

theorem includes_string (h : Stmt.anyUsesText p.body = true ∨ Stmt.anyPrints p.body = true) :
    (Headers.ofProgram p).includes "string" = true := by
  unfold Headers.ofProgram
  dsimp only
  split_ifs <;> simp_all

theorem includes_iostream (h : Stmt.anyPrints p.body = true) :
    (Headers.ofProgram p).includes "iostream" = true := by
  unfold Headers.ofProgram
  simp [h]

/-- If nothing is printed, only strings are ever added. -/
theorem string_mem_added_iff (h : Stmt.anyPrints p.body = false) :
    "string" ∈ (Headers.ofProgram p).added.map AddedHeader.header ↔
      Stmt.anyUsesText p.body = true ∧ "string" ∉ (Headers.ofProgram p).named := by
  rw [named_headers]
  unfold Headers.ofProgram
  dsimp only
  rw [h, if_neg Bool.false_ne_true]
  by_cases htext : Stmt.anyUsesText p.body = true
  · rw [if_pos htext, Headers.require]
    by_cases hin : "string" ∈ p.imports.map Import.header
    · simp [Headers.includes, htext, hin]
    · simp [Headers.includes, htext, hin]
  · rw [if_neg htext]
    simp [htext]

end Program

theorem Cpp.Stmt.stdNames_arm (q : Cpp.Stmt) : Cpp.Stmt.stdNamesAll q.arm = q.stdNames := by
  cases q with
  | block body => rfl
  | declare | print | ifThen | ifElse => simp [arm, stdNamesAll]

section Expressions
variable {Γ : Context} {e : Expr Unit} {e' : Expr Ty}

theorem Expr.usesText_of_info (h : e'.info = .text) : e'.usesText = true := by
  cases e' <;> simp_all [usesText, info]

theorem ExprTyping.info_of_isStringLiteral (h : ExprTyping Γ e e')
    (hliteral : e'.isStringLiteral = true) : e'.info = .text := by
  cases h with
  | string => rfl
  | int | float | bool | name | binary => cases hliteral

theorem Ty.stdNames_stringify_eq_nil {ty : Ty} {code : Cpp.Expr} :
    (ty.stringify code).stdNames = [] ↔ ty = .text ∧ code.stdNames = [] := by
  cases ty <;> simp [stringify, Cpp.Expr.stdNames]

/-- An operation has standard names in its code if an operand has, if it works on two string
literals, or if it makes a text of something else. -/
theorem Expr.stdNames_binary_eq_nil {op : BinaryOp} {lhs rhs : Expr Ty} {span : Span} {ty : Ty} :
    (Expr.binary op lhs rhs span ty).toCpp.stdNames = [] ↔
      lhs.toCpp.stdNames = [] ∧ rhs.toCpp.stdNames = [] ∧
      ¬ (lhs.isStringLiteral = true ∧ rhs.isStringLiteral = true) ∧
      (op = .add ∧ ty = .text → lhs.info = .text ∧ rhs.info = .text) := by
  rw [Expr.toCpp]
  by_cases hliterals : lhs.isStringLiteral = true ∧ rhs.isStringLiteral = true
  · simp [hliterals, Cpp.Expr.stdNames]
  · rw [if_neg hliterals, Cpp.Expr.stdNames, List.append_eq_nil_iff]
    by_cases hconcat : op = .add ∧ ty = .text
    · rw [if_pos hconcat, if_pos hconcat, Ty.stdNames_stringify_eq_nil,
        Ty.stdNames_stringify_eq_nil]
      tauto
    · rw [if_neg hconcat, if_neg hconcat]
      tauto

/-- Code that is written with strings comes from texts. -/
theorem ExprTyping.usesText_of_stdNames (h : ExprTyping Γ e e') (hnames : e'.toCpp.stdNames ≠ []) :
    e'.usesText = true := by
  induction h with
  | int | float | string | bool | name => exact absurd rfl hnames
  | @binary op lhs rhs lhs' rhs' span ty hlhs _ _ ihl ihr =>
    rw [Expr.usesText, Bool.or_eq_true, Bool.or_eq_true, decide_eq_true_eq]
    by_contra hnone
    rw [not_or, not_or] at hnone
    refine hnames (Expr.stdNames_binary_eq_nil.mpr ⟨?_, ?_, ?_, ?_⟩)
    · exact not_not.mp fun hne => hnone.1.2 (ihl hne)
    · exact not_not.mp fun hne => hnone.2 (ihr hne)
    · exact fun hliterals => hnone.1.2
        (Expr.usesText_of_info (hlhs.info_of_isStringLiteral hliterals.1))
    · exact fun hconcat => absurd hconcat.2 hnone.1.1

/-- A text that is no variable, and is not written with strings, is a string literal. -/
theorem ExprTyping.isStringLiteral_of_usesText (h : ExprTyping Γ e e')
    (hvars : ∀ x, Γ x ≠ some .text) (hnames : e'.toCpp.stdNames = [])
    (huses : e'.usesText = true) : e'.isStringLiteral = true := by
  induction h with
  | int | float | bool => cases huses
  | string => rfl
  | @name ident span ty hname =>
    rw [Expr.usesText, decide_eq_true_eq] at huses
    exact absurd (huses ▸ hname) (hvars ident.name)
  | @binary op lhs rhs lhs' rhs' span ty hlhs hrhs hty ihl ihr =>
    obtain ⟨hl, hr, hnot, htexts⟩ := Expr.stdNames_binary_eq_nil.mp hnames
    have hleft : lhs'.usesText = true → lhs'.isStringLiteral = true := ihl hl
    have hright : rhs'.usesText = true → rhs'.isStringLiteral = true := ihr hr
    -- Neither operand is a text, or both were string literals.
    have hboth : ¬ (lhs'.info = .text ∧ rhs'.info = .text) := fun hinfo =>
      hnot ⟨hleft (Expr.usesText_of_info hinfo.1), hright (Expr.usesText_of_info hinfo.2)⟩
    have hoperand : lhs'.usesText = true ∨ rhs'.usesText = true →
        lhs'.info = .text ∨ rhs'.info = .text :=
      Or.imp (fun hu => hlhs.info_of_isStringLiteral (hleft hu))
        (fun hu => hrhs.info_of_isStringLiteral (hright hu))
    have hnumeric : ¬ (lhs'.info.isNumeric = true ∧ rhs'.info.isNumeric = true ∧
        (lhs'.info = .text ∨ rhs'.info = .text)) := fun ⟨hl, hr, htext⟩ =>
      htext.elim (Ty.ne_text_of_isNumeric hl) (Ty.ne_text_of_isNumeric hr)
    simp only [Expr.usesText, Bool.or_eq_true, decide_eq_true_eq, or_assoc] at huses
    exfalso
    cases op with
    | add =>
      rcases BinaryOp.resultTy?_add_cases hty with hwide | ⟨rfl, -⟩
      · obtain ⟨hl, hr, hwide⟩ := Ty.isNumeric_of_widest? hwide
        have hoperands := huses.resolve_left (Ty.ne_text_of_isNumeric hwide)
        exact hnumeric ⟨hl, hr, hoperand hoperands⟩
      · exact hboth (htexts ⟨rfl, rfl⟩)
    | eq =>
      obtain ⟨rfl, hsame | hnum⟩ := BinaryOp.resultTy?_eq_cases hty
      · have htext := hoperand (huses.resolve_left (by simp))
        rw [hsame.1, or_self] at htext
        exact hboth ⟨hsame.1.trans htext, htext⟩
      · exact hnumeric ⟨hnum.1, hnum.2, hoperand (huses.resolve_left (by simp))⟩

end Expressions

/-- Some variable is a text. -/
def Context.HasText (Γ : Context) : Prop := ∃ x, Γ x = some .text

theorem ExprTyping.hasText_or_stdNames {Γ : Context} {e : Expr Unit} {e' : Expr Ty}
    (h : ExprTyping Γ e e') (huses : e'.usesText = true) (hinfo : e'.info ≠ .text) :
    Γ.HasText ∨ e'.toCpp.stdNames ≠ [] := by
  by_contra hnone
  rw [not_or, not_not] at hnone
  have hvars : ∀ x, Γ x ≠ some .text := fun x hx => hnone.1 ⟨x, hx⟩
  exact hinfo (h.info_of_isStringLiteral (h.isStringLiteral_of_usesText hvars hnone.2 huses))

theorem Ty.stdNames_toCpp {ty : Ty} {t : Cpp.CType} (h : ty.toCpp = .ok t) :
    t.stdNames = if ty = .text then ["string"] else [] := by
  cases ty <;> cases h <;> rfl

mutual

/-- Standard names in code come from printing, and those of strings also from texts. -/
theorem StmtTyping.prints_or_usesText {Γ Δ : Context} {s : Stmt Unit} {s' : Stmt Ty}
    {q : Cpp.Stmt} (h : StmtTyping Γ s s' Δ) (hq : s'.toCpp = .ok q) :
    ∀ n ∈ q.stdNames, s'.prints = true ∨ s'.usesText = true ∧ n ∈ ["string", "to_string"] := by
  have hexpr : ∀ {e : Expr Unit} {e' : Expr Ty}, ExprTyping Γ e e' → ∀ n ∈ e'.toCpp.stdNames,
      e'.usesText = true ∧ n ∈ ["string", "to_string"] := fun he n hn =>
    ⟨he.usesText_of_stdNames (List.ne_nil_of_mem hn), Cpp.Expr.stdNames_subset _ hn⟩
  intro n hn
  cases h with
  | @declare _ ty _ _ _ _ _ hinit _ =>
    obtain ⟨t, ht, rfl⟩ := Stmt.toCpp_declare_iff.mp hq
    rw [Cpp.Stmt.stdNames, Ty.stdNames_toCpp ht, List.mem_append] at hn
    rw [Stmt.usesText, Bool.or_eq_true, decide_eq_true_eq]
    rcases hn with hn | hn
    · split at hn
      · rename_i htext
        exact .inr ⟨.inl htext, List.mem_cons.mpr (.inl (List.mem_singleton.mp hn))⟩
      · cases hn
    · exact .inr ((hexpr hinit n hn).imp_left .inr)
  | print _ _ => exact .inl rfl
  | ifThen hcond _ hthen =>
    obtain ⟨a, ha, rfl⟩ := Stmt.toCpp_ifThen_iff.mp hq
    rw [Cpp.Stmt.stdNames, a.stdNames_arm, List.mem_append] at hn
    rw [Stmt.usesText, Stmt.prints, Bool.or_eq_true]
    rcases hn with hn | hn
    · exact .inr ((hexpr hcond n hn).imp_left .inl)
    · exact (hthen.prints_or_usesText ha n hn).imp_right (And.imp_left .inr)
  | ifElse hcond _ hthen helse =>
    obtain ⟨a, ha, b, hb, rfl⟩ := Stmt.toCpp_ifElse_iff.mp hq
    rw [Cpp.Stmt.stdNames, a.stdNames_arm, b.stdNames_arm, List.mem_append, List.mem_append] at hn
    rw [Stmt.usesText, Stmt.prints, Bool.or_eq_true, Bool.or_eq_true, Bool.or_eq_true]
    rcases hn with (hn | hn) | hn
    · exact .inr ((hexpr hcond n hn).imp_left fun huses => .inl (.inl huses))
    · exact (hthen.prints_or_usesText ha n hn).imp .inl
        (And.imp_left fun huses => .inl (.inr huses))
    · exact (helse.prints_or_usesText hb n hn).imp .inr (And.imp_left .inr)
  | block hbody =>
    obtain ⟨qs, hqs, rfl⟩ := Stmt.toCpp_block_iff.mp hq
    exact hbody.prints_or_usesText hqs n hn

theorem BodyTyping.prints_or_usesText {Γ Δ : Context} {body : List (Stmt Unit)}
    {body' : List (Stmt Ty)} {qs : List Cpp.Stmt} (h : BodyTyping Γ body body' Δ)
    (hqs : Stmt.allToCpp body' = .ok qs) : ∀ n ∈ Cpp.Stmt.stdNamesAll qs,
      Stmt.anyPrints body' = true ∨
        Stmt.anyUsesText body' = true ∧ n ∈ ["string", "to_string"] := by
  intro n hn
  cases h with
  | nil =>
    cases hqs
    cases hn
  | cons hs hbody =>
    obtain ⟨q, hq, rest, hrest, rfl⟩ := Stmt.allToCpp_cons_iff.mp hqs
    rw [Stmt.anyPrints, Stmt.anyUsesText, Bool.or_eq_true, Bool.or_eq_true]
    rcases List.mem_append.mp hn with hn | hn
    · exact (hs.prints_or_usesText hq n hn).imp .inl (And.imp_left .inl)
    · exact (hbody.prints_or_usesText hrest n hn).imp .inr (And.imp_left .inr)

end

theorem ExprTyping.info_ne_text {Γ : Context} {e : Expr Unit} {e' : Expr Ty} {ty : Ty}
    (h : ExprTyping Γ e e') (hfits : ty.accepts e'.info = true ∨ ty = .number ∧ SmallLiteral e)
    (hty : ty ≠ .text) : e'.info ≠ .text := by
  intro hinfo
  rcases hfits with haccepts | ⟨-, hsmall⟩
  · rw [hinfo] at haccepts
    exact hty (by simpa [Ty.accepts_iff] using haccepts)
  · cases hsmall
    cases h with
    | int => cases hinfo

mutual

/-- A text in a statement, or a variable after it that is a text, shows in its code, unless there
was such a variable before it. -/
theorem StmtTyping.hasText_or_stdNames {Γ Δ : Context} {s : Stmt Unit} {s' : Stmt Ty}
    {q : Cpp.Stmt} (h : StmtTyping Γ s s' Δ) (hq : s'.toCpp = .ok q)
    (huses : s'.usesText = true ∨ Δ.HasText) : Γ.HasText ∨ q.stdNames ≠ [] := by
  cases h with
  | @declare _ ty name _ init' _ _ hinit hfits =>
    obtain ⟨t, ht, rfl⟩ := Stmt.toCpp_declare_iff.mp hq
    rw [Cpp.Stmt.stdNames, Ty.stdNames_toCpp ht]
    rw [Stmt.usesText, Bool.or_eq_true, decide_eq_true_eq] at huses
    by_cases htext : ty = .text
    · simp [htext]
    rw [if_neg htext, List.nil_append]
    rcases huses with (huses | huses) | ⟨x, hx⟩
    · exact absurd huses htext
    · exact hinit.hasText_or_stdNames huses (hinit.info_ne_text hfits htext)
    · unfold Context.declare at hx
      split at hx
      · exact absurd (Option.some.inj hx) htext
      · exact .inl ⟨x, hx⟩
  | print _ _ =>
    cases hq
    exact .inr (List.cons_ne_nil _ _)
  | ifThen hcond hlogic hthen =>
    obtain ⟨a, ha, rfl⟩ := Stmt.toCpp_ifThen_iff.mp hq
    rw [Cpp.Stmt.stdNames, a.stdNames_arm, ne_eq, List.append_eq_nil_iff, not_and_or]
    rw [Stmt.usesText, Bool.or_eq_true, or_assoc] at huses
    rcases huses with huses | huses
    · have hnames := hcond.hasText_or_stdNames huses (by simp [hlogic])
      exact hnames.imp_right .inl
    · exact (hthen.hasText_or_stdNames ha huses).imp_right .inr
  | @ifElse _ Θ _ _ condition' _ _ thenArm' _ _ hcond hlogic hthen helse =>
    obtain ⟨a, ha, b, hb, rfl⟩ := Stmt.toCpp_ifElse_iff.mp hq
    rw [Cpp.Stmt.stdNames, a.stdNames_arm, b.stdNames_arm, ne_eq, List.append_eq_nil_iff,
      List.append_eq_nil_iff, not_and_or, not_and_or]
    rw [Stmt.usesText, Bool.or_eq_true, Bool.or_eq_true, or_assoc, or_assoc] at huses
    have hfirst : thenArm'.usesText = true ∨ Θ.HasText →
        Γ.HasText ∨ (condition'.toCpp.stdNames ≠ [] ∨ a.stdNames ≠ []) ∨ b.stdNames ≠ [] :=
      fun huses => (hthen.hasText_or_stdNames ha huses).imp_right fun hnames => .inl (.inr hnames)
    rcases huses with huses | huses | huses
    · have hnames := hcond.hasText_or_stdNames huses (by simp [hlogic])
      exact hnames.imp_right fun hnames => .inl (.inl hnames)
    · exact hfirst (.inl huses)
    · rcases helse.hasText_or_stdNames hb huses with hvars | hnames
      · exact hfirst (.inr hvars)
      · exact .inr (.inr hnames)
  | block hbody =>
    obtain ⟨qs, hqs, rfl⟩ := Stmt.toCpp_block_iff.mp hq
    exact hbody.hasText_or_stdNames hqs huses

theorem BodyTyping.hasText_or_stdNames {Γ Δ : Context} {body : List (Stmt Unit)}
    {body' : List (Stmt Ty)} {qs : List Cpp.Stmt} (h : BodyTyping Γ body body' Δ)
    (hqs : Stmt.allToCpp body' = .ok qs) (huses : Stmt.anyUsesText body' = true ∨ Δ.HasText) :
    Γ.HasText ∨ Cpp.Stmt.stdNamesAll qs ≠ [] := by
  cases h with
  | nil => exact .inl (huses.resolve_left Bool.false_ne_true)
  | @cons _ Θ _ s s' _ body' hs hbody =>
    obtain ⟨q, hq, rest, hrest, rfl⟩ := Stmt.allToCpp_cons_iff.mp hqs
    rw [Cpp.Stmt.stdNamesAll, ne_eq, List.append_eq_nil_iff, not_and_or]
    rw [Stmt.anyUsesText, Bool.or_eq_true, or_assoc] at huses
    have hfirst : s'.usesText = true ∨ Θ.HasText →
        Γ.HasText ∨ q.stdNames ≠ [] ∨ Cpp.Stmt.stdNamesAll rest ≠ [] :=
      fun huses => (hs.hasText_or_stdNames hq huses).imp_right .inl
    rcases huses with huses | huses
    · exact hfirst (.inl huses)
    · rcases hbody.hasText_or_stdNames hrest huses with hvars | hnames
      · exact hfirst (.inr hvars)
      · exact .inr (.inr hnames)

end

/-! Names in code are names of variables, so they are words of the source. -/

mutual

theorem StmtTyping.declared_of_known {Γ Δ : Context} {s : Stmt Unit} {s' : Stmt Ty} {x : String}
    (h : StmtTyping Γ s s' Δ) (hx : Δ x ≠ none) :
    Γ x ≠ none ∨ ∃ t ∈ s.parts, t.declared? = some x := by
  cases h with
  | declare _ _ _ =>
    unfold Context.declare at hx
    split at hx
    · rename_i heq
      exact .inr ⟨_, List.mem_singleton_self _, congrArg some heq.symm⟩
    · exact .inl hx
  | print _ _ => exact .inl hx
  | ifThen _ _ hthen =>
    refine (hthen.declared_of_known hx).imp_right ?_
    rintro ⟨t, ht, hdeclared⟩
    exact ⟨t, List.mem_cons_of_mem _ ht, hdeclared⟩
  | ifElse _ _ hthen helse =>
    rcases helse.declared_of_known hx with hx | ⟨t, ht, hdeclared⟩
    · refine (hthen.declared_of_known hx).imp_right ?_
      rintro ⟨t, ht, hdeclared⟩
      exact ⟨t, List.mem_cons_of_mem _ (List.mem_append_left _ ht), hdeclared⟩
    · exact .inr ⟨t, List.mem_cons_of_mem _ (List.mem_append_right _ ht), hdeclared⟩
  | block hbody =>
    refine (hbody.declared_of_known hx).imp_right ?_
    rintro ⟨t, ht, hdeclared⟩
    exact ⟨t, List.mem_cons_of_mem _ ht, hdeclared⟩

theorem BodyTyping.declared_of_known {Γ Δ : Context} {body : List (Stmt Unit)}
    {body' : List (Stmt Ty)} {x : String} (h : BodyTyping Γ body body' Δ) (hx : Δ x ≠ none) :
    Γ x ≠ none ∨ ∃ t ∈ Stmt.partsAll body, t.declared? = some x := by
  cases h with
  | nil => exact .inl hx
  | cons hs hbody =>
    rcases hbody.declared_of_known hx with hx | ⟨t, ht, hdeclared⟩
    · refine (hs.declared_of_known hx).imp_right ?_
      rintro ⟨t, ht, hdeclared⟩
      exact ⟨t, List.mem_append_left _ ht, hdeclared⟩
    · exact .inr ⟨t, List.mem_append_right _ ht, hdeclared⟩

end

theorem Grammar.PlacedStmt.exists_identifier {ts : List Token} {s : Stmt Unit} {x : String}
    (h : PlacedStmt ts s) (hx : s.declared? = some x) :
    ∃ t ∈ ts, t.kind = .identifier ∧ t.text = x := by
  cases h with
  | @declare t n a u ts ty init _ hn _ _ _ => exact ⟨n, by simp, hn, Option.some.inj hx⟩
  | print | ifThen | ifElse | block => cases hx

theorem Lexeme.Front.word_of_identifier {l : Lexeme} {rest : List Char} (h : Front l rest)
    (hkind : l.kind = .identifier) : ∀ c ∈ l.text, continuesWord c = true := by
  cases h with
  | mark hmark =>
    have hmarks : ∀ m ∈ marks, m.2 ≠ .identifier := by decide
    exact absurd hkind (hmarks _ hmark)
  | word hc hmore _ =>
    rw [text_ofWord]
    exact List.forall_mem_cons.mpr ⟨continuesWord_of_startsWord hc, hmore⟩
  | int | float | string | openString | openEscape | unknown => cases hkind

namespace Lexed
variable {src : String} {p : Program Unit}

theorem isWord_of_identifier {t : Token} (h : t ∈ (ofSource src).tokens)
    (hkind : t.kind = .identifier) : Cpp.IsWord t.text := by
  obtain ⟨c, more, lo, rfl⟩ := exists_scan_of_mem_ofChars h
  have hword := (Lexeme.front_scan c more).word_of_identifier hkind
  intro d hd
  rw [Lexeme.token, String.toList_ofList] at hd
  exact hword d hd

theorem words_eventsAll {body' : List (Stmt Ty)} {Δ : Context} {qs : List Cpp.Stmt}
    (h : (ofSource src).program = .ok p) (htyping : BodyTyping .empty p.body body' Δ)
    (hqs : Stmt.allToCpp body' = .ok qs) : Cpp.Words (Cpp.Stmt.eventsAll qs) := by
  have hflat := htyping.flat hqs
  intro x hx
  have hknown : Δ x ≠ none := hx.elim (fun hx => hflat.known_iff.mpr (.inr hx)) hflat.known_of_use
  rcases htyping.declared_of_known hknown with hnone | ⟨t, ht, hdeclared⟩
  · exact absurd rfl hnone
  · obtain ⟨hplaced, -⟩ := placed_of_program (fun t ht => valueFits_of_mem ht) h
    obtain ⟨us, hus, hstmt⟩ := hplaced.nodes_within.2.1 t ht
    obtain ⟨n, hn, hkind, rfl⟩ := hstmt.exists_identifier hdeclared
    exact isWord_of_identifier (hus.subset hn) hkind

end Lexed

mutual

theorem Stmt.prints_iff (s : Stmt Ty) :
    s.prints = true ↔ ∃ value span, .print value span ∈ s.parts := by
  cases s with
  | declare | print => simp [prints, parts]
  | ifThen condition thenArm span => simp [prints, parts, prints_iff thenArm]
  | ifElse condition thenArm elseArm span =>
    simp [prints, parts, prints_iff thenArm, prints_iff elseArm, exists_or]
  | block body span => simp [prints, parts, anyPrints_iff body]

theorem Stmt.anyPrints_iff (body : List (Stmt Ty)) :
    anyPrints body = true ↔ ∃ value span, .print value span ∈ partsAll body := by
  cases body with
  | nil => simp [anyPrints, partsAll]
  | cons s body => simp [anyPrints, partsAll, prints_iff s, anyPrints_iff body, exists_or]

end

namespace Program
open Cpp

/-- The headers of an accepted program fit its code, which is the lines of `main` below those of the
headers. Names of strings and of streams stand in `main` only if their header is included. Truth
values are set to print as words once, before all statements, exactly if streams are included. No
header is added twice, or though the program names it. If nothing is printed, the header of strings
is added exactly if it is needed. -/
theorem headers_fit_main {src : String} {p : Program Unit} {c : Checked (Program Ty)}
    (hp : (Lexed.ofSource src).program = .ok p) (h : p.check = .ok c) :
    ∃ q, c.value.toCpp = .ok q ∧ q.headers = .ofProgram c.value ∧
      q.render = Text.unlines q.lines ∧
      q.lines = banner :: "" :: q.headers.lines ++ "int main() \x7b" :: q.mainLines ++ ["\x7d"] ∧
      (q.MentionsAny ["string", "to_string"] → q.headers.includes "string" = true) ∧
      (q.MentionsAny ["cout", "endl", "boolalpha"] → q.headers.includes "iostream" = true) ∧
      q.mainLines =
        (if q.headers.includes "iostream" then [line 1 "std::cout << std::boolalpha;"] else []) ++
          q.statementLines ∧
      ¬ Mentions q.statementLines "std::boolalpha" ∧
      q.headers.Distinct ∧ q.headers.named = p.imports.map Import.header ∧
      ((∀ value span, .print value span ∉ Stmt.partsAll c.value.body) →
        ("string" ∈ q.headers.added.map AddedHeader.header ↔
          q.MentionsAny ["string", "to_string"] ∧ "string" ∉ q.headers.named)) := by
  obtain ⟨Δ, qs, htyping, hqs, hq⟩ := exists_toCpp_of_check h
  have hwords := Lexed.words_eventsAll hp htyping hqs
  have hnames := htyping.prints_or_usesText hqs
  have hstrings := Cpp.Program.mentionsAny_strings_iff (p := ⟨.ofProgram c.value, qs⟩) hwords
  refine ⟨_, hq, rfl, rfl, Cpp.Program.lines_eq _, ?_, ?_, rfl,
    Cpp.Program.not_mentions_boolalpha hwords, distinct_headers c.value, ?_, ?_⟩
  · intro hmention
    obtain ⟨n, -, hn⟩ := hstrings.mp hmention
    exact includes_string _ ((hnames n hn).symm.imp_left And.left)
  · intro hmention
    obtain ⟨n, hn, hstd⟩ := (Cpp.Program.mentionsAny_iff hwords (by decide)).mp hmention
    rcases List.mem_append.mp hstd with hstd | hstd
    · by_contra hnot
      rw [if_neg hnot] at hstd
      cases hstd
    · have hstreams : ∀ n ∈ ["cout", "endl", "boolalpha"], n ∉ ["string", "to_string"] := by
        decide
      rcases hnames n hstd with hprints | ⟨-, hstring⟩
      · exact includes_iostream _ hprints
      · exact absurd hstring (hstreams n hn)
  · have htyped : ProgramTyping p c.value := check_iff.mp ⟨c, h, rfl⟩
    rw [← htyped.imports_eq]
    exact named_headers c.value
  · intro hsilent
    have hprints : Stmt.anyPrints c.value.body = false := by
      rw [← Bool.not_eq_true, Stmt.anyPrints_iff]
      rintro ⟨value, span, hprint⟩
      exact hsilent value span hprint
    rw [hstrings, string_mem_added_iff _ hprints]
    refine and_congr_left fun _ => ⟨?_, ?_⟩
    · intro huses
      have hne := (htyping.hasText_or_stdNames hqs (.inl huses)).resolve_left fun ⟨x, hx⟩ =>
        Option.some_ne_none _ hx.symm
      obtain ⟨n, hn⟩ := List.exists_mem_of_ne_nil _ hne
      obtain ⟨-, hstring⟩ := (hnames n hn).resolve_left (by simp [hprints])
      exact ⟨n, hstring, hn⟩
    · rintro ⟨n, -, hn⟩
      exact ((hnames n hn).resolve_left (by simp [hprints])).1

theorem headers_fit_main_silent :
    ∃ p c q, (Lexed.ofSource
        "use <iostream>; if (\"std::cout\" ?= \"a\") logic b := 1 ?= 2;").program = .ok p ∧
      p.check = .ok c ∧ c.value.toCpp = .ok q ∧
      q.render = Text.unlines (banner :: "" :: q.headers.lines ++ "int main() \x7b" ::
        line 1 "std::cout << std::boolalpha;" :: q.statementLines ++ ["\x7d"]) ∧
      (∀ value span, .print value span ∉ Stmt.partsAll c.value.body) ∧
      q.headers.named = ["iostream"] ∧ q.headers.added.map AddedHeader.header = ["string"] ∧
      q.MentionsAny ["string", "to_string"] ∧ ¬ Mentions q.statementLines "std::boolalpha" := by
  have hrun : ((Lexed.ofSource
      "use <iostream>; if (\"std::cout\" ?= \"a\") logic b := 1 ?= 2;").program.toOption.bind
        fun p => p.check.toOption).any (fun c => !Stmt.anyPrints c.value.body &&
          decide ((Headers.ofProgram c.value).named = ["iostream"] ∧
            (Headers.ofProgram c.value).added.map AddedHeader.header = ["string"])) = true := by
    decide +kernel
  simp only [Option.any_eq_true, Option.bind_eq_some_iff, Except.toOption_eq_some_iff,
    Bool.and_eq_true, Bool.not_eq_true', decide_eq_true_eq] at hrun
  obtain ⟨c, ⟨p, hp, hc⟩, hprints, hnamed, hadded⟩ := hrun
  have hsilent : ∀ value span, .print value span ∉ Stmt.partsAll c.value.body := by
    intro value span hprint
    rw [(Stmt.anyPrints_iff c.value.body).mpr ⟨value, span, hprint⟩] at hprints
    cases hprints
  obtain ⟨q, hq, hheaders, hrender, hlines, -, -, hmain, hboolalpha, -, -, hstring⟩ :=
    headers_fit_main hp hc
  rw [← hheaders] at hnamed hadded
  have hstreams : q.headers.includes "iostream" = true := by simp [Headers.includes, hnamed]
  rw [hlines, hmain, if_pos hstreams] at hrender
  have hmentions := ((hstring hsilent).mp (by simp [hadded])).1
  exact ⟨p, c, q, hp, hc, hq, hrender, hsilent, hnamed, hadded, hmentions, hboolalpha⟩

end Program

end HumanScript
