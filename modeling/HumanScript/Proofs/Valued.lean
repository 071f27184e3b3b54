import HumanScript.Compile
import HumanScript.Proofs.Lowering

/-! Types without values never get past checking: a variable of such a type would need a value of
it to start with. So lowering, which fails at variables of unknown type only, never fails after
checking. -/
namespace HumanScript

/-- The types with values. -/
def Ty.valued : List Ty := [.number, .lnumber, .text, .logic, .riel]

theorem Ty.mem_valued_iff {t : Ty} : t ∈ valued ↔ t.isValued = true := by
  cases t <;> decide

/-- The types of these expressions, and those of the variables that these statements declare, have
values. -/
structure ValuedTypes (es : List (Expr Ty)) (ss : List (Stmt Ty)) : Prop where
  info : ∀ e ∈ es, e.info ∈ Ty.valued
  declared : ∀ ty name init span, .declare ty name init span ∈ ss → ty ∈ Ty.valued

theorem ValuedTypes.append {es fs : List (Expr Ty)} {ss ts : List (Stmt Ty)}
    (h : ValuedTypes es ss) (h' : ValuedTypes fs ts) : ValuedTypes (es ++ fs) (ss ++ ts) where
  info := List.forall_mem_append.mpr ⟨h.info, h'.info⟩
  declared ty name init span hmem :=
    (List.mem_append.mp hmem).elim (h.declared ty name init span) (h'.declared ty name init span)

theorem ValuedTypes.cons {es : List (Expr Ty)} {ss : List (Stmt Ty)} {s : Stmt Ty}
    (h : ValuedTypes es ss) (hs : ∀ ty name init span, s ≠ .declare ty name init span) :
    ValuedTypes es (s :: ss) where
  info := h.info
  declared ty name init span hmem := by
    rcases List.mem_cons.mp hmem with heq | hmem
    · exact absurd heq.symm (hs ty name init span)
    · exact h.declared ty name init span hmem

theorem ExprTyping.info_mem_valued {Γ : Context} {e : Expr Unit} {e' : Expr Ty}
    (h : ExprTyping Γ e e') (hΓ : Γ.Valued) : ∀ f ∈ e'.parts, f.info ∈ Ty.valued := by
  induction h with
  | int | float | string | bool => simp [Expr.parts, Expr.info, Ty.valued]
  | name hname =>
    have hvalued := hΓ _ _ hname
    exact List.forall_mem_singleton.mpr (Ty.mem_valued_iff.mpr hvalued)
  | binary _ _ hty ihl ihr =>
    have hvalued := BinaryOp.isValued_of_resultTy? hty
    exact List.forall_mem_cons.mpr
      ⟨Ty.mem_valued_iff.mpr hvalued, List.forall_mem_append.mpr ⟨ihl, ihr⟩⟩

mutual

theorem StmtTyping.valuedTypes {Γ Δ : Context} {s : Stmt Unit} {s' : Stmt Ty}
    (h : StmtTyping Γ s s' Δ) (hΓ : Γ.Valued) : ValuedTypes s'.exprs s'.parts := by
  cases h with
  | declare _ hinit hfits =>
    refine ⟨hinit.info_mem_valued hΓ, ?_⟩
    intro ty name init span hmem
    cases List.mem_singleton.mp hmem
    exact Ty.mem_valued_iff.mpr (hinit.isValued_of_fits hΓ hfits)
  | print hvalue _ =>
    refine ⟨hvalue.info_mem_valued hΓ, ?_⟩
    intro ty name init span hmem
    cases List.mem_singleton.mp hmem
  | ifThen hcond _ hthen =>
    have hcond' : ValuedTypes _ [] := ⟨hcond.info_mem_valued hΓ, by simp⟩
    exact (hcond'.append (hthen.valuedTypes hΓ)).cons (by simp)
  | ifElse hcond _ hthen helse =>
    have hcond' : ValuedTypes _ [] := ⟨hcond.info_mem_valued hΓ, by simp⟩
    have harms := (hcond'.append (hthen.valuedTypes hΓ)).append
      (helse.valuedTypes (hthen.valued hΓ))
    exact harms.cons (by simp)
  | block hbody => exact (hbody.valuedTypes hΓ).cons (by simp)

theorem BodyTyping.valuedTypes {Γ Δ : Context} {body : List (Stmt Unit)} {body' : List (Stmt Ty)}
    (h : BodyTyping Γ body body' Δ) (hΓ : Γ.Valued) :
    ValuedTypes (Stmt.exprsAll body') (Stmt.partsAll body') := by
  cases h with
  | nil => exact ⟨by simp [Stmt.exprsAll], by simp [Stmt.partsAll]⟩
  | cons hs hbody => exact (hs.valuedTypes hΓ).append (hbody.valuedTypes (hs.valued hΓ))

end

theorem Expr.check_ne_unprintable (symbols : SymbolTable) (e : Expr Unit) (span : Span) (ty : Ty) :
    e.check symbols ≠ .error ⟨span, .unprintable ty⟩ := by
  induction e with
  | literal value place info => simp [check]
  | name ident place info =>
    unfold check
    split <;> simp
  | binary op lhs rhs place info ihl ihr =>
    intro h
    simp only [check, Except.bind_eq_error_iff] at h
    rcases h with h | ⟨lhs', -, h | ⟨rhs', -, h⟩⟩
    · exact ihl h
    · exact ihr h
    · split at h <;> cases h

theorem Expr.checkCondition_ne_unprintable (symbols : SymbolTable) (e : Expr Unit) (span : Span)
    (ty : Ty) : e.checkCondition symbols ≠ .error ⟨span, .unprintable ty⟩ := by
  intro h
  simp only [checkCondition, Except.bind_eq_error_iff] at h
  rcases h with h | ⟨e', -, h⟩
  · exact e.check_ne_unprintable symbols span ty h
  · split at h <;> cases h

namespace Stmt

/-- The variables after a statement still have types with values. -/
theorem valued_of_check {symbols : SymbolTable} {s : Stmt Unit} {c : Checked (Stmt Ty)}
    (hvalued : symbols.context.Valued) (h : s.check symbols = .ok c) :
    c.symbols.context.Valued := by
  have htyping : StmtTyping symbols.context s c.value c.symbols.context :=
    check_iff.mp ⟨c, h, rfl, rfl⟩
  exact htyping.valued hvalued

theorem checkAll_ne_unprintable {body : List (Stmt Unit)} {span : Span} {ty : Ty}
    (hstmt : ∀ s ∈ body, ∀ symbols : SymbolTable, symbols.context.Valued →
      s.check symbols ≠ .error ⟨span, .unprintable ty⟩)
    {symbols : SymbolTable} (hvalued : symbols.context.Valued) :
    checkAll symbols body ≠ .error ⟨span, .unprintable ty⟩ := by
  induction body generalizing symbols with
  | nil => simp [checkAll]
  | cons s body ih =>
    intro h
    simp only [checkAll, Except.bind_eq_error_iff] at h
    rcases h with h | ⟨c, hc, h | ⟨c', -, h⟩⟩
    · exact hstmt s (by simp) symbols hvalued h
    · exact ih (fun t ht => hstmt t (by simp [ht])) (valued_of_check hvalued hc) h
    · cases h

/-- Only values are ever printed, since all variables have types with values. -/
theorem check_ne_unprintable {symbols : SymbolTable} (hvalued : symbols.context.Valued)
    (s : Stmt Unit) (span : Span) (ty : Ty) :
    s.check symbols ≠ .error ⟨span, .unprintable ty⟩ := by
  induction s generalizing symbols with
  | declare declared name init place =>
    intro h
    simp only [check, Except.bind_eq_error_iff, Except.mapError_eq_error_iff] at h
    rcases h with ⟨earlier, -, h⟩ | ⟨extended, -, h | ⟨init', -, h⟩⟩
    · cases h
    · exact init.check_ne_unprintable symbols span ty h
    · split at h <;> cases h
  | print value place =>
    intro h
    simp only [check, Except.bind_eq_error_iff] at h
    rcases h with h | ⟨value', hvalue, h⟩
    · exact value.check_ne_unprintable symbols span ty h
    · have htyping := Expr.check_eq_ok_iff.mp hvalue
      rw [if_pos (htyping.isValued hvalued)] at h
      cases h
  | ifThen condition thenArm place ih =>
    intro h
    simp only [check, Except.bind_eq_error_iff] at h
    rcases h with h | ⟨condition', -, h | ⟨c, -, h⟩⟩
    · exact condition.checkCondition_ne_unprintable symbols span ty h
    · exact ih hvalued h
    · cases h
  | ifElse condition thenArm elseArm place iha ihb =>
    intro h
    simp only [check, Except.bind_eq_error_iff] at h
    rcases h with h | ⟨condition', -, h | ⟨c, hc, h | ⟨c', -, h⟩⟩⟩
    · exact condition.checkCondition_ne_unprintable symbols span ty h
    · exact iha hvalued h
    · exact ihb (valued_of_check hvalued hc) h
    · cases h
  | block body place ih =>
    intro h
    simp only [check, Except.bind_eq_error_iff] at h
    rcases h with h | ⟨c, -, h⟩
    · exact checkAll_ne_unprintable (fun s hs _ hv => ih s hs hv) hvalued h
    · cases h

end Stmt

theorem Ty.toCpp_eq_error_iff {t : Ty} {e : EmitError} :
    t.toCpp = .error e ↔ e = .unmappableType .unknown ∧ t = .unknown := by
  cases t <;> simp [toCpp, eq_comm]

/-- One of the statements declares a variable of unknown type. -/
def Stmt.DeclaresUnknown (ss : List (Stmt Ty)) : Prop :=
  ∃ name init span, .declare .unknown name init span ∈ ss

namespace Stmt

theorem declaresUnknown_append {ss ts : List (Stmt Ty)} :
    DeclaresUnknown (ss ++ ts) ↔ DeclaresUnknown ss ∨ DeclaresUnknown ts := by
  simp [DeclaresUnknown, exists_or]

mutual

theorem toCpp_eq_error_iff (s : Stmt Ty) (e : EmitError) :
    s.toCpp = .error e ↔ e = .unmappableType .unknown ∧ DeclaresUnknown s.parts := by
  cases s with
  | declare ty name init span =>
    rw [toCpp, Except.bind_pure_eq_error_iff, Ty.toCpp_eq_error_iff]
    simp [DeclaresUnknown, parts, eq_comm]
  | print value span => simp [toCpp, DeclaresUnknown, parts]
  | ifThen condition thenArm span =>
    rw [toCpp, Except.bind_pure_eq_error_iff, toCpp_eq_error_iff thenArm]
    simp [DeclaresUnknown, parts]
  | ifElse condition thenArm elseArm span =>
    have helse : ∀ a, thenArm.toCpp = .ok a → ∀ e,
        (elseArm.toCpp >>= fun b => pure (Cpp.Stmt.ifElse condition.toCpp a.arm b.arm)) = .error e ↔
          e = .unmappableType .unknown ∧ DeclaresUnknown elseArm.parts := by
      intro a _ e
      rw [Except.bind_pure_eq_error_iff, toCpp_eq_error_iff elseArm]
    rw [toCpp, Except.bind_fails_iff (toCpp_eq_error_iff thenArm) helse, ← declaresUnknown_append]
    simp [DeclaresUnknown, parts]
  | block body span =>
    rw [toCpp, Except.bind_pure_eq_error_iff, allToCpp_eq_error_iff body]
    simp [DeclaresUnknown, parts]

theorem allToCpp_eq_error_iff (body : List (Stmt Ty)) (e : EmitError) :
    allToCpp body = .error e ↔ e = .unmappableType .unknown ∧ DeclaresUnknown (partsAll body) := by
  cases body with
  | nil => simp [allToCpp, DeclaresUnknown, partsAll]
  | cons s body =>
    have hbody : ∀ q, s.toCpp = .ok q → ∀ e,
        (allToCpp body >>= fun qs => pure (q :: qs)) = .error e ↔
          e = .unmappableType .unknown ∧ DeclaresUnknown (partsAll body) := by
      intro q _ e
      rw [Except.bind_pure_eq_error_iff, allToCpp_eq_error_iff body]
    rw [allToCpp, Except.bind_fails_iff (toCpp_eq_error_iff s) hbody, ← declaresUnknown_append]
    rfl

end
end Stmt

theorem Program.toCpp_eq_error_iff (p : Program Ty) (e : EmitError) :
    p.toCpp = .error e ↔
      e = .unmappableType .unknown ∧ Stmt.DeclaresUnknown (Stmt.partsAll p.body) := by
  rw [toCpp, Except.bind_pure_eq_error_iff, Stmt.allToCpp_eq_error_iff]

namespace Report
variable {α β : Type}

theorem result_bind (r : Report α) (f : α → Report β) :
    (r >>= f).result = r.result >>= fun a => (f a).result := by
  change (r.bind f).result = _
  unfold bind
  cases r.result <;> rfl

@[simp] theorem result_pure (a : α) : (pure a : Report α).result = .ok a := rfl

@[simp] theorem result_ofExcept (r : Except CompileError α) : (ofExcept r).result = r := rfl

@[simp] theorem result_trace (message : String) : (trace message).result = .ok () := rfl

@[simp] theorem result_remark (src : String) (diagnostics : List Diagnostic) :
    (remark src diagnostics).result = .ok () := rfl

end Report

theorem check_eq_ok_iff {src : String} {c : Checked (Program Ty)} :
    (check src).result = .ok c ↔ ∃ p, (parse src).result = .ok p ∧ p.check = .ok c := by
  simp [check, Report.result_bind, Except.bind_eq_ok_iff]

theorem compile_eq_ok_iff {src code : String} :
    (compile src).result = .ok code ↔
      ∃ c q, (check src).result = .ok c ∧ c.value.toCpp = .ok q ∧ q.render = code := by
  simp [compile, Report.result_bind, Except.bind_eq_ok_iff]

/-- Everything that checking writes down about a program has a type with values. -/
theorem Program.valuedTypes_of_check {p : Program Unit} {c : Checked (Program Ty)}
    (h : p.check = .ok c) :
    ValuedTypes (Stmt.exprsAll c.value.body) (Stmt.partsAll c.value.body) ∧
      c.symbols.context.Valued := by
  unfold check at h
  obtain ⟨body, hbody, hc⟩ := Except.bind_eq_ok_iff.mp h
  cases hc
  have htyping : BodyTyping .empty p.body body.value body.symbols.context :=
    (Stmt.checkAll_iff fun _ _ _ _ _ => Stmt.check_iff).mp ⟨body, hbody, rfl, rfl⟩
  exact ⟨htyping.valuedTypes Context.valued_empty, htyping.valued Context.valued_empty⟩

theorem Program.check_ne_unprintable (p : Program Unit) (span : Span) (ty : Ty) :
    p.check ≠ .error ⟨span, .unprintable ty⟩ := by
  have hempty : SymbolTable.empty.context.Valued := Context.valued_empty
  intro h
  simp only [check, Except.bind_pure_eq_error_iff] at h
  exact Stmt.checkAll_ne_unprintable (fun s _ _ hvalued => s.check_ne_unprintable hvalued span ty)
    hempty h

/-- Checking never finds something to print that has no value. In a program that it accepts all
expressions and variables have types with values, and there is C++ code for it. Without checking,
there is none exactly if a variable of unknown type is declared. So a text compiles exactly if it
checks. -/
theorem Program.check_accepts_only_valued_types :
    (∀ p : Program Unit, (∀ span ty, p.check ≠ .error ⟨span, .unprintable ty⟩) ∧
      ∀ c, p.check = .ok c →
        (∀ e ∈ Stmt.exprsAll c.value.body, e.info ∈ Ty.valued) ∧
        (∀ ty name init span, .declare ty name init span ∈ Stmt.partsAll c.value.body →
          ty ∈ Ty.valued) ∧
        (∀ name symbol, c.symbols.get? name = some symbol → symbol.ty ∈ Ty.valued) ∧
        ∃ q, c.value.toCpp = .ok q) ∧
    (∀ (t : Program Ty) (e : EmitError), t.toCpp = .error e ↔ e = .unmappableType .unknown ∧
      ∃ name init span, .declare .unknown name init span ∈ Stmt.partsAll t.body) ∧
    ∀ src, (∃ code, (compile src).result = .ok code) ↔
      ∃ c, (HumanScript.check src).result = .ok c := by
  refine ⟨?_, toCpp_eq_error_iff, ?_⟩
  · intro p
    refine ⟨p.check_ne_unprintable, ?_⟩
    intro c hc
    obtain ⟨htypes, hsymbols⟩ := valuedTypes_of_check hc
    obtain ⟨_, _, _, _, hq⟩ := exists_toCpp_of_check hc
    refine ⟨htypes.info, htypes.declared, ?_, _, hq⟩
    intro name symbol hget
    have hty : c.symbols.context name = some symbol.ty := by rw [SymbolTable.context, hget]; rfl
    exact Ty.mem_valued_iff.mpr (hsymbols name symbol.ty hty)
  · intro src
    constructor
    · rintro ⟨code, h⟩
      obtain ⟨c, q, hc, -, -⟩ := compile_eq_ok_iff.mp h
      exact ⟨c, hc⟩
    · rintro ⟨c, hc⟩
      obtain ⟨p, -, hp⟩ := check_eq_ok_iff.mp hc
      obtain ⟨_, qs, _, _, hq⟩ := exists_toCpp_of_check hp
      exact ⟨_, compile_eq_ok_iff.mpr ⟨c, _, hc, hq, rfl⟩⟩

theorem Program.check_accepts_only_valued_types_nested :
    ∃ p c, (Lexed.ofSource
        "number n := 1; if (n ?= 1) \x7b text t := \"a\" + n; says t; \x7d").program = .ok p ∧
      p.check = .ok c ∧
      (∀ e ∈ Stmt.exprsAll c.value.body, e.info ∈ Ty.valued) ∧
      (∀ ty name init span, .declare ty name init span ∈ Stmt.partsAll c.value.body →
        ty ∈ Ty.valued) ∧
      (∀ name symbol, c.symbols.get? name = some symbol → symbol.ty ∈ Ty.valued) ∧
      ∃ q, c.value.toCpp = .ok q := by
  have hrun : ((Lexed.ofSource
      "number n := 1; if (n ?= 1) \x7b text t := \"a\" + n; says t; \x7d").program
      |>.toOption.bind fun p => p.check.toOption).isSome = true := by
    decide +kernel
  simp only [Option.isSome_iff_exists, Option.bind_eq_some_iff,
    Except.toOption_eq_some_iff] at hrun
  obtain ⟨c, p, hp, hc⟩ := hrun
  exact ⟨p, c, hp, hc, (check_accepts_only_valued_types.1 p).2 c hc⟩

end HumanScript
