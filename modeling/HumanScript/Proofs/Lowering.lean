import HumanScript.Cpp.Lower
import HumanScript.Proofs.Typing

/-! Every checked program has C++ code: its variables and expressions have types with values, and
such a type has a counterpart. -/
namespace HumanScript

namespace Ty

theorem isNumeric_iff {t : Ty} : t.isNumeric = true ↔ t = .number ∨ t = .lnumber ∨ t = .riel := by
  cases t <;> simp [isNumeric, rank?]

theorem isValued_of_isNumeric {t : Ty} (h : t.isNumeric = true) : t.isValued = true := by
  rcases isNumeric_iff.mp h with rfl | rfl | rfl <;> rfl

theorem ne_text_of_isNumeric {t : Ty} (h : t.isNumeric = true) : t ≠ .text := by
  rcases isNumeric_iff.mp h with rfl | rfl | rfl <;> simp

theorem isNumeric_of_isValued {t : Ty} (h : t.isValued = true) (htext : t ≠ .text)
    (hlogic : t ≠ .logic) : t.isNumeric = true := by
  cases t with
  | number | lnumber | riel => rfl
  | text => exact absurd rfl htext
  | logic => exact absurd rfl hlogic
  | void | unknown => cases h

theorem exists_toCpp_of_isValued {t : Ty} (h : t.isValued = true) : ∃ c, t.toCpp = .ok c := by
  cases t with
  | unknown => cases h
  | number | lnumber | text | logic | riel | void => exact ⟨_, rfl⟩

theorem isNumeric_of_widest? {s t wide : Ty} (h : s.widest? t = some wide) :
    s.isNumeric = true ∧ t.isNumeric = true ∧ wide.isNumeric = true := by
  simp only [widest?, Option.bind_eq_bind, Option.bind_eq_some_iff, Option.pure_def,
    Option.some.injEq] at h
  obtain ⟨i, hs, j, ht, rfl⟩ := h
  have hsn : s.isNumeric = true := by rw [isNumeric, hs]; rfl
  have htn : t.isNumeric = true := by rw [isNumeric, ht]; rfl
  refine ⟨hsn, htn, ?_⟩
  split
  · exact hsn
  · exact htn

theorem accepts_iff {declared value : Ty} : declared.accepts value = true ↔
    declared = value ∨ declared = .lnumber ∧ value = .number ∨
      declared = .riel ∧ (value = .number ∨ value = .lnumber) := by
  cases declared <;> cases value <;> simp [accepts]

theorem isValued_of_accepts {declared value : Ty} (h : declared.accepts value = true)
    (hvalue : value.isValued = true) : declared.isValued = true := by
  rcases accepts_iff.mp h with rfl | ⟨rfl, _⟩ | ⟨rfl, _⟩
  · exact hvalue
  · rfl
  · rfl

end Ty

namespace BinaryOp

theorem resultTy?_add_cases {s t ty : Ty} (h : add.resultTy? s t = some ty) :
    s.widest? t = some ty ∨
      ty = .text ∧ (s = .text ∧ t.isValued = true ∨ t = .text ∧ s.isValued = true) := by
  unfold resultTy? at h
  dsimp only at h
  split at h
  · rename_i wide hwide
    cases h
    exact .inl hwide
  · split at h
    · rename_i htext
      cases h
      exact .inr ⟨rfl, htext⟩
    · cases h

theorem resultTy?_eq_cases {s t ty : Ty} (h : eq.resultTy? s t = some ty) :
    ty = .logic ∧ (s = t ∧ s.isValued = true ∨ s.isNumeric = true ∧ t.isNumeric = true) := by
  unfold resultTy? at h
  dsimp only at h
  split at h
  · rename_i hcomparable
    cases h
    exact ⟨rfl, hcomparable⟩
  · cases h

theorem isValued_of_resultTy? {op : BinaryOp} {s t ty : Ty} (h : op.resultTy? s t = some ty) :
    ty.isValued = true := by
  cases op with
  | add =>
    rcases resultTy?_add_cases h with hwide | ⟨rfl, _⟩
    · exact Ty.isValued_of_isNumeric (Ty.isNumeric_of_widest? hwide).2.2
    · rfl
  | eq =>
    obtain ⟨rfl, _⟩ := resultTy?_eq_cases h
    rfl

end BinaryOp

/-- All variables have types with values. -/
def Context.Valued (Γ : Context) : Prop := ∀ x ty, Γ x = some ty → ty.isValued = true

namespace Context

theorem valued_empty : empty.Valued := by
  intro x ty h
  cases h

theorem Valued.declare {Γ : Context} {name : String} {ty : Ty} (h : Γ.Valued)
    (hty : ty.isValued = true) : (Γ.declare name ty).Valued := by
  intro x other hx
  unfold Context.declare at hx
  split at hx
  · cases hx
    exact hty
  · exact h x other hx

end Context

theorem ExprTyping.isValued {Γ : Context} {e : Expr Unit} {e' : Expr Ty} (h : ExprTyping Γ e e')
    (hΓ : Γ.Valued) : e'.info.isValued = true := by
  cases h with
  | int | float | string | bool => rfl
  | name hname => exact hΓ _ _ hname
  | binary _ _ hty => exact BinaryOp.isValued_of_resultTy? hty

theorem ExprTyping.isValued_of_fits {Γ : Context} {init : Expr Unit} {init' : Expr Ty} {ty : Ty}
    (hinit : ExprTyping Γ init init') (hΓ : Γ.Valued)
    (hfits : ty.accepts init'.info = true ∨ ty = .number ∧ SmallLiteral init) :
    ty.isValued = true := by
  rcases hfits with haccepts | ⟨rfl, _⟩
  · exact Ty.isValued_of_accepts haccepts (hinit.isValued hΓ)
  · rfl

mutual

theorem StmtTyping.valued {Γ Δ : Context} {s : Stmt Unit} {s' : Stmt Ty}
    (h : StmtTyping Γ s s' Δ) (hΓ : Γ.Valued) : Δ.Valued :=
  match h with
  | .declare _ hinit hfits => hΓ.declare (hinit.isValued_of_fits hΓ hfits)
  | .print _ _ => hΓ
  | .ifThen _ _ hthen => hthen.valued hΓ
  | .ifElse _ _ hthen helse => helse.valued (hthen.valued hΓ)
  | .block hbody => hbody.valued hΓ

theorem BodyTyping.valued {Γ Δ : Context} {body : List (Stmt Unit)} {body' : List (Stmt Ty)}
    (h : BodyTyping Γ body body' Δ) (hΓ : Γ.Valued) : Δ.Valued :=
  match h with
  | .nil => hΓ
  | .cons hs hbody => hbody.valued (hs.valued hΓ)

end

namespace Stmt

theorem toCpp_declare_iff {ty : Ty} {name : Ident} {init : Expr Ty} {span : Span} {q : Cpp.Stmt} :
    (declare ty name init span).toCpp = .ok q ↔
      ∃ t, ty.toCpp = .ok t ∧ .declare t name.name init.toCpp = q := by
  simp only [toCpp, Except.bind_eq_ok_iff, Except.pure_eq_ok_iff]

theorem toCpp_ifThen_iff {condition : Expr Ty} {thenArm : Stmt Ty} {span : Span} {q : Cpp.Stmt} :
    (ifThen condition thenArm span).toCpp = .ok q ↔
      ∃ a, thenArm.toCpp = .ok a ∧ .ifThen condition.toCpp a.arm = q := by
  simp only [toCpp, Except.bind_eq_ok_iff, Except.pure_eq_ok_iff]

theorem toCpp_ifElse_iff {condition : Expr Ty} {thenArm elseArm : Stmt Ty} {span : Span}
    {q : Cpp.Stmt} :
    (ifElse condition thenArm elseArm span).toCpp = .ok q ↔
      ∃ a, thenArm.toCpp = .ok a ∧ ∃ b, elseArm.toCpp = .ok b ∧
        .ifElse condition.toCpp a.arm b.arm = q := by
  simp only [toCpp, Except.bind_eq_ok_iff, Except.pure_eq_ok_iff]

theorem toCpp_block_iff {body : List (Stmt Ty)} {span : Span} {q : Cpp.Stmt} :
    (block body span).toCpp = .ok q ↔ ∃ qs, allToCpp body = .ok qs ∧ .block qs = q := by
  simp only [toCpp, Except.bind_eq_ok_iff, Except.pure_eq_ok_iff]

theorem allToCpp_cons_iff {s : Stmt Ty} {body : List (Stmt Ty)} {qs : List Cpp.Stmt} :
    allToCpp (s :: body) = .ok qs ↔
      ∃ q, s.toCpp = .ok q ∧ ∃ rest, allToCpp body = .ok rest ∧ q :: rest = qs := by
  simp only [allToCpp, Except.bind_eq_ok_iff, Except.pure_eq_ok_iff]

end Stmt

mutual

theorem StmtTyping.exists_toCpp {Γ Δ : Context} {s : Stmt Unit} {s' : Stmt Ty}
    (h : StmtTyping Γ s s' Δ) (hΓ : Γ.Valued) : ∃ q, s'.toCpp = .ok q := by
  cases h with
  | declare _ hinit hfits =>
    obtain ⟨t, ht⟩ := Ty.exists_toCpp_of_isValued (hinit.isValued_of_fits hΓ hfits)
    exact ⟨_, Stmt.toCpp_declare_iff.mpr ⟨t, ht, rfl⟩⟩
  | print _ _ => exact ⟨_, rfl⟩
  | ifThen _ _ hthen =>
    obtain ⟨a, ha⟩ := hthen.exists_toCpp hΓ
    exact ⟨_, Stmt.toCpp_ifThen_iff.mpr ⟨a, ha, rfl⟩⟩
  | ifElse _ _ hthen helse =>
    obtain ⟨a, ha⟩ := hthen.exists_toCpp hΓ
    obtain ⟨b, hb⟩ := helse.exists_toCpp (hthen.valued hΓ)
    exact ⟨_, Stmt.toCpp_ifElse_iff.mpr ⟨a, ha, b, hb, rfl⟩⟩
  | block hbody =>
    obtain ⟨qs, hqs⟩ := hbody.exists_allToCpp hΓ
    exact ⟨_, Stmt.toCpp_block_iff.mpr ⟨qs, hqs, rfl⟩⟩

theorem BodyTyping.exists_allToCpp {Γ Δ : Context} {body : List (Stmt Unit)}
    {body' : List (Stmt Ty)} (h : BodyTyping Γ body body' Δ) (hΓ : Γ.Valued) :
    ∃ qs, Stmt.allToCpp body' = .ok qs := by
  cases h with
  | nil => exact ⟨_, rfl⟩
  | cons hs hbody =>
    obtain ⟨q, hq⟩ := hs.exists_toCpp hΓ
    obtain ⟨rest, hrest⟩ := hbody.exists_allToCpp (hs.valued hΓ)
    exact ⟨_, Stmt.allToCpp_cons_iff.mpr ⟨q, hq, rest, hrest, rfl⟩⟩

end

/-- What checking and lowering make of a program. -/
theorem Program.exists_toCpp_of_check {p : Program Unit} {c : Checked (Program Ty)}
    (h : p.check = .ok c) :
    ∃ Δ qs, BodyTyping .empty p.body c.value.body Δ ∧ Stmt.allToCpp c.value.body = .ok qs ∧
      c.value.toCpp = .ok ⟨.ofProgram c.value, qs⟩ := by
  have htyping : ProgramTyping p c.value := check_iff.mp ⟨c, h, rfl⟩
  generalize c.value = t at htyping
  cases htyping with
  | @mk imports body body' Δ hbody =>
    obtain ⟨qs, hqs⟩ := hbody.exists_allToCpp Context.valued_empty
    refine ⟨Δ, qs, hbody, hqs, ?_⟩
    rw [toCpp, hqs]
    rfl

end HumanScript
