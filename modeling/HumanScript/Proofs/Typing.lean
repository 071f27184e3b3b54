import HumanScript.Program.Check
import HumanScript.Proofs.Except
import HumanScript.Proofs.Trees

/-! The type system, as rules. A program has one context for all its declarations; it grows as the
statements are visited, depth first and from left to right. Checking finds the derivation if there
is one. -/
namespace HumanScript

/-- The types of the variables declared so far. -/
abbrev Context := String → Option Ty

namespace Context

def empty : Context := fun _ => none

def declare (Γ : Context) (name : String) (ty : Ty) : Context :=
  fun other => if other = name then some ty else Γ other

end Context

/-- The second expression is the first with the type of every part written in. -/
inductive ExprTyping (Γ : Context) : Expr Unit → Expr Ty → Prop where
  | int {n : Int} {span : Span} :
      ExprTyping Γ (.literal (.int n) span ()) (.literal (.int n) span .lnumber)
  | float {x : Binary64} {span : Span} :
      ExprTyping Γ (.literal (.float x) span ()) (.literal (.float x) span .riel)
  | string {s : String} {span : Span} :
      ExprTyping Γ (.literal (.string s) span ()) (.literal (.string s) span .text)
  | bool {b : Bool} {span : Span} :
      ExprTyping Γ (.literal (.bool b) span ()) (.literal (.bool b) span .logic)
  | name {ident : Ident} {span : Span} {ty : Ty} (hname : Γ ident.name = some ty) :
      ExprTyping Γ (.name ident span ()) (.name ident span ty)
  | binary {op : BinaryOp} {lhs rhs : Expr Unit} {lhs' rhs' : Expr Ty} {span : Span} {ty : Ty}
      (hlhs : ExprTyping Γ lhs lhs') (hrhs : ExprTyping Γ rhs rhs')
      (hty : op.resultTy? lhs'.info rhs'.info = some ty) :
      ExprTyping Γ (.binary op lhs rhs span ()) (.binary op lhs' rhs' span ty)

/-- An expression that is an integer literal of at most 32 bits. -/
inductive SmallLiteral {α : Type} : Expr α → Prop where
  | mk {n : Int} {span : Span} {info : α} (hlow : -2147483648 ≤ n) (hhigh : n < 2147483648) :
      SmallLiteral (.literal (.int n) span info)

mutual

/-- A statement with the types written in, and the contexts before and after it. -/
inductive StmtTyping : Context → Stmt Unit → Stmt Ty → Context → Prop where
  | declare {Γ : Context} {ty : Ty} {name : Ident} {init : Expr Unit} {init' : Expr Ty}
      {span : Span} (hnew : Γ name.name = none) (hinit : ExprTyping Γ init init')
      (hfits : ty.accepts init'.info = true ∨ ty = .number ∧ SmallLiteral init) :
      StmtTyping Γ (.declare ty name init span) (.declare ty name init' span)
        (Γ.declare name.name ty)
  | print {Γ : Context} {value : Expr Unit} {value' : Expr Ty} {span : Span}
      (hvalue : ExprTyping Γ value value') (hvalued : value'.info.isValued = true) :
      StmtTyping Γ (.print value span) (.print value' span) Γ
  | ifThen {Γ Δ : Context} {condition : Expr Unit} {condition' : Expr Ty} {thenArm : Stmt Unit}
      {thenArm' : Stmt Ty} {span : Span} (hcond : ExprTyping Γ condition condition')
      (hlogic : condition'.info = .logic) (hthen : StmtTyping Γ thenArm thenArm' Δ) :
      StmtTyping Γ (.ifThen condition thenArm span) (.ifThen condition' thenArm' span) Δ
  | ifElse {Γ Δ Θ : Context} {condition : Expr Unit} {condition' : Expr Ty}
      {thenArm elseArm : Stmt Unit} {thenArm' elseArm' : Stmt Ty} {span : Span}
      (hcond : ExprTyping Γ condition condition') (hlogic : condition'.info = .logic)
      (hthen : StmtTyping Γ thenArm thenArm' Δ) (helse : StmtTyping Δ elseArm elseArm' Θ) :
      StmtTyping Γ (.ifElse condition thenArm elseArm span)
        (.ifElse condition' thenArm' elseArm' span) Θ
  | block {Γ Δ : Context} {body : List (Stmt Unit)} {body' : List (Stmt Ty)} {span : Span}
      (hbody : BodyTyping Γ body body' Δ) : StmtTyping Γ (.block body span) (.block body' span) Δ

inductive BodyTyping : Context → List (Stmt Unit) → List (Stmt Ty) → Context → Prop where
  | nil {Γ : Context} : BodyTyping Γ [] [] Γ
  | cons {Γ Δ Θ : Context} {s : Stmt Unit} {s' : Stmt Ty} {body : List (Stmt Unit)}
      {body' : List (Stmt Ty)} (hs : StmtTyping Γ s s' Δ) (hbody : BodyTyping Δ body body' Θ) :
      BodyTyping Γ (s :: body) (s' :: body') Θ

end

/-- The typed program names the same headers, and its body is typed from no variables on. -/
inductive ProgramTyping : Program Unit → Program Ty → Prop where
  | mk {imports : List Import} {body : List (Stmt Unit)} {body' : List (Stmt Ty)} {Δ : Context}
      (hbody : BodyTyping .empty body body' Δ) : ProgramTyping ⟨imports, body⟩ ⟨imports, body'⟩

/-- The types in a table of variables. -/
def SymbolTable.context (t : SymbolTable) : Context := fun name => (t.get? name).map Symbol.ty

namespace SymbolTable

theorem context_eq_none_iff {t : SymbolTable} {name : String} :
    t.context name = none ↔ t.get? name = none := by simp [context]

theorem context_of_define {t u : SymbolTable} {name : String} {symbol : Symbol}
    (h : t.define name symbol = .ok u) : u.context = t.context.declare name symbol.ty := by
  funext other
  unfold context Context.declare
  rw [get?_of_define h]
  split <;> rfl

end SymbolTable

theorem Expr.isSmallLiteral_iff {α : Type} {e : Expr α} :
    e.isSmallLiteral = true ↔ SmallLiteral e := by
  constructor
  · intro h
    unfold isSmallLiteral at h
    split at h
    · simp only [decide_eq_true_eq] at h
      exact .mk h.1 h.2
    · cases h
  · rintro ⟨hlow, hhigh⟩
    simp only [isSmallLiteral, decide_eq_true_eq]
    exact ⟨hlow, hhigh⟩

theorem Expr.check_eq_ok_iff {symbols : SymbolTable} {e : Expr Unit} {e' : Expr Ty} :
    e.check symbols = .ok e' ↔ ExprTyping symbols.context e e' := by
  induction e generalizing e' with
  | literal value span info =>
    constructor
    · intro h
      cases h
      cases value with
      | int n => exact .int
      | float x => exact .float
      | string s => exact .string
      | bool b => exact .bool
    · intro h
      cases h <;> rfl
  | name ident span info =>
    unfold check
    constructor
    · intro h
      split at h
      · rename_i symbol hget
        cases h
        exact .name (by rw [SymbolTable.context, hget]; rfl)
      · cases h
    · intro h
      cases h with
      | name hname =>
        obtain ⟨symbol, hget, rfl⟩ := Option.map_eq_some_iff.mp hname
        rw [hget]
  | binary op lhs rhs span info ihl ihr =>
    unfold check
    simp only [Except.bind_eq_ok_iff]
    constructor
    · rintro ⟨lhs', hl, rhs', hr, h⟩
      split at h
      · rename_i ty hty
        cases h
        exact .binary (ihl.mp hl) (ihr.mp hr) hty
      · cases h
    · intro h
      cases h with
      | @binary _ _ _ lhs' rhs' _ ty hl hr hty =>
        refine ⟨lhs', ihl.mpr hl, rhs', ihr.mpr hr, ?_⟩
        rw [hty]
        rfl

theorem ExprTyping.smallLiteral_iff {Γ : Context} {e : Expr Unit} {e' : Expr Ty}
    (h : ExprTyping Γ e e') : SmallLiteral e' ↔ SmallLiteral e := by
  constructor
  · rintro ⟨hlow, hhigh⟩
    cases h
    exact .mk hlow hhigh
  · rintro ⟨hlow, hhigh⟩
    cases h
    exact .mk hlow hhigh

theorem ExprTyping.fits_iff {Γ : Context} {init : Expr Unit} {init' : Expr Ty} {ty : Ty}
    (h : ExprTyping Γ init init') :
    init'.fits ty = true ↔ ty.accepts init'.info = true ∨ ty = .number ∧ SmallLiteral init := by
  unfold Expr.fits
  rw [Bool.or_eq_true, Bool.and_eq_true, decide_eq_true_eq, Expr.isSmallLiteral_iff,
    h.smallLiteral_iff]

theorem Expr.checkCondition_eq_ok_iff {symbols : SymbolTable} {e : Expr Unit} {e' : Expr Ty} :
    e.checkCondition symbols = .ok e' ↔ ExprTyping symbols.context e e' ∧ e'.info = .logic := by
  unfold checkCondition
  simp only [Except.bind_eq_ok_iff, check_eq_ok_iff]
  constructor
  · rintro ⟨c, hc, h⟩
    split at h
    · rename_i hlogic
      cases h
      exact ⟨hc, hlogic⟩
    · cases h
  · rintro ⟨he, hlogic⟩
    refine ⟨e', he, ?_⟩
    rw [if_pos hlogic]
    rfl

/-- What checking a part of a program came to: its typed form, and the context after it. -/
def Checked.Is {β : Type} (r : Except (Spanned CheckError) (Checked β)) (value : β)
    (Δ : Context) : Prop := ∃ c, r = .ok c ∧ c.value = value ∧ c.symbols.context = Δ

namespace Stmt

theorem check_declare_iff {symbols : SymbolTable} {ty : Ty} {name : Ident} {init : Expr Unit}
    {span : Span} {s' : Stmt Ty} {Δ : Context} :
    Checked.Is ((declare ty name init span).check symbols) s' Δ ↔
      StmtTyping symbols.context (.declare ty name init span) s' Δ := by
  unfold Checked.Is check
  simp only [Except.bind_eq_ok_iff, Except.mapError_eq_ok_iff, Expr.check_eq_ok_iff]
  constructor
  · rintro ⟨c, ⟨extended, hdefine, init', hinit, h⟩, rfl, rfl⟩
    have hnew := (SymbolTable.define_eq_ok_iff.mp hdefine).1
    split at h
    · rename_i hfits
      cases h
      rw [SymbolTable.context_of_define hdefine]
      exact .declare (SymbolTable.context_eq_none_iff.mpr hnew) hinit (hinit.fits_iff.mp hfits)
    · cases h
  · intro h
    cases h with
    | @declare _ _ _ _ init' _ hnew hinit hfits =>
      obtain ⟨extended, hdefine⟩ : ∃ u, symbols.define name.name ⟨ty, name.span⟩ = .ok u :=
        ⟨_, SymbolTable.define_eq_ok_iff.mpr ⟨SymbolTable.context_eq_none_iff.mp hnew, rfl⟩⟩
      refine ⟨⟨.declare ty name init' span, extended, [⟨span, .declared name.name ty⟩]⟩,
        ⟨extended, hdefine, init', hinit, ?_⟩, rfl, ?_⟩
      · rw [if_pos (hinit.fits_iff.mpr hfits)]
        rfl
      · exact SymbolTable.context_of_define hdefine

theorem check_print_iff {symbols : SymbolTable} {value : Expr Unit} {span : Span} {s' : Stmt Ty}
    {Δ : Context} :
    Checked.Is ((print value span).check symbols) s' Δ ↔
      StmtTyping symbols.context (.print value span) s' Δ := by
  unfold Checked.Is check
  simp only [Except.bind_eq_ok_iff, Expr.check_eq_ok_iff]
  constructor
  · rintro ⟨c, ⟨value', hvalue, h⟩, rfl, rfl⟩
    split at h
    · rename_i hvalued
      cases h
      exact .print hvalue hvalued
    · cases h
  · intro h
    cases h with
    | @print _ _ value' _ hvalue hvalued =>
      refine ⟨⟨.print value' span, symbols, [⟨span, .printed value'.info⟩]⟩,
        ⟨value', hvalue, ?_⟩, rfl, rfl⟩
      rw [if_pos hvalued]
      rfl

/-- A body is typed as its statements are, one after the other. -/
theorem checkAll_iff {body : List (Stmt Unit)}
    (hstmt : ∀ s ∈ body, ∀ (symbols : SymbolTable) (s' : Stmt Ty) (Δ : Context),
      Checked.Is (s.check symbols) s' Δ ↔ StmtTyping symbols.context s s' Δ)
    {symbols : SymbolTable} {body' : List (Stmt Ty)} {Δ : Context} :
    Checked.Is (checkAll symbols body) body' Δ ↔ BodyTyping symbols.context body body' Δ := by
  induction body generalizing symbols body' Δ with
  | nil =>
    constructor
    · rintro ⟨c, h, rfl, rfl⟩
      cases h
      exact .nil
    · intro h
      cases h
      exact ⟨_, rfl, rfl, rfl⟩
  | cons s body ih =>
    have ih' := @ih fun t ht => hstmt t (by simp [ht])
    unfold Checked.Is checkAll
    simp only [Except.bind_eq_ok_iff]
    constructor
    · rintro ⟨c, ⟨c₁, h₁, c₂, h₂, h⟩, rfl, rfl⟩
      cases h
      have hs := (hstmt s (by simp) symbols _ _).mp ⟨c₁, h₁, rfl, rfl⟩
      exact .cons hs (ih'.mp ⟨c₂, h₂, rfl, rfl⟩)
    · intro h
      cases h with
      | cons hs hbody =>
        obtain ⟨c₁, h₁, rfl, rfl⟩ := (hstmt s (by simp) symbols _ _).mpr hs
        obtain ⟨c₂, h₂, rfl, rfl⟩ := ih'.mpr hbody
        exact ⟨_, ⟨c₁, h₁, c₂, h₂, rfl⟩, rfl, rfl⟩

theorem check_iff {symbols : SymbolTable} {s : Stmt Unit} {s' : Stmt Ty} {Δ : Context} :
    Checked.Is (s.check symbols) s' Δ ↔ StmtTyping symbols.context s s' Δ := by
  induction s generalizing symbols s' Δ with
  | declare ty name init span => exact check_declare_iff
  | print value span => exact check_print_iff
  | ifThen condition thenArm span ih =>
    unfold Checked.Is check
    simp only [Except.bind_eq_ok_iff, Expr.checkCondition_eq_ok_iff]
    constructor
    · rintro ⟨c, ⟨condition', ⟨hcond, hlogic⟩, c₁, h₁, h⟩, rfl, rfl⟩
      cases h
      exact .ifThen hcond hlogic (ih.mp ⟨c₁, h₁, rfl, rfl⟩)
    · intro h
      cases h with
      | ifThen hcond hlogic hthen =>
        obtain ⟨c₁, h₁, rfl, rfl⟩ := ih.mpr hthen
        exact ⟨_, ⟨_, ⟨hcond, hlogic⟩, c₁, h₁, rfl⟩, rfl, rfl⟩
  | ifElse condition thenArm elseArm span iha ihb =>
    unfold Checked.Is check
    simp only [Except.bind_eq_ok_iff, Expr.checkCondition_eq_ok_iff]
    constructor
    · rintro ⟨c, ⟨condition', ⟨hcond, hlogic⟩, c₁, h₁, c₂, h₂, h⟩, rfl, rfl⟩
      cases h
      exact .ifElse hcond hlogic (iha.mp ⟨c₁, h₁, rfl, rfl⟩) (ihb.mp ⟨c₂, h₂, rfl, rfl⟩)
    · intro h
      cases h with
      | ifElse hcond hlogic hthen helse =>
        obtain ⟨c₁, h₁, rfl, rfl⟩ := iha.mpr hthen
        obtain ⟨c₂, h₂, rfl, rfl⟩ := ihb.mpr helse
        exact ⟨_, ⟨_, ⟨hcond, hlogic⟩, c₁, h₁, c₂, h₂, rfl⟩, rfl, rfl⟩
  | block body span ih =>
    have hbody := fun {body' : List (Stmt Ty)} => @checkAll_iff body
      (fun s hs _ _ _ => ih s hs) symbols body' Δ
    unfold Checked.Is check
    simp only [Except.bind_eq_ok_iff]
    constructor
    · rintro ⟨c, ⟨c₁, h₁, h⟩, rfl, rfl⟩
      cases h
      exact .block (hbody.mp ⟨c₁, h₁, rfl, rfl⟩)
    · intro h
      cases h with
      | block hb =>
        obtain ⟨c₁, h₁, rfl, rfl⟩ := hbody.mpr hb
        exact ⟨_, ⟨c₁, h₁, rfl⟩, rfl, rfl⟩

end Stmt

theorem ExprTyping.untyped {Γ : Context} {e : Expr Unit} {e' : Expr Ty} (h : ExprTyping Γ e e') :
    e'.untyped = e := by
  induction h with
  | int | float | string | bool | name => rfl
  | @binary op lhs rhs lhs' rhs' span ty _ _ _ ihl ihr =>
    change Expr.binary op lhs'.untyped rhs'.untyped span () = _
    rw [ihl, ihr]

mutual

theorem StmtTyping.untyped {Γ Δ : Context} {s : Stmt Unit} {s' : Stmt Ty}
    (h : StmtTyping Γ s s' Δ) : s'.untyped = s := by
  cases h with
  | @declare _ ty name init init' span _ hinit _ =>
    change Stmt.declare ty name init'.untyped span = _
    rw [hinit.untyped]
  | @print _ value value' span hvalue _ =>
    change Stmt.print value'.untyped span = _
    rw [hvalue.untyped]
  | @ifThen _ _ condition condition' thenArm thenArm' span hcond _ hthen =>
    change Stmt.ifThen condition'.untyped thenArm'.untyped span = _
    rw [hcond.untyped, hthen.untyped]
  | @ifElse _ _ _ _ condition' _ _ thenArm' elseArm' span hcond _ hthen helse =>
    change Stmt.ifElse condition'.untyped thenArm'.untyped elseArm'.untyped span = _
    rw [hcond.untyped, hthen.untyped, helse.untyped]
  | block hbody => rw [Stmt.untyped_block, hbody.untyped]

theorem BodyTyping.untyped {Γ Δ : Context} {body : List (Stmt Unit)} {body' : List (Stmt Ty)}
    (h : BodyTyping Γ body body' Δ) : body'.map Stmt.untyped = body := by
  cases h with
  | nil => rfl
  | cons hs hbody => rw [List.map_cons, hs.untyped, hbody.untyped]

end

theorem BodyTyping.append {Γ Δ Θ : Context} {body more : List (Stmt Unit)}
    {body' more' : List (Stmt Ty)} (h : BodyTyping Γ body body' Δ)
    (hmore : BodyTyping Δ more more' Θ) : BodyTyping Γ (body ++ more) (body' ++ more') Θ := by
  induction body generalizing Γ body' with
  | nil =>
    cases h
    exact hmore
  | cons s body ih =>
    cases h with
    | cons hs hbody => exact .cons hs (ih hbody)

theorem ProgramTyping.untyped {p : Program Unit} {t : Program Ty} (h : ProgramTyping p t) :
    t.untyped = p := by
  cases h with
  | @mk imports body body' _ hbody =>
    have himports : imports.map (Import.map id) = imports := List.map_id imports
    change Program.mk (imports.map (Import.map id)) (body'.map Stmt.untyped) = _
    rw [himports, hbody.untyped]

theorem ProgramTyping.imports_eq {p : Program Unit} {t : Program Ty} (h : ProgramTyping p t) :
    t.imports = p.imports := by
  cases h
  rfl

theorem Program.check_iff {p : Program Unit} {t : Program Ty} :
    (∃ c, p.check = .ok c ∧ c.value = t) ↔ ProgramTyping p t := by
  obtain ⟨imports, body⟩ := p
  have hbody := fun {body' : List (Stmt Ty)} {Δ : Context} => @Stmt.checkAll_iff body
    (fun _ _ _ _ _ => Stmt.check_iff) .empty body' Δ
  unfold check
  simp only [Except.bind_eq_ok_iff]
  constructor
  · rintro ⟨c, ⟨c₁, h₁, h⟩, rfl⟩
    cases h
    exact .mk (hbody.mp ⟨c₁, h₁, rfl, rfl⟩)
  · intro h
    cases h with
    | mk hb =>
      obtain ⟨c₁, h₁, rfl, rfl⟩ := hbody.mpr hb
      exact ⟨_, ⟨c₁, h₁, rfl⟩, rfl⟩

/-- Checking succeeds with a typed program exactly if that program comes from a derivation; there
is only one such program, and without its types it is the program that was checked. -/
theorem Program.check_ok_iff_typing (p : Program Unit) :
    (∀ t, (∃ c, p.check = .ok c ∧ c.value = t) ↔ ProgramTyping p t) ∧
      (∀ t u, ProgramTyping p t → ProgramTyping p u → t = u) ∧
      ∀ t, ProgramTyping p t → t.untyped = p := by
  refine ⟨fun t => check_iff, ?_, fun t h => h.untyped⟩
  intro t u ht hu
  obtain ⟨c, hc, rfl⟩ := check_iff.mpr ht
  obtain ⟨d, hd, rfl⟩ := check_iff.mpr hu
  rw [Except.ok.inj (hc.symm.trans hd)]

end HumanScript
