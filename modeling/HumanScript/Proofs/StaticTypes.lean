import HumanScript.Program.Reader
import HumanScript.Proofs.Lowering

/-! Static types of C++ code. The code of a checked program is well typed: its expressions have the
types that checking found, and never is an operation on two string literals left to C++, which would
take it as one on their addresses. -/
namespace HumanScript

namespace Cpp

/-- The type of a variable, or a pointer to the characters of a literal. -/
inductive StaticType where
  | chars
  | of (ty : CType)
deriving DecidableEq

namespace CType

def rank? : CType → Option Nat
  | int => some 0
  | longLong => some 1
  | double => some 2
  | string | bool | void => none

def IsNumeric (t : CType) : Prop := t.rank?.isSome = true

/-- The type both operands of an arithmetic operation are converted to. -/
def common? (s t : CType) : Option CType :=
  match s.rank?, t.rank? with
  | some i, some j => if j ≤ i then s else t
  | _, _ => none

/-- Both are numbers, and the second type is the wider one. -/
def Narrower (s t : CType) : Prop := ∃ i j, s.rank? = some i ∧ t.rank? = some j ∧ i < j

end CType

/-- Operands that C++ has string operations for: one of them is an object and not a pointer. -/
inductive StringOperands : StaticType → StaticType → Prop where
  | objects : StringOperands (.of .string) (.of .string)
  | objectFirst : StringOperands (.of .string) .chars
  | objectSecond : StringOperands .chars (.of .string)

/-- The types of expressions over variables of the given types. -/
inductive HasType (env : String → Option CType) : Expr → StaticType → Prop where
  | int {value : Int} : HasType env (.int value) (.of .longLong)
  | double {value : Binary64} : HasType env (.double value) (.of .double)
  | string {value : String} : HasType env (.string value) .chars
  | bool {value : Bool} : HasType env (.bool value) (.of .bool)
  | name {x : String} {t : CType} (hx : env x = some t) : HasType env (.name x) (.of t)
  | stringOf {e : Expr} (he : HasType env e .chars) : HasType env (.stringOf e) (.of .string)
  | toString {e : Expr} {t : CType} (he : HasType env e (.of t)) (ht : t.IsNumeric) :
      HasType env (.toString e) (.of .string)
  | choice {condition whenTrue whenFalse : Expr} (hcond : HasType env condition (.of .bool))
      (htrue : HasType env whenTrue .chars) (hfalse : HasType env whenFalse .chars) :
      HasType env (.choice condition whenTrue whenFalse) .chars
  | sum {lhs rhs : Expr} {s t wide : CType} (hl : HasType env lhs (.of s))
      (hr : HasType env rhs (.of t)) (hwide : s.common? t = some wide) :
      HasType env (.binary .add lhs rhs) (.of wide)
  | concat {lhs rhs : Expr} {s t : StaticType} (hl : HasType env lhs s) (hr : HasType env rhs t)
      (hst : StringOperands s t) : HasType env (.binary .add lhs rhs) (.of .string)
  | eqNumbers {lhs rhs : Expr} {s t : CType} (hl : HasType env lhs (.of s))
      (hr : HasType env rhs (.of t)) (hs : s.IsNumeric) (ht : t.IsNumeric) :
      HasType env (.binary .eq lhs rhs) (.of .bool)
  | eqBools {lhs rhs : Expr} (hl : HasType env lhs (.of .bool)) (hr : HasType env rhs (.of .bool)) :
      HasType env (.binary .eq lhs rhs) (.of .bool)
  | eqStrings {lhs rhs : Expr} {s t : StaticType} (hl : HasType env lhs s)
      (hr : HasType env rhs t) (hst : StringOperands s t) :
      HasType env (.binary .eq lhs rhs) (.of .bool)

/-- What a variable may start with, given the type that the expression has. -/
inductive Initializes : CType → Expr → StaticType → Prop where
  | same {t : CType} {e : Expr} : Initializes t e (.of t)
  | widened {s t : CType} {e : Expr} (hst : s.Narrower t) : Initializes t e (.of s)
  | smallLiteral {value : Int} (hlow : -2147483648 ≤ value) (hhigh : value < 2147483648) :
      Initializes .int (.int value) (.of .longLong)
  | stringLiteral {value : String} : Initializes .string (.string value) .chars

inductive Stmt.WellTyped (env : String → Option CType) : Stmt → Prop where
  | declare {t : CType} {x : String} {init : Expr} {σ : StaticType} (hx : env x = some t)
      (hinit : HasType env init σ) (hstart : Initializes t init σ) :
      WellTyped env (.declare t x init)
  | print {value : Expr} {σ : StaticType} (hvalue : HasType env value σ) (hσ : σ ≠ .of .void) :
      WellTyped env (.print value)
  | ifThen {condition : Expr} {thenArm : List Stmt} (hcond : HasType env condition (.of .bool))
      (hthen : ∀ s ∈ thenArm, WellTyped env s) : WellTyped env (.ifThen condition thenArm)
  | ifElse {condition : Expr} {thenArm elseArm : List Stmt}
      (hcond : HasType env condition (.of .bool)) (hthen : ∀ s ∈ thenArm, WellTyped env s)
      (helse : ∀ s ∈ elseArm, WellTyped env s) : WellTyped env (.ifElse condition thenArm elseArm)
  | block {body : List Stmt} (hbody : ∀ s ∈ body, WellTyped env s) : WellTyped env (.block body)

mutual

/-- The variables a statement declares, at any depth. -/
def Stmt.declarations : Stmt → List (String × CType)
  | .declare ty name _ => [(name, ty)]
  | .print _ => []
  | .ifThen _ thenArm => Stmt.declarationsAll thenArm
  | .ifElse _ thenArm elseArm => Stmt.declarationsAll thenArm ++ Stmt.declarationsAll elseArm
  | .block body => Stmt.declarationsAll body

def Stmt.declarationsAll : List Stmt → List (String × CType)
  | [] => []
  | s :: body => s.declarations ++ Stmt.declarationsAll body

end

/-- The type with which a program declares a variable. -/
def Program.env (p : Program) : String → Option CType :=
  fun x => (Stmt.declarationsAll p.body).lookup x

end Cpp

/-- The static type of the code for an expression: that of its own type, but literals of texts are
no objects. -/
def Expr.staticType? (e : Expr Ty) : Option Cpp.StaticType :=
  if e.isStringLiteral then some .chars else e.info.toCpp.toOption.map .of

/-- The code for an expression has the type it should have. -/
def Expr.CodeTyped (env : String → Option Cpp.CType) (e : Expr Ty) : Prop :=
  ∃ σ, e.staticType? = some σ ∧ Cpp.HasType env e.toCpp σ

/-- Variables have in C++ the counterparts of their types. -/
def Context.Agrees (Γ : Context) (env : String → Option Cpp.CType) : Prop :=
  ∀ x ty, Γ x = some ty → ∃ t, ty.toCpp = .ok t ∧ env x = some t

namespace Ty

theorem isNumeric_toCpp {t : Ty} {c : Cpp.CType} (h : t.isNumeric = true) (hc : t.toCpp = .ok c) :
    c.IsNumeric := by
  rcases isNumeric_iff.mp h with rfl | rfl | rfl <;> cases hc <;> rfl

theorem common?_toCpp {s t wide : Ty} {c d : Cpp.CType} (h : s.widest? t = some wide)
    (hc : s.toCpp = .ok c) (hd : t.toCpp = .ok d) :
    ∃ w, wide.toCpp = .ok w ∧ c.common? d = some w := by
  obtain ⟨hs, ht, _⟩ := isNumeric_of_widest? h
  rcases isNumeric_iff.mp hs with rfl | rfl | rfl <;>
    rcases isNumeric_iff.mp ht with rfl | rfl | rfl <;>
      cases h <;> cases hc <;> cases hd <;> exact ⟨_, rfl, rfl⟩

theorem accepts_toCpp {declared value : Ty} {c d : Cpp.CType}
    (h : declared.accepts value = true) (hc : declared.toCpp = .ok c) (hd : value.toCpp = .ok d) :
    d = c ∨ d.Narrower c := by
  rcases accepts_iff.mp h with rfl | ⟨rfl, rfl⟩ | ⟨rfl, rfl | rfl⟩
  · exact .inl (Except.ok.inj (hd.symm.trans hc))
  · cases hc
    cases hd
    exact .inr ⟨0, 1, rfl, rfl, Nat.zero_lt_one⟩
  · cases hc
    cases hd
    exact .inr ⟨0, 2, rfl, rfl, Nat.zero_lt_two⟩
  · cases hc
    cases hd
    exact .inr ⟨1, 2, rfl, rfl, Nat.one_lt_two⟩

end Ty

namespace Expr
variable {env : String → Option Cpp.CType} {e lhs rhs : Expr Ty}

/-- The static type of a text: that of an object, unless it is a literal. -/
def textType (e : Expr Ty) : Cpp.StaticType :=
  if e.isStringLiteral then .chars else .of .string

theorem CodeTyped.value (h : e.CodeTyped env) (hliteral : e.isStringLiteral = false) :
    ∃ t, e.info.toCpp = .ok t ∧ Cpp.HasType env e.toCpp (.of t) := by
  obtain ⟨σ, hσ, he⟩ := h
  rw [staticType?, hliteral, if_neg Bool.false_ne_true] at hσ
  obtain ⟨t, ht, rfl⟩ := Option.map_eq_some_iff.mp hσ
  exact ⟨t, Except.toOption_eq_some_iff.mp ht, he⟩

theorem CodeTyped.text (h : e.CodeTyped env) (htext : e.info = .text) :
    Cpp.HasType env e.toCpp e.textType := by
  obtain ⟨σ, hσ, he⟩ := h
  rw [staticType?, htext] at hσ
  unfold textType
  split at hσ
  · rename_i hliteral
    rw [if_pos hliteral]
    cases hσ
    exact he
  · rename_i hliteral
    rw [if_neg hliteral]
    cases hσ
    exact he

/-- Of two texts, C++ gets at least one as an object. -/
theorem stringOperands_wrapped {left : Cpp.Expr} (hleft : Cpp.HasType env left lhs.textType) :
    ∃ σ, Cpp.HasType env
        (if lhs.isStringLiteral ∧ rhs.isStringLiteral then .stringOf left else left) σ ∧
      Cpp.StringOperands σ rhs.textType := by
  unfold textType at hleft ⊢
  by_cases hl : lhs.isStringLiteral = true
  · rw [if_pos hl] at hleft
    by_cases hr : rhs.isStringLiteral = true
    · rw [if_pos ⟨hl, hr⟩, if_pos hr]
      exact ⟨_, .stringOf hleft, .objectFirst⟩
    · rw [if_neg fun h => hr h.2, if_neg hr]
      exact ⟨_, hleft, .objectSecond⟩
  · rw [if_neg hl] at hleft
    rw [if_neg fun h => hl h.1]
    refine ⟨_, hleft, ?_⟩
    split
    · exact .objectFirst
    · exact .objects

theorem codeTyped_of_info {σ : Cpp.CType} (hliteral : e.isStringLiteral = false)
    (hinfo : e.info.toCpp = .ok σ) (h : Cpp.HasType env e.toCpp (.of σ)) : e.CodeTyped env := by
  refine ⟨.of σ, ?_, h⟩
  rw [staticType?, hliteral, if_neg Bool.false_ne_true, hinfo]
  rfl

end Expr

section Typing
variable {Γ : Context} {env : String → Option Cpp.CType} {e lhs rhs : Expr Unit}
  {e' lhs' rhs' : Expr Ty} {span : Span} {ty : Ty}

theorem ExprTyping.isStringLiteral_eq_false (h : ExprTyping Γ e e') (hne : e'.info ≠ .text) :
    e'.isStringLiteral = false := by
  cases h with
  | string => exact absurd rfl hne
  | int | float | bool | name | binary => rfl

theorem ExprTyping.number (h : ExprTyping Γ e e') (he : e'.CodeTyped env)
    (hnumeric : e'.info.isNumeric = true) :
    ∃ t, e'.info.toCpp = .ok t ∧ t.IsNumeric ∧ Cpp.HasType env e'.toCpp (.of t) := by
  obtain ⟨t, ht, htyped⟩ :=
    he.value (h.isStringLiteral_eq_false (Ty.ne_text_of_isNumeric hnumeric))
  exact ⟨t, ht, Ty.isNumeric_toCpp hnumeric ht, htyped⟩

theorem ExprTyping.logic (h : ExprTyping Γ e e') (he : e'.CodeTyped env)
    (hlogic : e'.info = .logic) : Cpp.HasType env e'.toCpp (.of .bool) := by
  have hne : e'.info ≠ .text := by simp [hlogic]
  obtain ⟨t, ht, htyped⟩ := he.value (h.isStringLiteral_eq_false hne)
  rw [hlogic] at ht
  cases ht
  exact htyped

/-- An operand made into a string is one, or a literal of it. -/
theorem ExprTyping.stringified (h : ExprTyping Γ e e') (he : e'.CodeTyped env)
    (hvalued : e'.info.isValued = true) :
    Cpp.HasType env (e'.info.stringify e'.toCpp) e'.textType := by
  by_cases htext : e'.info = .text
  · have hcode := he.text htext
    rw [htext]
    exact hcode
  · have hobject : e'.textType = .of .string := by
      rw [Expr.textType, h.isStringLiteral_eq_false htext, if_neg Bool.false_ne_true]
    rw [hobject]
    by_cases hlogic : e'.info = .logic
    · have hcode := h.logic he hlogic
      rw [hlogic]
      exact .stringOf (.choice hcode .string .string)
    · have hnumeric := Ty.isNumeric_of_isValued hvalued htext hlogic
      obtain ⟨t, _, ht, hcode⟩ := h.number he hnumeric
      have hstringify : e'.info.stringify e'.toCpp = .toString e'.toCpp := by
        rcases Ty.isNumeric_iff.mp hnumeric with hn | hn | hn <;> rw [hn] <;> rfl
      rw [hstringify]
      exact .toString hcode ht

theorem ExprTyping.codeTyped_add (hl : ExprTyping Γ lhs lhs') (hr : ExprTyping Γ rhs rhs')
    (hlhs : lhs'.CodeTyped env) (hrhs : rhs'.CodeTyped env)
    (hty : BinaryOp.add.resultTy? lhs'.info rhs'.info = some ty) :
    (Expr.binary .add lhs' rhs' span ty).CodeTyped env := by
  rcases BinaryOp.resultTy?_add_cases hty with hwide | ⟨rfl, htext⟩
  -- Of two numbers neither is wrapped, and C++ converts them as checking widens them.
  · obtain ⟨hln, hrn, hn⟩ := Ty.isNumeric_of_widest? hwide
    obtain ⟨c, hc, _, hleft⟩ := hl.number hlhs hln
    obtain ⟨d, hd, _, hright⟩ := hr.number hrhs hrn
    obtain ⟨w, hw, hcommon⟩ := Ty.common?_toCpp hwide hc hd
    have hne : ty ≠ .text := Ty.ne_text_of_isNumeric hn
    have hliteral := hl.isStringLiteral_eq_false (Ty.ne_text_of_isNumeric hln)
    refine Expr.codeTyped_of_info rfl hw ?_
    simp only [Expr.toCpp, hne, hliteral, Bool.false_eq_true, and_false, false_and, if_false]
    exact .sum hleft hright hcommon
  -- With a text on one side, both operands are strings or literals by now.
  · have hvalued : lhs'.info.isValued = true ∧ rhs'.info.isValued = true := by
      rcases htext with ⟨hs, ht⟩ | ⟨ht, hs⟩
      · exact ⟨by rw [hs]; rfl, ht⟩
      · exact ⟨hs, by rw [ht]; rfl⟩
    have hright := hr.stringified hrhs hvalued.2
    obtain ⟨σ, hleft, hstrings⟩ :=
      Expr.stringOperands_wrapped (hl.stringified hlhs hvalued.1)
    refine Expr.codeTyped_of_info rfl rfl ?_
    simp only [Expr.toCpp, and_self, if_true]
    exact .concat hleft hright hstrings

theorem ExprTyping.codeTyped_eq (hl : ExprTyping Γ lhs lhs') (hr : ExprTyping Γ rhs rhs')
    (hlhs : lhs'.CodeTyped env) (hrhs : rhs'.CodeTyped env)
    (hty : BinaryOp.eq.resultTy? lhs'.info rhs'.info = some ty) :
    (Expr.binary .eq lhs' rhs' span ty).CodeTyped env := by
  obtain ⟨rfl, hcomparable⟩ := BinaryOp.resultTy?_eq_cases hty
  refine Expr.codeTyped_of_info rfl rfl ?_
  simp only [Expr.toCpp, reduceCtorEq, false_and, if_false]
  by_cases htext : lhs'.info = .text
  · have hsame : rhs'.info = .text := by
      rcases hcomparable with ⟨heq, _⟩ | ⟨hln, _⟩
      · rw [← heq, htext]
      · rw [htext] at hln
        cases hln
    obtain ⟨σ, hleft, hstrings⟩ := Expr.stringOperands_wrapped (hlhs.text htext)
    exact .eqStrings hleft (hrhs.text hsame) hstrings
  · rw [if_neg fun h => Bool.false_ne_true ((hl.isStringLiteral_eq_false htext).symm.trans h.1)]
    by_cases hlogic : lhs'.info = .logic
    · have hsame : rhs'.info = .logic := by
        rcases hcomparable with ⟨heq, _⟩ | ⟨hln, _⟩
        · rw [← heq, hlogic]
        · rw [hlogic] at hln
          cases hln
      exact .eqBools (hl.logic hlhs hlogic) (hr.logic hrhs hsame)
    · have hnumeric : lhs'.info.isNumeric = true ∧ rhs'.info.isNumeric = true := by
        rcases hcomparable with ⟨heq, hvalued⟩ | hboth
        · rw [← heq, and_self]
          exact Ty.isNumeric_of_isValued hvalued htext hlogic
        · exact hboth
      obtain ⟨c, _, hc, hleft⟩ := hl.number hlhs hnumeric.1
      obtain ⟨d, _, hd, hright⟩ := hr.number hrhs hnumeric.2
      exact .eqNumbers hleft hright hc hd

theorem ExprTyping.codeTyped (h : ExprTyping Γ e e') (hΓ : Γ.Agrees env) : e'.CodeTyped env := by
  induction h with
  | int => exact Expr.codeTyped_of_info rfl rfl .int
  | float => exact Expr.codeTyped_of_info rfl rfl .double
  | string => exact ⟨.chars, rfl, .string⟩
  | bool => exact Expr.codeTyped_of_info rfl rfl .bool
  | name hname =>
    obtain ⟨t, ht, hx⟩ := hΓ _ _ hname
    exact Expr.codeTyped_of_info rfl ht (.name hx)
  | @binary op _ _ _ _ _ _ hl hr hty ihl ihr =>
    cases op with
    | add => exact hl.codeTyped_add hr ihl ihr hty
    | eq => exact hl.codeTyped_eq hr ihl ihr hty

theorem ExprTyping.codeTyped_parts (h : ExprTyping Γ e e') (hΓ : Γ.Agrees env) :
    ∀ f ∈ e'.parts, f.CodeTyped env := by
  intro f hf
  induction h with
  | int | float | string | bool =>
    obtain rfl := List.mem_singleton.mp hf
    exact ExprTyping.codeTyped (by constructor) hΓ
  | name hname =>
    obtain rfl := List.mem_singleton.mp hf
    exact ExprTyping.codeTyped (.name hname) hΓ
  | binary hl hr hty ihl ihr =>
    rcases List.mem_cons.mp hf with rfl | hf
    · exact ExprTyping.codeTyped (.binary hl hr hty) hΓ
    · rcases List.mem_append.mp hf with hf | hf
      · exact ihl hf
      · exact ihr hf

/-- What checking lets a variable start with, C++ lets its counterpart start with. -/
theorem ExprTyping.initializes {t : Cpp.CType} (h : ExprTyping Γ e e') (he : e'.CodeTyped env)
    (hfits : ty.accepts e'.info = true ∨ ty = .number ∧ SmallLiteral e) (ht : ty.toCpp = .ok t) :
    ∃ σ, Cpp.HasType env e'.toCpp σ ∧ Cpp.Initializes t e'.toCpp σ := by
  rcases hfits with haccepts | ⟨rfl, hsmall⟩
  · by_cases hliteral : e'.isStringLiteral = true
    · cases h with
      | string =>
        obtain rfl : ty = .text := by simpa [Ty.accepts_iff, Expr.info] using haccepts
        cases ht
        exact ⟨.chars, .string, .stringLiteral⟩
      | int | float | bool | name | binary => cases hliteral
    · obtain ⟨u, hu, hcode⟩ := he.value (Bool.eq_false_iff.mpr hliteral)
      rcases Ty.accepts_toCpp haccepts ht hu with rfl | hnarrower
      · exact ⟨_, hcode, .same⟩
      · exact ⟨_, hcode, .widened hnarrower⟩
  · cases hsmall with
    | mk hlow hhigh =>
      cases h
      cases ht
      exact ⟨_, .int, .smallLiteral hlow hhigh⟩

theorem Expr.CodeTyped.printed (h : e'.CodeTyped env) (hvalued : e'.info.isValued = true) :
    ∃ σ, Cpp.HasType env e'.toCpp σ ∧ σ ≠ .of .void := by
  obtain ⟨σ, hσ, hcode⟩ := h
  refine ⟨σ, hcode, ?_⟩
  rintro rfl
  unfold Expr.staticType? at hσ
  split at hσ
  · cases hσ
  · revert hσ hvalued
    cases e'.info <;> simp [Ty.isValued, Ty.toCpp, Except.toOption]

end Typing

/-- The declarations of new variables that take one context to another. -/
inductive Declares : Context → List (String × Cpp.CType) → Context → Prop where
  | nil {Γ : Context} : Declares Γ [] Γ
  | cons {Γ Δ : Context} {x : String} {ty : Ty} {t : Cpp.CType} {more : List (String × Cpp.CType)}
      (hnew : Γ x = none) (ht : ty.toCpp = .ok t) (hmore : Declares (Γ.declare x ty) more Δ) :
      Declares Γ ((x, t) :: more) Δ

namespace Declares
variable {Γ Δ Θ : Context} {ds es : List (String × Cpp.CType)}

theorem append (hd : Declares Γ ds Δ) (he : Declares Δ es Θ) : Declares Γ (ds ++ es) Θ := by
  induction hd with
  | nil => exact he
  | cons hnew ht _ ih => exact .cons hnew ht (ih he)

theorem eq_some {x : String} {ty : Ty} (h : Declares Γ ds Δ) (hx : Γ x = some ty) :
    Δ x = some ty := by
  induction h with
  | nil => exact hx
  | @cons Γ _ y _ _ _ hnew _ _ ih =>
    apply ih
    have hxy : x ≠ y := by
      rintro rfl
      rw [hnew] at hx
      cases hx
    rw [Context.declare, if_neg hxy]
    exact hx

theorem agrees {env : String → Option Cpp.CType} (h : Declares Γ ds Δ) (henv : Δ.Agrees env) :
    Γ.Agrees env :=
  fun x ty hx => henv x ty (h.eq_some hx)

theorem lookup {x : String} {ty : Ty} (h : Declares Γ ds Δ) (hnew : Γ x = none)
    (hx : Δ x = some ty) : ∃ t, ty.toCpp = .ok t ∧ ds.lookup x = some t := by
  induction h with
  | nil =>
    rw [hnew] at hx
    cases hx
  | @cons Γ Δ y other t more hy ht hmore ih =>
    by_cases hxy : x = y
    · subst hxy
      have hother : Δ x = some other := hmore.eq_some (by simp [Context.declare])
      rw [hx] at hother
      cases hother
      exact ⟨t, ht, by simp⟩
    · obtain ⟨u, hu, hlookup⟩ := ih (by simp [Context.declare, hxy, hnew]) hx
      refine ⟨u, hu, ?_⟩
      rw [List.lookup_cons, beq_false_of_ne hxy]
      exact hlookup

end Declares

theorem Cpp.Stmt.declarationsAll_arm (q : Cpp.Stmt) :
    Cpp.Stmt.declarationsAll q.arm = q.declarations := by
  cases q with
  | block body => rfl
  | declare | print | ifThen | ifElse =>
    exact List.append_nil _

theorem Cpp.Stmt.WellTyped.arm {env : String → Option Cpp.CType} {q : Cpp.Stmt}
    (h : q.WellTyped env) : ∀ s ∈ q.arm, s.WellTyped env := by
  cases q with
  | block body =>
    cases h with
    | block hbody => exact hbody
  | declare | print | ifThen | ifElse =>
    intro s hs
    cases List.mem_singleton.mp hs
    exact h

mutual

theorem StmtTyping.declares {Γ Δ : Context} {s : Stmt Unit} {s' : Stmt Ty} {q : Cpp.Stmt}
    (h : StmtTyping Γ s s' Δ) (hq : s'.toCpp = .ok q) : Declares Γ q.declarations Δ := by
  cases h with
  | declare hnew _ _ =>
    obtain ⟨t, ht, rfl⟩ := Stmt.toCpp_declare_iff.mp hq
    exact .cons hnew ht .nil
  | print _ _ =>
    cases hq
    exact .nil
  | ifThen _ _ hthen =>
    obtain ⟨a, ha, rfl⟩ := Stmt.toCpp_ifThen_iff.mp hq
    rw [Cpp.Stmt.declarations, a.declarationsAll_arm]
    exact hthen.declares ha
  | ifElse _ _ hthen helse =>
    obtain ⟨a, ha, b, hb, rfl⟩ := Stmt.toCpp_ifElse_iff.mp hq
    rw [Cpp.Stmt.declarations, a.declarationsAll_arm, b.declarationsAll_arm]
    exact (hthen.declares ha).append (helse.declares hb)
  | block hbody =>
    obtain ⟨qs, hqs, rfl⟩ := Stmt.toCpp_block_iff.mp hq
    exact hbody.declares hqs

theorem BodyTyping.declares {Γ Δ : Context} {body : List (Stmt Unit)} {body' : List (Stmt Ty)}
    {qs : List Cpp.Stmt} (h : BodyTyping Γ body body' Δ) (hqs : Stmt.allToCpp body' = .ok qs) :
    Declares Γ (Cpp.Stmt.declarationsAll qs) Δ := by
  cases h with
  | nil =>
    cases hqs
    exact .nil
  | cons hs hbody =>
    obtain ⟨q, hq, rest, hrest, rfl⟩ := Stmt.allToCpp_cons_iff.mp hqs
    exact (hs.declares hq).append (hbody.declares hrest)

end

mutual

theorem StmtTyping.wellTyped {Γ Δ : Context} {s : Stmt Unit} {s' : Stmt Ty} {q : Cpp.Stmt}
    {env : String → Option Cpp.CType} (h : StmtTyping Γ s s' Δ) (hq : s'.toCpp = .ok q)
    (henv : Δ.Agrees env) : q.WellTyped env ∧ ∀ e ∈ s'.exprs, e.CodeTyped env := by
  have hΓ := (h.declares hq).agrees henv
  cases h with
  | @declare _ ty name _ _ _ _ hinit hfits =>
    obtain ⟨t, ht, rfl⟩ := Stmt.toCpp_declare_iff.mp hq
    obtain ⟨u, hu, hx⟩ := henv name.name ty (by simp [Context.declare])
    cases ht.symm.trans hu
    obtain ⟨σ, hcode, hstart⟩ := hinit.initializes (hinit.codeTyped hΓ) hfits ht
    exact ⟨.declare hx hcode hstart, hinit.codeTyped_parts hΓ⟩
  | print hvalue hvalued =>
    cases hq
    obtain ⟨σ, hcode, hσ⟩ := (hvalue.codeTyped hΓ).printed hvalued
    rw [if_pos hvalued]
    exact ⟨.print hcode hσ, hvalue.codeTyped_parts hΓ⟩
  | ifThen hcond hlogic hthen =>
    obtain ⟨a, ha, rfl⟩ := Stmt.toCpp_ifThen_iff.mp hq
    obtain ⟨hthen', hexprs⟩ := hthen.wellTyped ha henv
    refine ⟨.ifThen (hcond.logic (hcond.codeTyped hΓ) hlogic) hthen'.arm, ?_⟩
    exact List.forall_mem_append.mpr ⟨hcond.codeTyped_parts hΓ, hexprs⟩
  | ifElse hcond hlogic hthen helse =>
    obtain ⟨a, ha, b, hb, rfl⟩ := Stmt.toCpp_ifElse_iff.mp hq
    obtain ⟨hthen', hexprs⟩ := hthen.wellTyped ha ((helse.declares hb).agrees henv)
    obtain ⟨helse', hexprs'⟩ := helse.wellTyped hb henv
    refine ⟨.ifElse (hcond.logic (hcond.codeTyped hΓ) hlogic) hthen'.arm helse'.arm, ?_⟩
    exact List.forall_mem_append.mpr
      ⟨List.forall_mem_append.mpr ⟨hcond.codeTyped_parts hΓ, hexprs⟩, hexprs'⟩
  | block hbody =>
    obtain ⟨qs, hqs, rfl⟩ := Stmt.toCpp_block_iff.mp hq
    obtain ⟨hbody', hexprs⟩ := hbody.wellTyped hqs henv
    exact ⟨.block hbody', hexprs⟩

theorem BodyTyping.wellTyped {Γ Δ : Context} {body : List (Stmt Unit)} {body' : List (Stmt Ty)}
    {qs : List Cpp.Stmt} {env : String → Option Cpp.CType} (h : BodyTyping Γ body body' Δ)
    (hqs : Stmt.allToCpp body' = .ok qs) (henv : Δ.Agrees env) :
    (∀ q ∈ qs, q.WellTyped env) ∧ ∀ e ∈ Stmt.exprsAll body', e.CodeTyped env := by
  cases h with
  | nil =>
    cases hqs
    exact ⟨by simp, by simp [Stmt.exprsAll]⟩
  | cons hs hbody =>
    obtain ⟨q, hq, rest, hrest, rfl⟩ := Stmt.allToCpp_cons_iff.mp hqs
    obtain ⟨hs', hexprs⟩ := hs.wellTyped hq ((hbody.declares hrest).agrees henv)
    obtain ⟨hbody', hexprs'⟩ := hbody.wellTyped hrest henv
    exact ⟨List.forall_mem_cons.mpr ⟨hs', hbody'⟩, List.forall_mem_append.mpr ⟨hexprs, hexprs'⟩⟩

end

end HumanScript
