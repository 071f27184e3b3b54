import HumanScript.Compile
import HumanScript.Proofs.Except
import HumanScript.Proofs.Trees
import Mathlib.Data.List.Forall2

/-! The same things at other places. Programs, tables and errors are alike if they differ in nothing
but places, and these correspond; what it means for two places to correspond is left open. Checking
alike programs ends alike, and alike programs have the same C++ code. -/
namespace HumanScript

section Relations
variable {α : Type} (R : Span → Span → Prop)

/-- Values that correspond, at places that do. -/
structure Spanned.Alike (same : α → α → Prop) (a b : Spanned α) : Prop where
  span : R a.span b.span
  value : same a.value b.value

structure Token.Alike (t u : Token) : Prop where
  kind : t.kind = u.kind
  text : t.text = u.text
  value : t.value = u.value
  span : R t.span u.span

structure Ident.Alike (x y : Ident) : Prop where
  name : x.name = y.name
  span : R x.span y.span

structure Import.Alike (i j : Import) : Prop where
  header : i.header = j.header
  span : R i.span j.span

inductive Expr.Alike : Expr α → Expr α → Prop where
  | literal {value : Literal} {s s' : Span} {info : α} (hs : R s s') :
      Alike (.literal value s info) (.literal value s' info)
  | name {x y : Ident} {s s' : Span} {info : α} (hx : x.Alike R y) (hs : R s s') :
      Alike (.name x s info) (.name y s' info)
  | binary {op : BinaryOp} {l l' r r' : Expr α} {s s' : Span} {info : α} (hl : Alike l l')
      (hr : Alike r r') (hs : R s s') : Alike (.binary op l r s info) (.binary op l' r' s' info)

mutual

inductive Stmt.Alike : Stmt α → Stmt α → Prop where
  | declare {ty : Ty} {x y : Ident} {e f : Expr α} {s s' : Span} (hx : x.Alike R y)
      (he : e.Alike R f) (hs : R s s') : Alike (.declare ty x e s) (.declare ty y f s')
  | print {e f : Expr α} {s s' : Span} (he : e.Alike R f) (hs : R s s') :
      Alike (.print e s) (.print f s')
  | ifThen {c d : Expr α} {a a' : Stmt α} {s s' : Span} (hc : c.Alike R d) (ha : Alike a a')
      (hs : R s s') : Alike (.ifThen c a s) (.ifThen d a' s')
  | ifElse {c d : Expr α} {a a' b b' : Stmt α} {s s' : Span} (hc : c.Alike R d) (ha : Alike a a')
      (hb : Alike b b') (hs : R s s') : Alike (.ifElse c a b s) (.ifElse d a' b' s')
  | block {body body' : List (Stmt α)} {s s' : Span} (hbody : Stmt.AllAlike body body')
      (hs : R s s') : Alike (.block body s) (.block body' s')

inductive Stmt.AllAlike : List (Stmt α) → List (Stmt α) → Prop where
  | nil : AllAlike [] []
  | cons {s s' : Stmt α} {body body' : List (Stmt α)} (hs : Stmt.Alike s s')
      (hbody : AllAlike body body') : AllAlike (s :: body) (s' :: body')

end

structure Program.Alike (p q : Program α) : Prop where
  imports : List.Forall₂ (Import.Alike R) p.imports q.imports
  body : Stmt.AllAlike R p.body q.body

structure Symbol.Alike (a b : Symbol) : Prop where
  ty : a.ty = b.ty
  span : R a.span b.span

/-- The same variables, declared in the same order. -/
def SymbolTable.Alike (t u : SymbolTable) : Prop :=
  List.Forall₂ (fun p q => p.1 = q.1 ∧ p.2.Alike R q.2) t.entries u.entries

/-- The same complaint. It has a place in it only if it is about a second declaration. -/
inductive CheckError.Alike : CheckError → CheckError → Prop where
  | alreadyDeclared {name : String} {earlier earlier' : Span} (h : R earlier earlier') :
      Alike (.alreadyDeclared name earlier) (.alreadyDeclared name earlier')
  | undeclaredName {name : String} : Alike (.undeclaredName name) (.undeclaredName name)
  | unassignable {name : String} {declared actual : Ty} :
      Alike (.unassignable name declared actual) (.unassignable name declared actual)
  | invalidOperands {op : BinaryOp} {lhs rhs : Ty} :
      Alike (.invalidOperands op lhs rhs) (.invalidOperands op lhs rhs)
  | nonLogicCondition {actual : Ty} : Alike (.nonLogicCondition actual) (.nonLogicCondition actual)
  | unprintable {ty : Ty} : Alike (.unprintable ty) (.unprintable ty)

inductive CompileError.Alike : CompileError → CompileError → Prop where
  | parse {d e : Spanned ParseError} (h : Spanned.Alike R Eq d e) : Alike (.parse d) (.parse e)
  | check {d e : Spanned CheckError} (h : Spanned.Alike R (CheckError.Alike R) d e) :
      Alike (.check d) (.check e)
  | emit {e : EmitError} : Alike (.emit e) (.emit e)

structure Checked.Alike (same : α → α → Prop) (c d : Checked α) : Prop where
  value : same c.value d.value
  symbols : c.symbols.Alike R d.symbols
  notes : List.Forall₂ (Spanned.Alike R Eq) c.notes d.notes

/-- How checks of alike things end. -/
abbrev CheckedAlike (same : α → α → Prop) :
    Except (Spanned CheckError) α → Except (Spanned CheckError) α → Prop :=
  Except.Rel (Spanned.Alike R (CheckError.Alike R)) same

end Relations

section Expressions
variable {α : Type} {R : Span → Span → Prop} {e f : Expr α}

theorem Expr.Alike.info (h : e.Alike R f) : e.info = f.info := by
  cases h <;> rfl

theorem Expr.Alike.span (h : e.Alike R f) : R e.span f.span := by
  cases h with
  | literal hs | name _ hs | binary _ _ hs => exact hs

theorem Expr.Alike.withSpan {s s' : Span} (h : e.Alike R f) (hs : R s s') :
    (e.withSpan s).Alike R (f.withSpan s') := by
  cases h with
  | literal _ => exact .literal hs
  | name hx _ => exact .name hx hs
  | binary hl hr _ => exact .binary hl hr hs

theorem Expr.Alike.isSmallLiteral (h : e.Alike R f) : e.isSmallLiteral = f.isSmallLiteral := by
  cases h with
  | @literal value => cases value <;> rfl
  | name | binary => rfl

theorem Expr.Alike.fits {e f : Expr Ty} (h : e.Alike R f) (ty : Ty) : e.fits ty = f.fits ty := by
  rw [Expr.fits, Expr.fits, h.info, h.isSmallLiteral]

theorem Stmt.Alike.span {s s' : Stmt α} (h : s.Alike R s') : R s.span s'.span := by
  cases h with
  | declare _ _ hs | print _ hs | ifThen _ _ hs | ifElse _ _ _ hs | block _ hs => exact hs

theorem Stmt.AllAlike.length_eq {body body' : List (Stmt α)} (h : AllAlike R body body') :
    body.length = body'.length := by
  induction body generalizing body' with
  | nil =>
    cases h
    rfl
  | cons s body ih =>
    cases h with
    | cons _ hbody => rw [List.length_cons, List.length_cons, ih hbody]

end Expressions

section Checking
variable {R : Span → Span → Prop} {t u : SymbolTable}

/-- A name is declared in both tables or in neither. -/
theorem SymbolTable.Alike.get? (h : t.Alike R u) (name : String) :
    Option.Rel (Symbol.Alike R) (t.get? name) (u.get? name) := by
  unfold SymbolTable.Alike at h
  unfold SymbolTable.get?
  generalize t.entries = ps at h ⊢
  generalize u.entries = qs at h ⊢
  induction h with
  | nil => exact .none
  | @cons p q ps qs hpq _ ih =>
    obtain ⟨hname, hsymbol⟩ := hpq
    rw [List.lookup_cons, List.lookup_cons, ← hname]
    cases name == p.1 with
    | true => exact .some hsymbol
    | false => exact ih

/-- Alike tables have the same names, with the same types. -/
theorem SymbolTable.Alike.types (h : t.Alike R u) :
    t.entries.map (fun e => (e.1, e.2.ty)) = u.entries.map fun e => (e.1, e.2.ty) := by
  rw [← List.forall₂_eq_eq_eq, List.forall₂_map_left_iff, List.forall₂_map_right_iff]
  exact List.Forall₂.imp (fun e f hef => Prod.ext hef.1 hef.2.ty) h

theorem SymbolTable.Alike.define (h : t.Alike R u) (name : String) {a b : Symbol}
    (hab : a.Alike R b) :
    Except.Rel R (SymbolTable.Alike R) (t.define name a) (u.define name b) := by
  have hget := h.get? name
  unfold SymbolTable.define
  generalize t.get? name = earlier at hget ⊢
  generalize u.get? name = earlier' at hget ⊢
  cases hget with
  | none => exact .ok (.cons ⟨rfl, hab⟩ h)
  | some hearlier => exact .error hearlier.span

theorem Expr.Alike.check {e f : Expr Unit} (h : e.Alike R f) (htu : t.Alike R u) :
    CheckedAlike R (Expr.Alike R) (e.check t) (f.check u) := by
  induction h with
  | literal hs => exact .ok (.literal hs)
  | @name x y s s' info hx hs =>
    have hget := htu.get? x.name
    unfold Expr.check
    rw [← hx.name]
    generalize t.get? x.name = a at hget ⊢
    generalize u.get? x.name = b at hget ⊢
    cases hget with
    | none => exact .error ⟨hx.span, .undeclaredName⟩
    | some hab =>
      dsimp only
      rw [hab.ty]
      exact .ok (.name hx hs)
  | binary _ _ hs ihl ihr =>
    unfold Expr.check
    refine ihl.bind fun l l' _ hl => ihr.bind fun r r' _ hr => ?_
    rw [hl.info, hr.info]
    split
    · exact .ok (.binary hl hr hs)
    · exact .error ⟨hs, .invalidOperands⟩

theorem Expr.Alike.checkCondition {e f : Expr Unit} (h : e.Alike R f) (htu : t.Alike R u) :
    CheckedAlike R (Expr.Alike R) (e.checkCondition t) (f.checkCondition u) := by
  unfold Expr.checkCondition
  refine (h.check htu).bind fun c d _ hcd => ?_
  rw [hcd.info]
  split
  · exact .ok hcd
  · exact .error ⟨hcd.span, .nonLogicCondition⟩

mutual

theorem Stmt.Alike.check {s s' : Stmt Unit} {t u : SymbolTable} (h : s.Alike R s')
    (htu : t.Alike R u) :
    CheckedAlike R (Checked.Alike R (Stmt.Alike R)) (s.check t) (s'.check u) := by
  cases h with
  | @declare ty x y e f s s' hx he hs =>
    have hsymbol : Symbol.Alike R ⟨ty, x.span⟩ ⟨ty, y.span⟩ := ⟨rfl, hx.span⟩
    unfold Stmt.check
    rw [← hx.name]
    refine ((htu.define x.name hsymbol).mapError ?_).bind fun v w _ hvw => ?_
    · exact fun _ _ hearlier => ⟨hx.span, .alreadyDeclared hearlier⟩
    refine (he.check htu).bind fun a b _ hab => ?_
    rw [hab.fits, hab.info]
    split
    · exact .ok ⟨.declare hx hab hs, hvw, .cons ⟨hs, rfl⟩ .nil⟩
    · exact .error ⟨hab.span, .unassignable⟩
  | print he hs =>
    unfold Stmt.check
    refine (he.check htu).bind fun a b _ hab => ?_
    rw [hab.info]
    split
    · exact .ok ⟨.print hab hs, htu, .cons ⟨hs, rfl⟩ .nil⟩
    · exact .error ⟨hab.span, .unprintable⟩
  | ifThen hc ha hs =>
    unfold Stmt.check
    refine (hc.checkCondition htu).bind fun c d _ hcd => (ha.check htu).bind fun a b _ hab => ?_
    exact .ok ⟨.ifThen hcd hab.value hs, hab.symbols,
      List.rel_append hab.notes (.cons ⟨hs, rfl⟩ .nil)⟩
  | ifElse hc ha hb hs =>
    unfold Stmt.check
    refine (hc.checkCondition htu).bind fun c d _ hcd => (ha.check htu).bind fun a a' _ haa => ?_
    refine (hb.check haa.symbols).bind fun b b' _ hbb => ?_
    exact .ok ⟨.ifElse hcd haa.value hbb.value hs, hbb.symbols,
      List.rel_append (List.rel_append haa.notes hbb.notes) (.cons ⟨hs, rfl⟩ .nil)⟩
  | block hbody hs =>
    unfold Stmt.check
    refine (hbody.check htu).bind fun a b _ hab => ?_
    exact .ok ⟨.block hab.value hs, hab.symbols, List.rel_append hab.notes (.cons ⟨hs, rfl⟩ .nil)⟩

theorem Stmt.AllAlike.check {body body' : List (Stmt Unit)} {t u : SymbolTable}
    (h : Stmt.AllAlike R body body') (htu : t.Alike R u) :
    CheckedAlike R (Checked.Alike R (Stmt.AllAlike R)) (Stmt.checkAll t body)
      (Stmt.checkAll u body') := by
  cases h with
  | nil => exact .ok ⟨.nil, htu, .nil⟩
  | cons hs hbody =>
    unfold Stmt.checkAll
    refine (hs.check htu).bind fun a b _ hab => (hbody.check hab.symbols).bind fun c d _ hcd => ?_
    exact .ok ⟨.cons hab.value hcd.value, hcd.symbols, List.rel_append hab.notes hcd.notes⟩

end

/-- Places go into notes, into the table of variables and into errors, and decide nothing. -/
theorem Program.Alike.check {p q : Program Unit} (h : p.Alike R q) :
    CheckedAlike R (Checked.Alike R (Program.Alike R)) p.check q.check := by
  have hempty : SymbolTable.empty.Alike R .empty := List.Forall₂.nil
  have hnotes : List.Forall₂ (Spanned.Alike R Eq) (p.imports.map Import.note)
      (q.imports.map Import.note) := by
    refine List.forall₂_map_left_iff.mpr (List.forall₂_map_right_iff.mpr (h.imports.imp ?_))
    exact fun i j hij => ⟨hij.span, congrArg Note.imported hij.header⟩
  unfold Program.check
  refine (h.body.check hempty).bind fun a b _ hab => ?_
  exact .ok ⟨⟨h.imports, hab.value⟩, hab.symbols, List.rel_append hnotes hab.notes⟩

end Checking

section Lowering
variable {R : Span → Span → Prop}

theorem Expr.Alike.isStringLiteral {e f : Expr Ty} (h : e.Alike R f) :
    e.isStringLiteral = f.isStringLiteral := by
  cases h with
  | @literal value => cases value <;> rfl
  | name | binary => rfl

theorem Expr.Alike.toCpp {e f : Expr Ty} (h : e.Alike R f) : e.toCpp = f.toCpp := by
  induction h with
  | literal => rfl
  | name hx _ => exact congrArg Cpp.Expr.name hx.name
  | binary hl hr _ ihl ihr =>
    simp only [Expr.toCpp, hl.info, hr.info, hl.isStringLiteral, hr.isStringLiteral, ihl, ihr]

theorem Expr.Alike.usesText {e f : Expr Ty} (h : e.Alike R f) : e.usesText = f.usesText := by
  induction h with
  | literal | name => rfl
  | binary _ _ _ ihl ihr => rw [Expr.usesText, Expr.usesText, ihl, ihr]

/-- Everything that is worked out from a statement for its code. -/
structure Stmt.SameCode (s s' : Stmt Ty) : Prop where
  toCpp : s.toCpp = s'.toCpp
  usesText : s.usesText = s'.usesText
  prints : s.prints = s'.prints

structure Stmt.SameCodes (body body' : List (Stmt Ty)) : Prop where
  toCpp : Stmt.allToCpp body = Stmt.allToCpp body'
  usesText : Stmt.anyUsesText body = Stmt.anyUsesText body'
  prints : Stmt.anyPrints body = Stmt.anyPrints body'

mutual

theorem Stmt.Alike.sameCode {s s' : Stmt Ty} (h : s.Alike R s') : s.SameCode s' := by
  cases h with
  | declare hx he _ =>
    refine ⟨?_, ?_, rfl⟩
    · rw [Stmt.toCpp, Stmt.toCpp, hx.name, he.toCpp]
    · rw [Stmt.usesText, Stmt.usesText, he.usesText]
  | print he _ =>
    refine ⟨?_, he.usesText, rfl⟩
    rw [Stmt.toCpp, Stmt.toCpp, he.info, he.toCpp]
  | ifThen hc ha _ =>
    have harm := ha.sameCode
    refine ⟨?_, ?_, harm.prints⟩
    · rw [Stmt.toCpp, Stmt.toCpp, hc.toCpp, harm.toCpp]
    · rw [Stmt.usesText, Stmt.usesText, hc.usesText, harm.usesText]
  | ifElse hc ha hb _ =>
    have hthen := ha.sameCode
    have helse := hb.sameCode
    refine ⟨?_, ?_, ?_⟩
    · rw [Stmt.toCpp, Stmt.toCpp, hc.toCpp, hthen.toCpp, helse.toCpp]
    · rw [Stmt.usesText, Stmt.usesText, hc.usesText, hthen.usesText, helse.usesText]
    · rw [Stmt.prints, Stmt.prints, hthen.prints, helse.prints]
  | block hbody _ =>
    have hcodes := hbody.sameCodes
    refine ⟨?_, hcodes.usesText, hcodes.prints⟩
    rw [Stmt.toCpp, Stmt.toCpp, hcodes.toCpp]

theorem Stmt.AllAlike.sameCodes {body body' : List (Stmt Ty)} (h : Stmt.AllAlike R body body') :
    Stmt.SameCodes body body' := by
  cases h with
  | nil => exact ⟨rfl, rfl, rfl⟩
  | cons hs hbody =>
    have hfirst := hs.sameCode
    have hrest := hbody.sameCodes
    refine ⟨?_, ?_, ?_⟩
    · rw [Stmt.allToCpp, Stmt.allToCpp, hfirst.toCpp, hrest.toCpp]
    · rw [Stmt.anyUsesText, Stmt.anyUsesText, hfirst.usesText, hrest.usesText]
    · rw [Stmt.anyPrints, Stmt.anyPrints, hfirst.prints, hrest.prints]

end

theorem Program.Alike.toCpp {p q : Program Ty} (h : p.Alike R q) : p.toCpp = q.toCpp := by
  have hnamed : p.imports.map Import.header = q.imports.map Import.header := by
    rw [← List.forall₂_eq_eq_eq]
    refine List.forall₂_map_left_iff.mpr (List.forall₂_map_right_iff.mpr (h.imports.imp ?_))
    exact fun _ _ hij => hij.header
  have hbody := h.body.sameCodes
  unfold Program.toCpp Cpp.Headers.ofProgram
  rw [hnamed, hbody.toCpp, hbody.usesText, hbody.prints]

end Lowering

end HumanScript
