import HumanScript.Program.Basic
import Mathlib.Tactic.Common

/-! Trees: their parts at any depth, and trees compared up to the places or the types in them. -/
namespace HumanScript
variable {α β : Type}

/-- Induction on statements, with the hypothesis at hand for every statement of a block. -/
@[induction_eliminator]
theorem Stmt.induction {motive : Stmt α → Prop}
    (declare : ∀ ty name init span, motive (.declare ty name init span))
    (print : ∀ value span, motive (.print value span))
    (ifThen : ∀ condition thenArm span, motive thenArm → motive (.ifThen condition thenArm span))
    (ifElse : ∀ condition thenArm elseArm span, motive thenArm → motive elseArm →
      motive (.ifElse condition thenArm elseArm span))
    (block : ∀ body span, (∀ s ∈ body, motive s) → motive (.block body span))
    (s : Stmt α) : motive s :=
  @Stmt.rec α motive (fun body => ∀ s ∈ body, motive s) declare print ifThen ifElse block
    (fun _ h => absurd h List.not_mem_nil)
    (fun _ _ hs hbody => List.forall_mem_cons.mpr ⟨hs, hbody⟩) s

/-- An expression and all its operands, down to names and literals. -/
def Expr.parts : Expr α → List (Expr α)
  | literal value span info => [literal value span info]
  | name ident span info => [name ident span info]
  | binary op lhs rhs span info => binary op lhs rhs span info :: (lhs.parts ++ rhs.parts)

mutual

/-- All expressions in a statement, at any depth. -/
def Stmt.exprs : Stmt α → List (Expr α)
  | .declare _ _ init _ => init.parts
  | .print value _ => value.parts
  | .ifThen condition thenArm _ => condition.parts ++ thenArm.exprs
  | .ifElse condition thenArm elseArm _ => condition.parts ++ thenArm.exprs ++ elseArm.exprs
  | .block body _ => Stmt.exprsAll body

def Stmt.exprsAll : List (Stmt α) → List (Expr α)
  | [] => []
  | s :: body => s.exprs ++ Stmt.exprsAll body

end

mutual

/-- A statement and the statements in it, at any depth. -/
def Stmt.parts : Stmt α → List (Stmt α)
  | .declare ty name init span => [.declare ty name init span]
  | .print value span => [.print value span]
  | .ifThen condition thenArm span => .ifThen condition thenArm span :: thenArm.parts
  | .ifElse condition thenArm elseArm span =>
    .ifElse condition thenArm elseArm span :: (thenArm.parts ++ elseArm.parts)
  | .block body span => .block body span :: Stmt.partsAll body

def Stmt.partsAll : List (Stmt α) → List (Stmt α)
  | [] => []
  | s :: body => s.parts ++ Stmt.partsAll body

end

theorem Stmt.exprsAll_eq (body : List (Stmt α)) : exprsAll body = body.flatMap exprs := by
  induction body with
  | nil => rfl
  | cons s body ih => rw [exprsAll, ih, List.flatMap_cons]

theorem Stmt.partsAll_eq (body : List (Stmt α)) : partsAll body = body.flatMap parts := by
  induction body with
  | nil => rfl
  | cons s body ih => rw [partsAll, ih, List.flatMap_cons]

def Ident.map (place : Span → Span) (i : Ident) : Ident := ⟨i.name, place i.span⟩

def Import.map (place : Span → Span) (i : Import) : Import := ⟨i.header, place i.span⟩

/-- The same expression with other places and other information. -/
def Expr.map (place : Span → Span) (inform : α → β) : Expr α → Expr β
  | literal value span info => literal value (place span) (inform info)
  | name ident span info => name (ident.map place) (place span) (inform info)
  | binary op lhs rhs span info =>
    binary op (lhs.map place inform) (rhs.map place inform) (place span) (inform info)

mutual

def Stmt.map (place : Span → Span) (inform : α → β) : Stmt α → Stmt β
  | .declare ty name init span =>
    .declare ty (name.map place) (init.map place inform) (place span)
  | .print value span => .print (value.map place inform) (place span)
  | .ifThen condition thenArm span =>
    .ifThen (condition.map place inform) (thenArm.map place inform) (place span)
  | .ifElse condition thenArm elseArm span =>
    .ifElse (condition.map place inform) (thenArm.map place inform) (elseArm.map place inform)
      (place span)
  | .block body span => .block (Stmt.mapAll place inform body) (place span)

def Stmt.mapAll (place : Span → Span) (inform : α → β) : List (Stmt α) → List (Stmt β)
  | [] => []
  | s :: body => s.map place inform :: Stmt.mapAll place inform body

end

@[simp] theorem Stmt.mapAll_eq (place : Span → Span) (inform : α → β) (body : List (Stmt α)) :
    Stmt.mapAll place inform body = body.map (Stmt.map place inform) := by
  induction body with
  | nil => rfl
  | cons s body ih => rw [mapAll, ih, List.map_cons]

def Program.map (place : Span → Span) (inform : α → β) (p : Program α) : Program β :=
  ⟨p.imports.map (Import.map place), p.body.map (Stmt.map place inform)⟩

/-- The expression alone, without its places in the text. -/
def Expr.unplaced (e : Expr α) : Expr α := e.map (fun _ => .empty) id

def Stmt.unplaced (s : Stmt α) : Stmt α := s.map (fun _ => .empty) id

def Import.unplaced (i : Import) : Import := i.map fun _ => .empty

def Program.unplaced (p : Program α) : Program α := p.map (fun _ => .empty) id

/-- The expression as it was read, without the types in it. -/
def Expr.untyped (e : Expr α) : Expr Unit := e.map id fun _ => ()

def Stmt.untyped (s : Stmt α) : Stmt Unit := s.map id fun _ => ()

def Program.untyped (p : Program α) : Program Unit := p.map id fun _ => ()

@[simp] theorem Expr.unplaced_withSpan (e : Expr α) (span : Span) :
    (e.withSpan span).unplaced = e.unplaced := by
  cases e <;> rfl

@[simp] theorem Stmt.unplaced_block (body : List (Stmt α)) (span : Span) :
    (block body span).unplaced = .block (body.map unplaced) .empty := by
  rw [unplaced, map, mapAll_eq]
  rfl

@[simp] theorem Stmt.untyped_block (body : List (Stmt α)) (span : Span) :
    (block body span).untyped = .block (body.map untyped) span := by
  rw [untyped, map, mapAll_eq]
  rfl

theorem Expr.untyped_self (e : Expr Unit) : e.untyped = e := by
  induction e with
  | literal | name => rfl
  | binary op lhs rhs span info ihl ihr =>
    change binary op lhs.untyped rhs.untyped span () = _
    rw [ihl, ihr]

theorem Stmt.untyped_self (s : Stmt Unit) : s.untyped = s := by
  induction s with
  | declare ty name init span =>
    change declare ty name init.untyped span = _
    rw [init.untyped_self]
  | print value span =>
    change print value.untyped span = _
    rw [value.untyped_self]
  | ifThen condition thenArm span ih =>
    change ifThen condition.untyped thenArm.untyped span = _
    rw [condition.untyped_self, ih]
  | ifElse condition thenArm elseArm span iha ihb =>
    change ifElse condition.untyped thenArm.untyped elseArm.untyped span = _
    rw [condition.untyped_self, iha, ihb]
  | block body span ih => rw [untyped_block, List.map_congr_left ih, List.map_id']

end HumanScript
