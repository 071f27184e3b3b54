import HumanScript.Program.Check
import HumanScript.Proofs.Except
import HumanScript.Proofs.Trees

/-! One scope for a whole program. Checking goes through a tree of statements as if there was no
tree: only the declarations, prints and conditions in it matter, in the order they are written. -/
namespace HumanScript

/-- What is checked in one piece. -/
inductive Item where
  | declare (ty : Ty) (name : Ident) (init : Expr Unit) (span : Span)
  | print (value : Expr Unit) (span : Span)
  | condition (value : Expr Unit)

/-- The variables known after one more item. -/
def Item.check (symbols : SymbolTable) : Item → Except (Spanned CheckError) SymbolTable
  | declare ty name init span => ((Stmt.declare ty name init span).check symbols).map (·.symbols)
  | print value span => ((Stmt.print value span).check symbols).map (·.symbols)
  | condition value => (value.checkCondition symbols).map fun _ => symbols

/-- Checks items from left to right, with one table of variables. -/
def Item.checkAll (symbols : SymbolTable) (items : List Item) :
    Except (Spanned CheckError) SymbolTable := items.foldlM Item.check symbols

mutual

/-- A statement without its nesting: a block is what is in it, a conditional is its condition, then
its first arm, then its second. -/
def Stmt.flat : Stmt Unit → List Item
  | .declare ty name init span => [.declare ty name init span]
  | .print value span => [.print value span]
  | .ifThen condition thenArm _ => .condition condition :: thenArm.flat
  | .ifElse condition thenArm elseArm _ => .condition condition :: (thenArm.flat ++ elseArm.flat)
  | .block body _ => Stmt.flatAll body

def Stmt.flatAll : List (Stmt Unit) → List Item
  | [] => []
  | s :: body => s.flat ++ Stmt.flatAll body

end

def Program.flat (p : Program Unit) : List Item := Stmt.flatAll p.body

namespace Item
variable {symbols : SymbolTable} {items more : List Item} {item : Item}

theorem checkAll_cons : checkAll symbols (item :: items) =
    item.check symbols >>= fun after => checkAll after items := List.foldlM_cons

theorem checkAll_append : checkAll symbols (items ++ more) =
    checkAll symbols items >>= fun after => checkAll after more := List.foldlM_append

/-- A row of items fails as its first failing item does. -/
theorem checkAll_eq_error_iff {e : Spanned CheckError} :
    checkAll symbols items = .error e ↔ ∃ before item after known, items = before ++ item :: after ∧
      checkAll symbols before = .ok known ∧ item.check known = .error e := by
  constructor
  · intro h
    induction items generalizing symbols with
    | nil => cases h
    | cons item items ih =>
      rw [checkAll_cons] at h
      rcases Except.bind_eq_error_iff.mp h with hitem | ⟨next, hitem, hrest⟩
      · exact ⟨[], item, items, symbols, rfl, rfl, hitem⟩
      · obtain ⟨before, failing, after, known, rfl, hbefore, hfailing⟩ := ih hrest
        refine ⟨item :: before, failing, after, known, rfl, ?_, hfailing⟩
        rw [checkAll_cons, hitem]
        exact hbefore
  · rintro ⟨before, item, after, known, rfl, hbefore, hitem⟩
    rw [checkAll_append, hbefore, Except.ok_bind, checkAll_cons, hitem]
    rfl

end Item

namespace Stmt

/-- Statement after statement is item after item. -/
theorem symbols_checkAll {body : List (Stmt Unit)}
    (hstmt : ∀ s ∈ body, ∀ symbols : SymbolTable,
      (s.check symbols).map (·.symbols) = Item.checkAll symbols s.flat) (symbols : SymbolTable) :
    (checkAll symbols body).map (·.symbols) = Item.checkAll symbols (flatAll body) := by
  induction body generalizing symbols with
  | nil => rfl
  | cons s body ih =>
    have hbody := ih fun t ht => hstmt t (by simp [ht])
    rw [flatAll, Item.checkAll_append, ← hstmt s (by simp), checkAll, Except.map_bind,
      Except.bind_map]
    refine bind_congr fun _ => ?_
    rw [Except.map_bind_pure, hbody]

theorem symbols_check (s : Stmt Unit) (symbols : SymbolTable) :
    (s.check symbols).map (·.symbols) = Item.checkAll symbols s.flat := by
  induction s generalizing symbols with
  | declare ty name init span => exact (bind_pure _).symm
  | print value span => exact (bind_pure _).symm
  | ifThen condition thenArm span ih =>
    rw [flat, Item.checkAll_cons, Item.check, check, Except.map_bind, Except.bind_map]
    refine bind_congr fun _ => ?_
    rw [Except.map_bind_pure, ih]
  | ifElse condition thenArm elseArm span iha ihb =>
    rw [flat, Item.checkAll_cons, Item.check, check, Except.map_bind, Except.bind_map]
    refine bind_congr fun _ => ?_
    rw [Item.checkAll_append, ← iha, Except.map_bind, Except.bind_map]
    refine bind_congr fun _ => ?_
    rw [Except.map_bind_pure, ihb]
  | block body span ih =>
    rw [flat, check, Except.map_bind_pure]
    exact symbols_checkAll ih symbols

end Stmt

theorem Program.symbols_check (p : Program Unit) :
    p.check.map (·.symbols) = Item.checkAll .empty p.flat := by
  rw [check, Except.map_bind_pure]
  exact Stmt.symbols_checkAll (fun s _ => s.symbols_check) .empty

/-- Nesting does not matter to checking. A program is accepted exactly if its items are, one after
the other, and then leaves the variables that they leave. A program is rejected exactly as the
first item that fails after the ones before it: neither nesting nor what comes later matters. -/
theorem Program.check_eq_flat (p : Program Unit) :
    (∀ symbols, (∃ c, p.check = .ok c ∧ c.symbols = symbols) ↔
      Item.checkAll .empty p.flat = .ok symbols) ∧
    ∀ e, p.check = .error e ↔ ∃ before item after known, p.flat = before ++ item :: after ∧
      Item.checkAll .empty before = .ok known ∧ item.check known = .error e := by
  refine ⟨?_, ?_⟩
  · intro symbols
    rw [← p.symbols_check, Except.map_eq_ok_iff]
  · intro e
    rw [← Item.checkAll_eq_error_iff, ← p.symbols_check, Except.map_eq_error_iff]

end HumanScript
