import HumanScript.Proofs.Trees

/-! The grammar of programs, in two forms: the rows of token kinds that it derives, and the trees
that rows of tokens spell. A row with an `else` may spell several trees; `Stmt.ElseNearest` singles
out the one in which every `else` belongs to the nearest `if` that has none yet. -/
namespace HumanScript

def Literal.kind : Literal → Token.Kind
  | int _ => .int
  | float _ => .float
  | string _ => .string
  | bool true => .trueKw
  | bool false => .falseKw

namespace Grammar
open Token (Kind)

def literalKinds : List Kind := [.int, .float, .string, .trueKw, .falseKw]

def typeKinds : List Kind := [.numberKw, .lnumberKw, .textKw, .logicKw, .rielKw]

def pathKinds : List Kind := [.identifier, .int, .dot, .slash]

inductive Layer where
  | comparison
  | sum
  | factor

/-- `comparison := sum ('?=' sum)*`, `sum := factor ('+' factor)*`, and a factor is a literal, a name
or `'(' comparison ')'`. -/
inductive IsExpr : Layer → List Kind → Prop where
  | comparison {first : List Kind} {more : List (List Kind)} (hfirst : IsExpr .sum first)
      (hmore : ∀ s ∈ more, IsExpr .sum s) :
      IsExpr .comparison (first ++ more.flatMap (.questionEq :: ·))
  | sum {first : List Kind} {more : List (List Kind)} (hfirst : IsExpr .factor first)
      (hmore : ∀ f ∈ more, IsExpr .factor f) : IsExpr .sum (first ++ more.flatMap (.plus :: ·))
  | literal {k : Kind} (hk : k ∈ literalKinds) : IsExpr .factor [k]
  | name : IsExpr .factor [.identifier]
  | group {e : List Kind} (he : IsExpr .comparison e) :
      IsExpr .factor (.lparen :: (e ++ [.rparen]))

inductive IsStmt : List Kind → Prop where
  | declare {ty : Kind} {e : List Kind} (hty : ty ∈ typeKinds) (he : IsExpr .comparison e) :
      IsStmt (ty :: .identifier :: .colonEq :: (e ++ [.semicolon]))
  | print {e : List Kind} (he : IsExpr .comparison e) : IsStmt (.sayKw :: (e ++ [.semicolon]))
  | ifThen {c a : List Kind} (hc : IsExpr .comparison c) (ha : IsStmt a) :
      IsStmt (.ifKw :: .lparen :: (c ++ .rparen :: a))
  | ifElse {c a b : List Kind} (hc : IsExpr .comparison c) (ha : IsStmt a) (hb : IsStmt b) :
      IsStmt (.ifKw :: .lparen :: (c ++ .rparen :: (a ++ .elseKw :: b)))
  | block {body : List (List Kind)} (hbody : ∀ s ∈ body, IsStmt s) :
      IsStmt (.lbrace :: (body.flatten ++ [.rbrace]))

inductive IsImport : List Kind → Prop where
  | use {path : List Kind} (hne : path ≠ []) (hpath : ∀ k ∈ path, k ∈ pathKinds) :
      IsImport (.useKw :: .less :: (path ++ [.greater, .semicolon]))

inductive IsProgram : List Kind → Prop where
  | mk {imports body : List (List Kind)} (himports : ∀ i ∈ imports, IsImport i)
      (hbody : ∀ s ∈ body, IsStmt s) : IsProgram (imports.flatten ++ body.flatten)

/-- The expression that tokens spell, without places. Both operators group to the left. -/
inductive SpellsExpr : Layer → List Token → Expr Unit → Prop where
  | ofSum {ts : List Token} {e : Expr Unit} (h : SpellsExpr .sum ts e) :
      SpellsExpr .comparison ts e
  | compare {ls rs : List Token} {t : Token} {l r : Expr Unit}
      (hl : SpellsExpr .comparison ls l) (ht : t.kind = .questionEq) (hr : SpellsExpr .sum rs r) :
      SpellsExpr .comparison (ls ++ t :: rs) (.binary .eq l r .empty ())
  | ofFactor {ts : List Token} {e : Expr Unit} (h : SpellsExpr .factor ts e) :
      SpellsExpr .sum ts e
  | add {ls rs : List Token} {t : Token} {l r : Expr Unit}
      (hl : SpellsExpr .sum ls l) (ht : t.kind = .plus) (hr : SpellsExpr .factor rs r) :
      SpellsExpr .sum (ls ++ t :: rs) (.binary .add l r .empty ())
  | literal {t : Token} {v : Literal} (hk : t.kind = v.kind) (hv : t.value = some v) :
      SpellsExpr .factor [t] (.literal v .empty ())
  | name {t : Token} (ht : t.kind = .identifier) :
      SpellsExpr .factor [t] (.name ⟨t.text, .empty⟩ .empty ())
  | group {t u : Token} {ts : List Token} {e : Expr Unit} (ht : t.kind = .lparen)
      (h : SpellsExpr .comparison ts e) (hu : u.kind = .rparen) :
      SpellsExpr .factor (t :: (ts ++ [u])) e

/-- The statements that tokens spell. An `else` may belong to any `if` that is still open. -/
inductive SpellsStmt : List Token → Stmt Unit → Prop where
  | declare {t n a u : Token} {ts : List Token} {ty : Ty} {init : Expr Unit}
      (ht : t.kind.ty? = some ty) (hn : n.kind = .identifier) (ha : a.kind = .colonEq)
      (hinit : SpellsExpr .comparison ts init) (hu : u.kind = .semicolon) :
      SpellsStmt (t :: n :: a :: (ts ++ [u])) (.declare ty ⟨n.text, .empty⟩ init .empty)
  | print {t u : Token} {ts : List Token} {value : Expr Unit} (ht : t.kind = .sayKw)
      (hvalue : SpellsExpr .comparison ts value) (hu : u.kind = .semicolon) :
      SpellsStmt (t :: (ts ++ [u])) (.print value .empty)
  | ifThen {t o c : Token} {ts as : List Token} {condition : Expr Unit} {thenArm : Stmt Unit}
      (ht : t.kind = .ifKw) (ho : o.kind = .lparen) (hcond : SpellsExpr .comparison ts condition)
      (hc : c.kind = .rparen) (hthen : SpellsStmt as thenArm) :
      SpellsStmt (t :: o :: (ts ++ c :: as)) (.ifThen condition thenArm .empty)
  | ifElse {t o c e : Token} {ts as bs : List Token} {condition : Expr Unit}
      {thenArm elseArm : Stmt Unit} (ht : t.kind = .ifKw) (ho : o.kind = .lparen)
      (hcond : SpellsExpr .comparison ts condition) (hc : c.kind = .rparen)
      (hthen : SpellsStmt as thenArm) (he : e.kind = .elseKw) (helse : SpellsStmt bs elseArm) :
      SpellsStmt (t :: o :: (ts ++ c :: (as ++ e :: bs))) (.ifElse condition thenArm elseArm .empty)
  | block {t u : Token} {parts : List (List Token × Stmt Unit)} (ht : t.kind = .lbrace)
      (hparts : ∀ p ∈ parts, SpellsStmt p.1 p.2) (hu : u.kind = .rbrace) :
      SpellsStmt (t :: ((parts.map Prod.fst).flatten ++ [u])) (.block (parts.map Prod.snd) .empty)

inductive SpellsImport : List Token → Import → Prop where
  | use {t o c u : Token} {path : List Token} (ht : t.kind = .useKw) (ho : o.kind = .less)
      (hne : path ≠ []) (hpath : ∀ p ∈ path, p.kind ∈ pathKinds) (hc : c.kind = .greater)
      (hu : u.kind = .semicolon) :
      SpellsImport (t :: o :: (path ++ [c, u])) ⟨String.join (path.map Token.text), .empty⟩

inductive SpellsProgram : List Token → Program Unit → Prop where
  | mk {imports : List (List Token × Import)} {body : List (List Token × Stmt Unit)}
      (himports : ∀ p ∈ imports, SpellsImport p.1 p.2) (hbody : ∀ p ∈ body, SpellsStmt p.1 p.2) :
      SpellsProgram ((imports.map Prod.fst).flatten ++ (body.map Prod.fst).flatten)
        ⟨imports.map Prod.snd, body.map Prod.snd⟩

end Grammar

namespace Stmt
variable {α : Type}

/-- Whether an `else` after the statement could belong to an `if` at its end. -/
def endsOpen : Stmt α → Bool
  | declare .. | print .. | block .. => false
  | ifThen .. => true
  | ifElse _ _ elseArm _ => elseArm.endsOpen

/-- Every `else` belongs to the nearest `if` before it that has none yet: no first arm ends in an
`if` that the `else` passes over. -/
inductive ElseNearest : Stmt α → Prop where
  | declare {ty : Ty} {name : Ident} {init : Expr α} {span : Span} :
      ElseNearest (.declare ty name init span)
  | print {value : Expr α} {span : Span} : ElseNearest (.print value span)
  | ifThen {condition : Expr α} {thenArm : Stmt α} {span : Span} (h : ElseNearest thenArm) :
      ElseNearest (.ifThen condition thenArm span)
  | ifElse {condition : Expr α} {thenArm elseArm : Stmt α} {span : Span}
      (hopen : thenArm.endsOpen = false) (hthen : ElseNearest thenArm)
      (helse : ElseNearest elseArm) : ElseNearest (.ifElse condition thenArm elseArm span)
  | block {body : List (Stmt α)} {span : Span} (h : ∀ s ∈ body, ElseNearest s) :
      ElseNearest (.block body span)

end Stmt

def Program.ElseNearest {α : Type} (p : Program α) : Prop := ∀ s ∈ p.body, s.ElseNearest

end HumanScript
