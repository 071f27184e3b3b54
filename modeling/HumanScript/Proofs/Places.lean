import HumanScript.Proofs.Grammar
import HumanScript.Proofs.Tokenization

/-! The trees that tokens spell, with the places in them: what a tree is up to its places fixes the
places too, a tree covers its tokens from the first to the last, every part of a tree is spelled by
tokens of its own, and places can be moved together with the tokens. -/
namespace HumanScript

theorem Expr.parts_eq {α : Type} (e : Expr α) : e.parts = e :: e.parts.tail := by
  cases e <;> rfl

theorem Expr.tail_parts_withSpan {α : Type} (e : Expr α) (span : Span) :
    (e.withSpan span).parts.tail = e.parts.tail := by
  cases e <;> rfl

@[simp] theorem Expr.span_withSpan {α : Type} (e : Expr α) (span : Span) :
    (e.withSpan span).span = span := by
  cases e <;> rfl

theorem Expr.span_map {α β : Type} (place : Span → Span) (inform : α → β) (e : Expr α) :
    (e.map place inform).span = place e.span := by
  cases e <;> rfl

theorem Expr.map_withSpan {α β : Type} (place : Span → Span) (inform : α → β) (e : Expr α)
    (span : Span) : (e.withSpan span).map place inform =
      (e.map place inform).withSpan (place span) := by
  cases e <;> rfl

theorem Stmt.span_map {α β : Type} (place : Span → Span) (inform : α → β) (s : Stmt α) :
    (s.map place inform).span = place s.span := by
  cases s <;> rfl

/-- The same token at another place. -/
def Token.move (place : Span → Span) (t : Token) : Token := { t with span := place t.span }

namespace Grammar

/-- The expression that tokens spell, placed where they stand. Parentheses widen what is in them. -/
inductive PlacedExpr : Layer → List Token → Expr Unit → Prop where
  | ofSum {ts : List Token} {e : Expr Unit} (h : PlacedExpr .sum ts e) :
      PlacedExpr .comparison ts e
  | compare {ls rs : List Token} {t : Token} {l r : Expr Unit}
      (hl : PlacedExpr .comparison ls l) (ht : t.kind = .questionEq) (hr : PlacedExpr .sum rs r) :
      PlacedExpr .comparison (ls ++ t :: rs) (.binary .eq l r (l.span.join r.span) ())
  | ofFactor {ts : List Token} {e : Expr Unit} (h : PlacedExpr .factor ts e) :
      PlacedExpr .sum ts e
  | add {ls rs : List Token} {t : Token} {l r : Expr Unit}
      (hl : PlacedExpr .sum ls l) (ht : t.kind = .plus) (hr : PlacedExpr .factor rs r) :
      PlacedExpr .sum (ls ++ t :: rs) (.binary .add l r (l.span.join r.span) ())
  | literal {t : Token} {v : Literal} (hk : t.kind = v.kind) (hv : t.value = some v) :
      PlacedExpr .factor [t] (.literal v t.span ())
  | name {t : Token} (ht : t.kind = .identifier) :
      PlacedExpr .factor [t] (.name ⟨t.text, t.span⟩ t.span ())
  | group {t u : Token} {ts : List Token} {e : Expr Unit} (ht : t.kind = .lparen)
      (h : PlacedExpr .comparison ts e) (hu : u.kind = .rparen) :
      PlacedExpr .factor (t :: (ts ++ [u])) (e.withSpan (t.span.join u.span))

inductive PlacedStmt : List Token → Stmt Unit → Prop where
  | declare {t n a u : Token} {ts : List Token} {ty : Ty} {init : Expr Unit}
      (ht : t.kind.ty? = some ty) (hn : n.kind = .identifier) (ha : a.kind = .colonEq)
      (hinit : PlacedExpr .comparison ts init) (hu : u.kind = .semicolon) :
      PlacedStmt (t :: n :: a :: (ts ++ [u]))
        (.declare ty ⟨n.text, n.span⟩ init (t.span.join u.span))
  | print {t u : Token} {ts : List Token} {value : Expr Unit} (ht : t.kind = .sayKw)
      (hvalue : PlacedExpr .comparison ts value) (hu : u.kind = .semicolon) :
      PlacedStmt (t :: (ts ++ [u])) (.print value (t.span.join u.span))
  | ifThen {t o c : Token} {ts as : List Token} {condition : Expr Unit} {thenArm : Stmt Unit}
      (ht : t.kind = .ifKw) (ho : o.kind = .lparen) (hcond : PlacedExpr .comparison ts condition)
      (hc : c.kind = .rparen) (hthen : PlacedStmt as thenArm) :
      PlacedStmt (t :: o :: (ts ++ c :: as))
        (.ifThen condition thenArm (t.span.join thenArm.span))
  | ifElse {t o c e : Token} {ts as bs : List Token} {condition : Expr Unit}
      {thenArm elseArm : Stmt Unit} (ht : t.kind = .ifKw) (ho : o.kind = .lparen)
      (hcond : PlacedExpr .comparison ts condition) (hc : c.kind = .rparen)
      (hthen : PlacedStmt as thenArm) (he : e.kind = .elseKw) (helse : PlacedStmt bs elseArm) :
      PlacedStmt (t :: o :: (ts ++ c :: (as ++ e :: bs)))
        (.ifElse condition thenArm elseArm (t.span.join elseArm.span))
  | block {t u : Token} {parts : List (List Token × Stmt Unit)} (ht : t.kind = .lbrace)
      (hparts : ∀ p ∈ parts, PlacedStmt p.1 p.2) (hu : u.kind = .rbrace) :
      PlacedStmt (t :: ((parts.map Prod.fst).flatten ++ [u]))
        (.block (parts.map Prod.snd) (t.span.join u.span))

inductive PlacedImport : List Token → Import → Prop where
  | use {t o c u : Token} {path : List Token} (ht : t.kind = .useKw) (ho : o.kind = .less)
      (hne : path ≠ []) (hpath : ∀ p ∈ path, p.kind ∈ pathKinds) (hc : c.kind = .greater)
      (hu : u.kind = .semicolon) :
      PlacedImport (t :: o :: (path ++ [c, u]))
        ⟨String.join (path.map Token.text), t.span.join u.span⟩

inductive PlacedProgram : List Token → Program Unit → Prop where
  | mk {imports : List (List Token × Import)} {body : List (List Token × Stmt Unit)}
      (himports : ∀ p ∈ imports, PlacedImport p.1 p.2) (hbody : ∀ p ∈ body, PlacedStmt p.1 p.2) :
      PlacedProgram ((imports.map Prod.fst).flatten ++ (body.map Prod.fst).flatten)
        ⟨imports.map Prod.snd, body.map Prod.snd⟩

theorem PlacedStmt.program {ts : List Token} {s : Stmt Unit} (h : PlacedStmt ts s) :
    PlacedProgram ts ⟨[], [s]⟩ := by
  have hprogram := @PlacedProgram.mk [] [(ts, s)] (by simp) (List.forall_mem_singleton.mpr h)
  simpa using hprogram

theorem PlacedImport.program {ts : List Token} {i : Import} (h : PlacedImport ts i) :
    PlacedProgram ts ⟨[i], []⟩ := by
  have hprogram := @PlacedProgram.mk [(ts, i)] [] (List.forall_mem_singleton.mpr h) (by simp)
  simpa using hprogram

/-! Tokens that spell a tree up to its places spell it at some places. -/

theorem SpellsExpr.exists_placed {layer : Layer} {ts : List Token} {d : Expr Unit}
    (h : SpellsExpr layer ts d) : ∃ e, PlacedExpr layer ts e ∧ e.unplaced = d := by
  induction h with
  | ofSum _ ih =>
    obtain ⟨e, he, hd⟩ := ih
    exact ⟨e, .ofSum he, hd⟩
  | compare _ ht _ ihl ihr =>
    obtain ⟨l, hl, rfl⟩ := ihl
    obtain ⟨r, hr, rfl⟩ := ihr
    exact ⟨_, .compare hl ht hr, rfl⟩
  | ofFactor _ ih =>
    obtain ⟨e, he, hd⟩ := ih
    exact ⟨e, .ofFactor he, hd⟩
  | add _ ht _ ihl ihr =>
    obtain ⟨l, hl, rfl⟩ := ihl
    obtain ⟨r, hr, rfl⟩ := ihr
    exact ⟨_, .add hl ht hr, rfl⟩
  | literal hk hv => exact ⟨_, .literal hk hv, rfl⟩
  | name ht => exact ⟨_, .name ht, rfl⟩
  | group ht _ hu ih =>
    obtain ⟨e, he, rfl⟩ := ih
    exact ⟨_, .group ht he hu, Expr.unplaced_withSpan _ _⟩

/-- Parts that can be placed one by one can be placed all at once. -/
theorem exists_placed_parts {β : Type} {R : List Token → β → Prop} {unplaced : β → β}
    {parts : List (List Token × β)} (h : ∀ p ∈ parts, ∃ x, R p.1 x ∧ unplaced x = p.2) :
    ∃ placed : List (List Token × β), (∀ p ∈ placed, R p.1 p.2) ∧
      placed.map Prod.fst = parts.map Prod.fst ∧
      (placed.map Prod.snd).map unplaced = parts.map Prod.snd := by
  induction parts with
  | nil => exact ⟨[], by simp, rfl, rfl⟩
  | cons p parts ih =>
    obtain ⟨placed, hplaced, hfst, hsnd⟩ := ih fun q hq => h q (by simp [hq])
    obtain ⟨x, hx, hp⟩ := h p (by simp)
    exact ⟨(p.1, x) :: placed, List.forall_mem_cons.mpr ⟨hx, hplaced⟩, by simp [hfst],
      by simp [hp, hsnd]⟩

theorem SpellsStmt.exists_placed {ts : List Token} {d : Stmt Unit} (h : SpellsStmt ts d) :
    ∃ s, PlacedStmt ts s ∧ s.unplaced = d := by
  induction h with
  | declare ht hn ha hinit hu =>
    obtain ⟨_, hplaced, rfl⟩ := hinit.exists_placed
    exact ⟨_, .declare ht hn ha hplaced hu, rfl⟩
  | print ht hvalue hu =>
    obtain ⟨_, hplaced, rfl⟩ := hvalue.exists_placed
    exact ⟨_, .print ht hplaced hu, rfl⟩
  | ifThen ht ho hcond hc _ ih =>
    obtain ⟨_, hplaced, rfl⟩ := hcond.exists_placed
    obtain ⟨_, hthen, rfl⟩ := ih
    exact ⟨_, .ifThen ht ho hplaced hc hthen, rfl⟩
  | ifElse ht ho hcond hc _ he _ iha ihb =>
    obtain ⟨_, hplaced, rfl⟩ := hcond.exists_placed
    obtain ⟨_, hthen, rfl⟩ := iha
    obtain ⟨_, helse, rfl⟩ := ihb
    exact ⟨_, .ifElse ht ho hplaced hc hthen he helse, rfl⟩
  | block ht _ hu ih =>
    obtain ⟨placed, hplaced, hfst, hsnd⟩ := exists_placed_parts ih
    have hblock := PlacedStmt.block ht hplaced hu
    rw [hfst] at hblock
    exact ⟨_, hblock, by rw [Stmt.unplaced_block, hsnd]⟩

theorem SpellsImport.exists_placed {ts : List Token} {d : Import} (h : SpellsImport ts d) :
    ∃ i, PlacedImport ts i ∧ i.unplaced = d := by
  cases h with
  | use ht ho hne hpath hc hu => exact ⟨_, .use ht ho hne hpath hc hu, rfl⟩

theorem SpellsProgram.exists_placed {ts : List Token} {d : Program Unit}
    (h : SpellsProgram ts d) : ∃ p, PlacedProgram ts p ∧ p.unplaced = d := by
  cases h with
  | mk himports hbody =>
    obtain ⟨imports, hi, hifst, hisnd⟩ :=
      exists_placed_parts fun p hp => (himports p hp).exists_placed
    obtain ⟨body, hb, hbfst, hbsnd⟩ :=
      exists_placed_parts fun p hp => (hbody p hp).exists_placed
    have hprogram := PlacedProgram.mk hi hb
    rw [hifst, hbfst] at hprogram
    refine ⟨_, hprogram, ?_⟩
    rw [← hisnd, ← hbsnd]
    rfl

/-! Every part of a tree is spelled by tokens of its own, next to each other. -/

/-- Some tokens next to each other are related to `x`. -/
def Within {β : Type} (R : List Token → β → Prop) (ts : List Token) (x : β) : Prop :=
  ∃ us, us <:+: ts ∧ R us x

theorem Within.self {β : Type} {R : List Token → β → Prop} {ts : List Token} {x : β} (h : R ts x) :
    Within R ts x := ⟨ts, List.infix_rfl, h⟩

theorem Within.mono {β : Type} {R : List Token → β → Prop} {us ts : List Token} {x : β}
    (h : Within R us x) (hus : us <:+: ts) : Within R ts x := by
  obtain ⟨vs, hvs, hx⟩ := h
  exact ⟨vs, hvs.trans hus, hx⟩

/-- What is in one of the parts of a row is in the row. -/
theorem Within.row {β γ : Type} {R : List Token → γ → Prop} {nodes : β → List γ}
    {parts : List (List Token × β)} (h : ∀ p ∈ parts, ∀ x ∈ nodes p.2, Within R p.1 x) :
    ∀ x ∈ (parts.map Prod.snd).flatMap nodes, Within R (parts.map Prod.fst).flatten x := by
  intro x hx
  obtain ⟨_, hy, hxy⟩ := List.mem_flatMap.mp hx
  obtain ⟨p, hp, rfl⟩ := List.mem_map.mp hy
  exact (h p hp x hxy).mono (List.infix_of_mem_flatten (List.mem_map_of_mem hp))

theorem suffix_after (ls : List Token) (t : Token) (rs : List Token) : rs <:+ ls ++ t :: rs :=
  (List.suffix_cons t rs).trans (List.suffix_append ls _)

/-- The tokens after a condition in parentheses. -/
theorem suffix_arm (t o c : Token) (ts as : List Token) : as <:+ t :: o :: (ts ++ c :: as) :=
  suffix_after (t :: o :: ts) c as

theorem PlacedExpr.comparison {layer : Layer} {ts : List Token} {e : Expr Unit}
    (h : PlacedExpr layer ts e) : PlacedExpr .comparison ts e := by
  cases layer with
  | comparison => exact h
  | sum => exact .ofSum h
  | factor => exact .ofSum (.ofFactor h)

/-- The operands in an expression. Parentheses around it do not change them. -/
theorem PlacedExpr.operands_within {layer : Layer} {ts : List Token} {e : Expr Unit}
    (h : PlacedExpr layer ts e) : ∀ x ∈ e.parts.tail, Within (PlacedExpr .comparison) ts x := by
  have hbinary : ∀ {ls rs : List Token} {t : Token} {l r : Expr Unit},
      PlacedExpr .comparison ls l → PlacedExpr .comparison rs r →
      (∀ x ∈ l.parts.tail, Within (PlacedExpr .comparison) ls x) →
      (∀ x ∈ r.parts.tail, Within (PlacedExpr .comparison) rs x) →
      ∀ x ∈ l.parts ++ r.parts, Within (PlacedExpr .comparison) (ls ++ t :: rs) x := by
    intro ls rs t l r hl hr hls hrs
    have hleft : ls <:+: ls ++ t :: rs := ⟨[], t :: rs, rfl⟩
    have hright : rs <:+: ls ++ t :: rs := (suffix_after ls t rs).isInfix
    rw [Expr.parts_eq l, Expr.parts_eq r]
    refine List.forall_mem_append.mpr ⟨List.forall_mem_cons.mpr ⟨?_, ?_⟩,
      List.forall_mem_cons.mpr ⟨?_, ?_⟩⟩
    · exact (Within.self hl).mono hleft
    · exact fun x hx => (hls x hx).mono hleft
    · exact (Within.self hr).mono hright
    · exact fun x hx => (hrs x hx).mono hright
  induction h with
  | ofSum _ ih | ofFactor _ ih => exact ih
  | compare hl _ hr ihl ihr => exact hbinary hl hr.comparison ihl ihr
  | add hl _ hr ihl ihr => exact hbinary hl.comparison hr.comparison ihl ihr
  | literal | name => simp [Expr.parts]
  | @group t u ts e _ _ _ ih =>
    rw [Expr.tail_parts_withSpan]
    exact fun x hx => (ih x hx).mono ⟨[t], [u], rfl⟩

theorem PlacedExpr.parts_within {ts : List Token} {e : Expr Unit}
    (h : PlacedExpr .comparison ts e) : ∀ x ∈ e.parts, Within (PlacedExpr .comparison) ts x := by
  rw [Expr.parts_eq]
  exact List.forall_mem_cons.mpr ⟨.self h, h.operands_within⟩

theorem PlacedStmt.parts_within {ts : List Token} {s : Stmt Unit} (h : PlacedStmt ts s) :
    ∀ x ∈ s.parts, Within PlacedStmt ts x := by
  induction h with
  | declare ht hn ha hinit hu =>
    exact List.forall_mem_singleton.mpr (.self (.declare ht hn ha hinit hu))
  | print ht hvalue hu => exact List.forall_mem_singleton.mpr (.self (.print ht hvalue hu))
  | @ifThen t o c ts as _ _ ht ho hcond hc hthen ih =>
    have harm := (suffix_arm t o c ts as).isInfix
    exact List.forall_mem_cons.mpr ⟨.self (.ifThen ht ho hcond hc hthen),
      fun x hx => (ih x hx).mono harm⟩
  | @ifElse t o c e ts as bs _ _ _ ht ho hcond hc hthen he helse iha ihb =>
    have harms := (suffix_arm t o c ts (as ++ e :: bs)).isInfix
    have hfirst := (List.prefix_append as (e :: bs)).isInfix.trans harms
    have hsecond := (suffix_after as e bs).isInfix.trans harms
    refine List.forall_mem_cons.mpr ⟨.self (.ifElse ht ho hcond hc hthen he helse), ?_⟩
    exact List.forall_mem_append.mpr
      ⟨fun x hx => (iha x hx).mono hfirst, fun x hx => (ihb x hx).mono hsecond⟩
  | @block t u parts ht hparts hu ih =>
    refine List.forall_mem_cons.mpr ⟨.self (.block ht hparts hu), ?_⟩
    rw [Stmt.partsAll_eq]
    exact fun x hx => (Within.row ih x hx).mono ⟨[t], [u], rfl⟩

theorem PlacedStmt.exprs_within {ts : List Token} {s : Stmt Unit} (h : PlacedStmt ts s) :
    ∀ x ∈ s.exprs, Within (PlacedExpr .comparison) ts x := by
  induction h with
  | @declare t n a u ts _ _ _ _ _ hinit _ =>
    exact fun x hx => (hinit.parts_within x hx).mono ⟨[t, n, a], [u], rfl⟩
  | @print t u ts _ _ hvalue _ =>
    exact fun x hx => (hvalue.parts_within x hx).mono ⟨[t], [u], rfl⟩
  | @ifThen t o c ts as _ _ _ _ hcond _ _ ih =>
    have hcondition : ts <:+: t :: o :: (ts ++ c :: as) := ⟨[t, o], c :: as, rfl⟩
    have harm := (suffix_arm t o c ts as).isInfix
    exact List.forall_mem_append.mpr ⟨fun x hx => (hcond.parts_within x hx).mono hcondition,
      fun x hx => (ih x hx).mono harm⟩
  | @ifElse t o c e ts as bs _ _ _ _ _ hcond _ _ _ _ iha ihb =>
    have hcondition : ts <:+: t :: o :: (ts ++ c :: (as ++ e :: bs)) :=
      ⟨[t, o], c :: (as ++ e :: bs), rfl⟩
    have harms := (suffix_arm t o c ts (as ++ e :: bs)).isInfix
    have hfirst := (List.prefix_append as (e :: bs)).isInfix.trans harms
    have hsecond := (suffix_after as e bs).isInfix.trans harms
    refine List.forall_mem_append.mpr ⟨List.forall_mem_append.mpr ⟨?_, ?_⟩, ?_⟩
    · exact fun x hx => (hcond.parts_within x hx).mono hcondition
    · exact fun x hx => (iha x hx).mono hfirst
    · exact fun x hx => (ihb x hx).mono hsecond
  | @block t u parts ht hparts hu ih =>
    rw [Stmt.exprs, Stmt.exprsAll_eq]
    exact fun x hx => (Within.row ih x hx).mono ⟨[t], [u], rfl⟩

theorem PlacedProgram.nodes_within {ts : List Token} {p : Program Unit} (h : PlacedProgram ts p) :
    (∀ i ∈ p.imports, Within PlacedImport ts i) ∧
      (∀ s ∈ Stmt.partsAll p.body, Within PlacedStmt ts s) ∧
      ∀ e ∈ Stmt.exprsAll p.body, Within (PlacedExpr .comparison) ts e := by
  cases h with
  | @mk imports body himports hbody =>
    have hfront := List.prefix_append (imports.map Prod.fst).flatten (body.map Prod.fst).flatten
    have hback := List.suffix_append (imports.map Prod.fst).flatten (body.map Prod.fst).flatten
    refine ⟨?_, ?_, ?_⟩
    · intro i hi
      obtain ⟨q, hq, rfl⟩ := List.mem_map.mp hi
      have himport : q.1 <:+: (imports.map Prod.fst).flatten :=
        List.infix_of_mem_flatten (List.mem_map_of_mem hq)
      exact (Within.self (himports q hq)).mono (himport.trans hfront.isInfix)
    · have hparts := Within.row fun q hq => (hbody q hq).parts_within
      rw [Stmt.partsAll_eq]
      exact fun s hs => (hparts s hs).mono hback.isInfix
    · have hexprs := Within.row fun q hq => (hbody q hq).exprs_within
      rw [Stmt.exprsAll_eq]
      exact fun e he => (hexprs e he).mono hback.isInfix

/-! A tree covers its tokens from the first to the last. -/

/-- The tokens stand one after the other, where no range is cut off. -/
structure Ordered (ts : List Token) : Prop where
  before : (ts.map Token.span).Pairwise Span.Before
  bound : ∀ t ∈ ts, t.span.hi ≤ maxSpanLength

theorem Ordered.sublist {us ts : List Token} (h : Ordered ts) (hus : us.Sublist ts) : Ordered us :=
  ⟨h.before.sublist (hus.map _), fun t ht => h.bound t (hus.subset ht)⟩

/-- The range from the start of the first token to the end of the last. -/
structure Covers (ts : List Token) (s : Span) : Prop where
  first : ∃ t ∈ ts.head?, s.lo = t.span.lo
  last : ∃ t ∈ ts.getLast?, s.hi = t.span.hi

theorem Covers.single (t : Token) : Covers [t] t.span := ⟨⟨t, rfl, rfl⟩, ⟨t, rfl, rfl⟩⟩

theorem Covers.unique {ts : List Token} {a b : Span} (ha : Covers ts a) (hb : Covers ts b) :
    a = b := by
  obtain ⟨t, ht, hlo⟩ := ha.first
  obtain ⟨t', ht', hlo'⟩ := hb.first
  obtain ⟨u, hu, hhi⟩ := ha.last
  obtain ⟨u', hu', hhi'⟩ := hb.last
  obtain rfl := Option.mem_unique ht ht'
  obtain rfl := Option.mem_unique hu hu'
  simp only [Span.hi] at hhi hhi'
  exact Span.ext (by omega) (by omega)

theorem Covers.lo_le {ts : List Token} {s : Span} (h : Covers ts s) (hts : Ordered ts) :
    ∀ t ∈ ts, s.lo ≤ t.span.lo := by
  obtain ⟨u, hu, hlo⟩ := h.first
  obtain ⟨us, rfl⟩ := List.head?_eq_some_iff.mp hu
  have hbefore := (List.pairwise_cons.mp hts.before).1
  rw [hlo]
  refine List.forall_mem_cons.mpr ⟨Nat.le_refl _, fun t ht => ?_⟩
  exact Nat.le_trans (Nat.le_add_right _ _) (hbefore t.span (List.mem_map_of_mem ht))

/-- A range that covers the first tokens and one that covers the last ones together cover all. -/
theorem Covers.join {ls us rs : List Token} {a b : Span} (ha : Covers ls a) (hb : Covers rs b)
    (hrs : rs <:+ us) (h : Ordered (ls ++ us)) : Covers (ls ++ us) (a.join b) := by
  obtain ⟨mid, rfl⟩ := hrs
  obtain ⟨t, ht, hlo⟩ := ha.first
  obtain ⟨t', ht', hhi⟩ := ha.last
  obtain ⟨u, hu, hlo'⟩ := hb.first
  obtain ⟨u', hu', hhi'⟩ := hb.last
  have horder : ∀ x ∈ ls, ∀ y ∈ rs, x.span.hi ≤ y.span.lo := by
    have hpairs := h.before
    rw [List.map_append, List.map_append, List.pairwise_append] at hpairs
    intro x hx y hy
    exact hpairs.2.2 x.span (List.mem_map_of_mem hx) y.span (by simp [List.mem_map_of_mem hy])
  have hstart := horder t (List.mem_of_mem_head? ht) u (List.mem_of_mem_head? hu)
  have hend := horder t' (List.mem_of_mem_getLast? ht') u' (List.mem_of_mem_getLast? hu')
  have hbound := h.bound u' (by simp [List.mem_of_mem_getLast? hu'])
  have hjoin : a.join b = .ofBounds a.lo b.hi := by
    simp only [Span.join, Span.hi] at *
    congr 1 <;> omega
  have hall : (Span.ofBounds a.lo b.hi).hi = b.hi := by
    simp only [Span.hi] at *
    exact Span.hi_ofBounds (by omega) (by omega)
  rw [hjoin]
  refine ⟨⟨t, ?_, hlo⟩, ⟨u', ?_, hall.trans hhi'⟩⟩
  · simp [Option.mem_def.mp ht]
  · simp [Option.mem_def.mp hu']

theorem Covers.cons {t : Token} {us rs : List Token} {b : Span} (hb : Covers rs b) (hrs : rs <:+ us)
    (h : Ordered (t :: us)) : Covers (t :: us) (t.span.join b) :=
  (Covers.single t).join hb hrs h

theorem PlacedExpr.covers {layer : Layer} {ts : List Token} {e : Expr Unit}
    (h : PlacedExpr layer ts e) (hts : Ordered ts) : Covers ts e.span := by
  have hbinary : ∀ {ls rs : List Token} {t : Token} {a b : Span}, Ordered (ls ++ t :: rs) →
      (Ordered ls → Covers ls a) → (Ordered rs → Covers rs b) →
      Covers (ls ++ t :: rs) (a.join b) := by
    intro ls rs t a b hts hl hr
    have hleft : Ordered ls := hts.sublist (List.sublist_append_left _ _)
    have hright : Ordered rs := hts.sublist (suffix_after ls t rs).sublist
    exact (hl hleft).join (hr hright) (List.suffix_cons t rs) hts
  induction h with
  | ofSum _ ih | ofFactor _ ih => exact ih hts
  | compare _ _ _ ihl ihr => exact hbinary hts ihl ihr
  | add _ _ _ ihl ihr => exact hbinary hts ihl ihr
  | literal | name => exact .single _
  | @group t u ts e _ _ _ _ =>
    rw [Expr.span_withSpan]
    exact .cons (.single u) (List.suffix_append ts [u]) hts

theorem PlacedStmt.covers {ts : List Token} {s : Stmt Unit} (h : PlacedStmt ts s)
    (hts : Ordered ts) : Covers ts s.span := by
  induction h with
  | @declare t n a u ts => exact .cons (.single u) ⟨n :: a :: ts, rfl⟩ hts
  | @print t u ts => exact .cons (.single u) (List.suffix_append ts [u]) hts
  | @ifThen t o c ts as _ _ _ _ _ _ _ ih =>
    have harm : Ordered as := hts.sublist (suffix_arm t o c ts as).sublist
    exact .cons (ih harm) (suffix_after (o :: ts) c as) hts
  | @ifElse t o c e ts as bs _ _ _ _ _ _ _ _ _ _ _ ih =>
    have hlast := (suffix_after as e bs).trans (suffix_after (o :: ts) c (as ++ e :: bs))
    exact .cons (ih (hts.sublist (hlast.sublist.cons t))) hlast hts
  | @block t u parts => exact .cons (.single u) (List.suffix_append _ [u]) hts

theorem PlacedImport.covers {ts : List Token} {i : Import} (h : PlacedImport ts i)
    (hts : Ordered ts) : Covers ts i.span := by
  cases h with
  | @use t o c u path => exact .cons (.single u) ⟨o :: (path ++ [c]), by simp⟩ hts

/-! Places can be moved together with the tokens, if the move keeps what covers two ranges. -/

/-- On the ranges with `P`, the move of a range that covers two covers their moves. -/
structure KeepsJoins (P : Span → Prop) (place : Span → Span) : Prop where
  closed : ∀ {a b}, P a → P b → P (a.join b)
  join : ∀ {a b}, P a → P b → place (a.join b) = (place a).join (place b)

section Moving
variable {P : Span → Prop} {place : Span → Span}

/-- An operator's move covers the moves of its operands. -/
theorem KeepsJoins.map_binary (hmove : KeepsJoins P place) (op : BinaryOp) {l r : Expr Unit}
    (hl : P l.span) (hr : P r.span) :
    (Expr.binary op l r (l.span.join r.span) ()).map place id =
      .binary op (l.map place id) (r.map place id)
        ((l.map place id).span.join (r.map place id).span) () := by
  rw [Expr.map, hmove.join hl hr, Expr.span_map, Expr.span_map]

theorem PlacedExpr.move (hmove : KeepsJoins P place) {layer : Layer} {ts : List Token}
    {e : Expr Unit} (h : PlacedExpr layer ts e) (hts : ∀ t ∈ ts, P t.span) :
    P e.span ∧ PlacedExpr layer (ts.map (Token.move place)) (e.map place id) := by
  induction h with
  | ofSum _ ih =>
    obtain ⟨hspan, he⟩ := ih hts
    exact ⟨hspan, .ofSum he⟩
  | ofFactor _ ih =>
    obtain ⟨hspan, he⟩ := ih hts
    exact ⟨hspan, .ofFactor he⟩
  | compare _ ht _ ihl ihr =>
    obtain ⟨hl, hls⟩ := ihl fun t ht => hts t (by simp [ht])
    obtain ⟨hr, hrs⟩ := ihr fun t ht => hts t (by simp [ht])
    rw [hmove.map_binary .eq hl hr, List.map_append]
    exact ⟨hmove.closed hl hr, .compare hls ht hrs⟩
  | add _ ht _ ihl ihr =>
    obtain ⟨hl, hls⟩ := ihl fun t ht => hts t (by simp [ht])
    obtain ⟨hr, hrs⟩ := ihr fun t ht => hts t (by simp [ht])
    rw [hmove.map_binary .add hl hr, List.map_append]
    exact ⟨hmove.closed hl hr, .add hls ht hrs⟩
  | literal hk hv => exact ⟨hts _ (by simp), .literal hk hv⟩
  | name ht => exact ⟨hts _ (by simp), .name ht⟩
  | @group t u ts e ht _ hu ih =>
    have hjoin := hmove.join (hts t (by simp)) (hts u (by simp))
    obtain ⟨-, he⟩ := ih fun t ht => hts t (by simp [ht])
    rw [Expr.span_withSpan, Expr.map_withSpan, hjoin, List.map_cons, List.map_append]
    exact ⟨hmove.closed (hts t (by simp)) (hts u (by simp)), .group ht he hu⟩

theorem PlacedStmt.move (hmove : KeepsJoins P place) {ts : List Token} {s : Stmt Unit}
    (h : PlacedStmt ts s) (hts : ∀ t ∈ ts, P t.span) :
    P s.span ∧ PlacedStmt (ts.map (Token.move place)) (s.map place id) := by
  induction h with
  | @declare t n a u ts ty init ht hn ha hinit hu =>
    have hjoin := hmove.join (hts t (by simp)) (hts u (by simp))
    obtain ⟨-, he⟩ := hinit.move hmove fun t ht => hts t (by simp [ht])
    refine ⟨hmove.closed (hts t (by simp)) (hts u (by simp)), ?_⟩
    simp only [List.map_cons, List.map_append, Stmt.map, hjoin]
    exact .declare ht hn ha he hu
  | @print t u ts value ht hvalue hu =>
    have hjoin := hmove.join (hts t (by simp)) (hts u (by simp))
    obtain ⟨-, he⟩ := hvalue.move hmove fun t ht => hts t (by simp [ht])
    refine ⟨hmove.closed (hts t (by simp)) (hts u (by simp)), ?_⟩
    simp only [List.map_cons, List.map_append, Stmt.map, hjoin]
    exact .print ht he hu
  | @ifThen t o c ts as condition thenArm ht ho hcond hc _ ih =>
    obtain ⟨-, he⟩ := hcond.move hmove fun t ht => hts t (by simp [ht])
    obtain ⟨hspan, harm⟩ := ih fun t ht => hts t (by simp [ht])
    have hjoin := hmove.join (hts t (by simp)) hspan
    refine ⟨hmove.closed (hts t (by simp)) hspan, ?_⟩
    simp only [List.map_cons, List.map_append, Stmt.map, hjoin, ← Stmt.span_map place id]
    exact .ifThen ht ho he hc harm
  | @ifElse t o c e ts as bs condition thenArm elseArm ht ho hcond hc _ helse _ iha ihb =>
    obtain ⟨-, he⟩ := hcond.move hmove fun t ht => hts t (by simp [ht])
    obtain ⟨-, hfirst⟩ := iha fun t ht => hts t (by simp [ht])
    obtain ⟨hspan, hsecond⟩ := ihb fun t ht => hts t (by simp [ht])
    have hjoin := hmove.join (hts t (by simp)) hspan
    refine ⟨hmove.closed (hts t (by simp)) hspan, ?_⟩
    simp only [List.map_cons, List.map_append, Stmt.map, hjoin, ← Stmt.span_map place id]
    exact .ifElse ht ho he hc hfirst helse hsecond
  | @block t u parts ht _ hu ih =>
    have hjoin := hmove.join (hts t (by simp)) (hts u (by simp))
    refine ⟨hmove.closed (hts t (by simp)) (hts u (by simp)), ?_⟩
    have hparts : ∀ q ∈ parts.map fun p => (p.1.map (Token.move place), p.2.map place id),
        PlacedStmt q.1 q.2 := by
      intro q hq
      obtain ⟨p, hp, rfl⟩ := List.mem_map.mp hq
      refine (ih p hp fun v hv => hts v ?_).2
      have hmem : v ∈ (parts.map Prod.fst).flatten :=
        List.mem_flatten.mpr ⟨p.1, List.mem_map_of_mem hp, hv⟩
      simp [hmem]
    have hblock := PlacedStmt.block (t := t.move place) (u := u.move place) ht hparts hu
    simp only [List.map_cons, List.map_append, List.map_nil, Stmt.map, Stmt.mapAll_eq, hjoin,
      List.map_flatten, List.map_map, Function.comp_def] at hblock ⊢
    exact hblock

theorem PlacedImport.move (hmove : KeepsJoins P place) {ts : List Token} {i : Import}
    (h : PlacedImport ts i) (hts : ∀ t ∈ ts, P t.span) :
    PlacedImport (ts.map (Token.move place)) (i.map place) := by
  cases h with
  | @use t o c u path ht ho hne hpath hc hu =>
    have hjoin := hmove.join (hts t (by simp)) (hts u (by simp))
    have hne' : path.map (Token.move place) ≠ [] := by simpa using hne
    have hpath' : ∀ p ∈ path.map (Token.move place), p.kind ∈ pathKinds :=
      List.forall_mem_map.mpr hpath
    have htexts : (path.map (Token.move place)).map Token.text = path.map Token.text :=
      List.map_map
    rw [List.map_cons, List.map_cons, List.map_append, Import.map, hjoin, ← htexts]
    exact .use ht ho hne' hpath' hc hu

end Moving

end Grammar

namespace Stmt
variable {α β : Type}

@[simp] theorem endsOpen_map (place : Span → Span) (inform : α → β) (s : Stmt α) :
    (s.map place inform).endsOpen = s.endsOpen := by
  induction s with
  | ifElse _ _ _ _ _ ih => exact ih
  | declare | print | ifThen | block => rfl

theorem ElseNearest.of_map {place : Span → Span} {inform : α → β} {s : Stmt α}
    (h : (s.map place inform).ElseNearest) : s.ElseNearest := by
  induction s with
  | declare => exact .declare
  | print => exact .print
  | ifThen _ _ _ ih =>
    cases h with
    | ifThen h => exact .ifThen (ih h)
  | ifElse _ thenArm _ _ iha ihb =>
    cases h with
    | ifElse hopen hthen helse =>
      rw [endsOpen_map] at hopen
      exact .ifElse hopen (iha hthen) (ihb helse)
  | block body _ ih =>
    rw [map, mapAll_eq] at h
    cases h with
    | block h => exact .block fun s hs => ih s hs (h _ (List.mem_map_of_mem hs))

theorem ElseNearest.map {s : Stmt α} (h : s.ElseNearest) (place : Span → Span) (inform : α → β) :
    (s.map place inform).ElseNearest := by
  induction h with
  | declare => exact .declare
  | print => exact .print
  | ifThen _ ih => exact .ifThen ih
  | ifElse hopen _ _ iha ihb => exact .ifElse (by rwa [endsOpen_map]) iha ihb
  | block _ ih =>
    rw [Stmt.map, mapAll_eq]
    refine .block ?_
    intro s hs
    obtain ⟨s', hs', rfl⟩ := List.mem_map.mp hs
    exact ih s' hs'

theorem ElseNearest.parts {s : Stmt α} (h : s.ElseNearest) : ∀ x ∈ s.parts, x.ElseNearest := by
  induction h with
  | declare => exact List.forall_mem_singleton.mpr .declare
  | print => exact List.forall_mem_singleton.mpr .print
  | ifThen h ih => exact List.forall_mem_cons.mpr ⟨.ifThen h, ih⟩
  | ifElse hopen hthen helse iha ihb =>
    exact List.forall_mem_cons.mpr
      ⟨.ifElse hopen hthen helse, List.forall_mem_append.mpr ⟨iha, ihb⟩⟩
  | block h ih =>
    rw [Stmt.parts, partsAll_eq]
    refine List.forall_mem_cons.mpr ⟨.block h, ?_⟩
    intro x hx
    obtain ⟨s, hs, hxs⟩ := List.mem_flatMap.mp hx
    exact ih s hs x hxs

end Stmt

theorem Program.ElseNearest.parts {α : Type} {p : Program α} (h : p.ElseNearest) :
    ∀ s ∈ Stmt.partsAll p.body, s.ElseNearest := by
  rw [Stmt.partsAll_eq]
  intro s hs
  obtain ⟨a, ha, hsa⟩ := List.mem_flatMap.mp hs
  exact (h a ha).parts s hsa

theorem Program.ElseNearest.of_unplaced {α : Type} {p : Program α} (h : p.unplaced.ElseNearest) :
    p.ElseNearest := fun s hs => (h s.unplaced (List.mem_map_of_mem hs)).of_map

end HumanScript
