import HumanScript.Proofs.Pieces
import HumanScript.Proofs.Recovery

/-! The literals of a program. They are those of its tokens, up to the ones in the names of headers,
and they are found again in its code, in the same order. -/
namespace HumanScript
variable {α β : Type}

/-! In tokens. -/

namespace Token

/-- The tokens that stand between angle marks, or those that do not. The second flag tells whether
the tokens start behind an opening mark. -/
def angled (between : Bool) : Bool → List Token → List Token
  | _, [] => []
  | inside, t :: ts =>
    if t.kind = .less then angled between true ts
    else if t.kind = .greater then angled between false ts
    else if inside = between then t :: angled between inside ts
    else angled between inside ts

theorem literal?_eq_none {t : Token} (h : t.kind ∉ Grammar.literalKinds) : t.literal? = none := by
  unfold literal?
  split <;> simp_all [Grammar.literalKinds]

/-- A mark around the name of a header. -/
def Kind.isAngle (k : Kind) : Bool := k = .less || k = .greater

variable {t : Token} {ts rest : List Token} {between inside : Bool}

theorem mem_angled_or (ht : t ∈ ts) (hkind : t.kind.isAngle = false) (inside : Bool) :
    t ∈ angled false inside ts ∨ t ∈ angled true inside ts := by
  simp only [Kind.isAngle, Bool.or_eq_false_iff, decide_eq_false_iff_not] at hkind
  induction ts generalizing inside with
  | nil => cases ht
  | cons u ts ih =>
    unfold angled
    rcases List.mem_cons.mp ht with rfl | ht
    · cases inside <;> simp [hkind]
    · have hmore := ih ht
      split_ifs <;> grind

theorem angled_append (hts : ∀ t ∈ ts, t.kind.isAngle = false) :
    angled between inside (ts ++ rest) =
      (if inside = between then ts else []) ++ angled between inside rest := by
  induction ts with
  | nil => simp
  | cons t ts ih =>
    rw [List.forall_mem_cons] at hts
    obtain ⟨ht, hts⟩ := hts
    simp only [Kind.isAngle, Bool.or_eq_false_iff, decide_eq_false_iff_not] at ht
    rw [List.cons_append, angled, if_neg ht.1, if_neg ht.2, ih hts]
    split <;> rfl

end Token

namespace Lexed

/-- The tokens of header names. -/
def pathTokens (l : Lexed) : List Token := Token.angled true false l.tokens

/-- The other tokens. -/
def plainTokens (l : Lexed) : List Token := Token.angled false false l.tokens

end Lexed

/-! In trees. -/

def Expr.literal? : Expr α → Option Literal
  | literal value _ _ => some value
  | _ => none

/-- The literals of some expressions and their operands, in order. -/
def literalsOf (es : List (Expr α)) : List Literal := es.filterMap Expr.literal?

def Program.literals (p : Program α) : List Literal := literalsOf (Stmt.exprsAll p.body)

theorem literalsOf_append (es fs : List (Expr α)) :
    literalsOf (es ++ fs) = literalsOf es ++ literalsOf fs := List.filterMap_append

theorem literalsOf_parts_binary (op : BinaryOp) (lhs rhs : Expr α) (span : Span) (info : α) :
    literalsOf (Expr.binary op lhs rhs span info).parts =
      literalsOf lhs.parts ++ literalsOf rhs.parts := by
  rw [Expr.parts, ← literalsOf_append]
  rfl

theorem literalsOf_parts_withSpan (e : Expr α) (span : Span) :
    literalsOf (e.withSpan span).parts = literalsOf e.parts := by
  cases e <;> rfl

theorem literalsOf_parts_map (place : Span → Span) (inform : α → β) (e : Expr α) :
    literalsOf (e.map place inform).parts = literalsOf e.parts := by
  induction e with
  | literal | name => rfl
  | binary op lhs rhs span info ihl ihr =>
    rw [Expr.map, literalsOf_parts_binary, literalsOf_parts_binary, ihl, ihr]

namespace Stmt

/-- The literals of statements are those of each of them, one after the other. -/
theorem literalsOf_exprsAll_congr {body : List (Stmt α)} {f : Stmt α → Stmt β}
    (h : ∀ s ∈ body, literalsOf (f s).exprs = literalsOf s.exprs) :
    literalsOf (exprsAll (body.map f)) = literalsOf (exprsAll body) := by
  induction body with
  | nil => rfl
  | cons s body ih =>
    rw [List.map_cons, exprsAll, exprsAll, literalsOf_append, literalsOf_append, h s (by simp),
      ih fun t ht => h t (List.mem_cons_of_mem _ ht)]

theorem literalsOf_exprs_map (place : Span → Span) (inform : α → β) (s : Stmt α) :
    literalsOf (s.map place inform).exprs = literalsOf s.exprs := by
  induction s with
  | declare ty name init span => exact literalsOf_parts_map place inform init
  | print value span => exact literalsOf_parts_map place inform value
  | ifThen condition thenArm span ih =>
    simp only [map, exprs, literalsOf_append, literalsOf_parts_map, ih]
  | ifElse condition thenArm elseArm span iha ihb =>
    simp only [map, exprs, literalsOf_append, literalsOf_parts_map, iha, ihb]
  | block body span ih =>
    rw [map, mapAll_eq]
    exact literalsOf_exprsAll_congr ih

theorem exprs_asBlock (s : Stmt α) : s.asBlock.exprs = s.exprs := by
  cases s with
  | block => rfl
  | declare | print | ifThen | ifElse => exact List.append_nil _

theorem bracedArmsAll_eq (body : List (Stmt α)) : bracedArmsAll body = body.map bracedArms := by
  induction body with
  | nil => rfl
  | cons s body ih => rw [bracedArmsAll, ih, List.map_cons]

theorem literalsOf_exprs_bracedArms (s : Stmt α) :
    literalsOf s.bracedArms.exprs = literalsOf s.exprs := by
  induction s with
  | declare | print => rfl
  | ifThen condition thenArm span ih =>
    simp only [bracedArms, exprs, exprs_asBlock, literalsOf_append, ih]
  | ifElse condition thenArm elseArm span iha ihb =>
    simp only [bracedArms, exprs, exprs_asBlock, literalsOf_append, iha, ihb]
  | block body span ih =>
    rw [bracedArms, bracedArmsAll_eq]
    exact literalsOf_exprsAll_congr ih

end Stmt

/-- Neither places nor blocks for arms change the literals. -/
theorem Program.literals_bracedArms_unplaced (p : Program α) :
    p.bracedArms.unplaced.literals = p.literals := by
  rw [literals, unplaced, map, bracedArms,
    Stmt.literalsOf_exprsAll_congr fun s _ => s.literalsOf_exprs_map _ _, Stmt.bracedArmsAll_eq,
    Stmt.literalsOf_exprsAll_congr fun s _ => s.literalsOf_exprs_bracedArms]
  rfl

/-! Tokens and trees. -/

namespace Grammar

theorem PlacedExpr.not_isAngle {layer : Layer} {ts : List Token} {e : Expr Unit}
    (h : PlacedExpr layer ts e) : ∀ t ∈ ts, t.kind.isAngle = false := by
  induction h with
  | ofSum _ ih => exact ih
  | ofFactor _ ih => exact ih
  | compare _ ht _ ihl ihr | add _ ht _ ihl ihr =>
    rw [List.forall_mem_append, List.forall_mem_cons, ht]
    exact ⟨ihl, rfl, ihr⟩
  | @literal t v hk _ =>
    rw [List.forall_mem_singleton, hk]
    rcases v with _ | _ | _ | _ | _ <;> rfl
  | name ht =>
    rw [List.forall_mem_singleton, ht]
    rfl
  | group ht _ hu ih =>
    rw [List.forall_mem_cons, List.forall_mem_append, List.forall_mem_singleton, ht, hu]
    exact ⟨rfl, ih, rfl⟩

theorem PlacedStmt.not_isAngle {ts : List Token} {s : Stmt Unit} (h : PlacedStmt ts s) :
    ∀ t ∈ ts, t.kind.isAngle = false := by
  induction h with
  | @declare t n a u ts ty init ht hn ha hinit hu =>
    have htype : t.kind.isAngle = false := by
      revert ht
      cases t.kind <;> simp [Token.Kind.ty?, Token.Kind.isAngle]
    simp only [List.forall_mem_cons, List.forall_mem_append, hn, ha, hu]
    exact ⟨htype, rfl, rfl, hinit.not_isAngle, rfl, by simp⟩
  | print ht hvalue hu =>
    simp only [List.forall_mem_cons, List.forall_mem_append, ht, hu]
    exact ⟨rfl, hvalue.not_isAngle, rfl, by simp⟩
  | ifThen ht ho hcond hc _ ih =>
    simp only [List.forall_mem_cons, List.forall_mem_append, ht, ho, hc]
    exact ⟨rfl, rfl, hcond.not_isAngle, rfl, ih⟩
  | ifElse ht ho hcond hc _ he _ iha ihb =>
    simp only [List.forall_mem_cons, List.forall_mem_append, ht, ho, hc, he]
    exact ⟨rfl, rfl, hcond.not_isAngle, rfl, iha, rfl, ihb⟩
  | @block t u parts ht _ hu ih =>
    simp only [List.forall_mem_cons, List.forall_mem_append, ht, hu]
    refine ⟨rfl, ?_, rfl, by simp⟩
    intro x hx
    obtain ⟨row, hrow, hx⟩ := List.mem_flatten.mp hx
    obtain ⟨p, hp, rfl⟩ := List.mem_map.mp hrow
    exact ih p hp x hx

/-- A token that is no literal adds none. -/
theorem literals_cons {t : Token} (h : t.kind ∉ literalKinds) (ts : List Token) :
    (t :: ts).filterMap Token.literal? = ts.filterMap Token.literal? :=
  List.filterMap_cons_none (Token.literal?_eq_none h)

theorem PlacedExpr.literals_eq {layer : Layer} {ts : List Token} {e : Expr Unit}
    (h : PlacedExpr layer ts e) : ts.filterMap Token.literal? = literalsOf e.parts := by
  induction h with
  | ofSum _ ih => exact ih
  | ofFactor _ ih => exact ih
  | @compare ls rs t l r _ ht _ ihl ihr =>
    have hmark : t.kind ∉ literalKinds := by rw [ht]; decide
    rw [List.filterMap_append, literals_cons hmark, ihl, ihr, literalsOf_parts_binary]
  | @add ls rs t l r _ ht _ ihl ihr =>
    have hmark : t.kind ∉ literalKinds := by rw [ht]; decide
    rw [List.filterMap_append, literals_cons hmark, ihl, ihr, literalsOf_parts_binary]
  | literal hk hv => exact List.filterMap_cons_some (Token.literal?_of_kind hk hv)
  | @name t ht =>
    have hname : t.kind ∉ literalKinds := by rw [ht]; decide
    exact literals_cons hname []
  | @group t u ts e ht _ hu ih =>
    have hopen : t.kind ∉ literalKinds := by rw [ht]; decide
    have hclose : u.kind ∉ literalKinds := by rw [hu]; decide
    rw [literals_cons hopen, List.filterMap_append, literals_cons hclose, List.filterMap_nil,
      List.append_nil, ih, literalsOf_parts_withSpan]

theorem literals_rows {rows : List (List Token × Stmt Unit)}
    (h : ∀ r ∈ rows, r.1.filterMap Token.literal? = literalsOf r.2.exprs) :
    (rows.map Prod.fst).flatten.filterMap Token.literal? =
      literalsOf (Stmt.exprsAll (rows.map Prod.snd)) := by
  induction rows with
  | nil => rfl
  | cons r rows ih =>
    rw [List.map_cons, List.flatten_cons, List.filterMap_append, h r (by simp),
      ih fun q hq => h q (List.mem_cons_of_mem _ hq), List.map_cons, Stmt.exprsAll,
      literalsOf_append]

theorem PlacedStmt.literals_eq {ts : List Token} {s : Stmt Unit} (h : PlacedStmt ts s) :
    ts.filterMap Token.literal? = literalsOf s.exprs := by
  have hkinds : ∀ {t : Token} {k : Token.Kind}, t.kind = k → k ∉ literalKinds →
      t.kind ∉ literalKinds := fun ht hk => ht ▸ hk
  induction h with
  | @declare t n a u ts ty init ht hn ha hinit hu =>
    have htype : t.kind ∉ literalKinds := by
      revert ht
      cases t.kind <;> simp [Token.Kind.ty?, literalKinds]
    rw [literals_cons htype, literals_cons (hkinds hn (by decide)),
      literals_cons (hkinds ha (by decide)), List.filterMap_append,
      literals_cons (hkinds hu (by decide)), List.filterMap_nil, List.append_nil,
      hinit.literals_eq]
    rfl
  | print ht hvalue hu =>
    rw [literals_cons (hkinds ht (by decide)), List.filterMap_append,
      literals_cons (hkinds hu (by decide)), List.filterMap_nil, List.append_nil,
      hvalue.literals_eq]
    rfl
  | ifThen ht ho hcond hc _ ih =>
    rw [literals_cons (hkinds ht (by decide)), literals_cons (hkinds ho (by decide)),
      List.filterMap_append, literals_cons (hkinds hc (by decide)), hcond.literals_eq, ih,
      Stmt.exprs, literalsOf_append]
  | ifElse ht ho hcond hc _ he _ iha ihb =>
    rw [literals_cons (hkinds ht (by decide)), literals_cons (hkinds ho (by decide)),
      List.filterMap_append, literals_cons (hkinds hc (by decide)), List.filterMap_append,
      literals_cons (hkinds he (by decide)), hcond.literals_eq, iha, ihb, Stmt.exprs,
      literalsOf_append, literalsOf_append, List.append_assoc]
  | block ht _ hu ih =>
    rw [literals_cons (hkinds ht (by decide)), List.filterMap_append,
      literals_cons (hkinds hu (by decide)), List.filterMap_nil, List.append_nil,
      literals_rows ih]
    rfl

/-- Of an import only the first word and the last mark stand outside of the angle marks. -/
theorem PlacedImport.angled_append {ts : List Token} {i : Import} (h : PlacedImport ts i)
    (rest : List Token) : (Token.angled false false (ts ++ rest)).filterMap Token.literal? =
      (Token.angled false false rest).filterMap Token.literal? := by
  cases h with
  | @use t o c u path ht ho _ hpath hc hu =>
    have hinside : ∀ p ∈ path, p.kind.isAngle = false := by
      have hkinds : ∀ k ∈ pathKinds, k.isAngle = false := by decide
      exact fun p hp => hkinds _ (hpath p hp)
    have huse : t.kind ∉ literalKinds := by rw [ht]; decide
    have hend : u.kind ∉ literalKinds := by rw [hu]; decide
    have hangled : Token.angled false false (t :: o :: (path ++ [c, u]) ++ rest) =
        t :: u :: Token.angled false false rest := by
      simp [Token.angled, ht, ho, hc, hu, Token.angled_append hinside]
    rw [hangled, literals_cons huse, literals_cons hend]

/-- The literals outside of header names are those of the program. -/
theorem PlacedProgram.literals_eq {ts : List Token} {p : Program Unit} (h : PlacedProgram ts p) :
    (Token.angled false false ts).filterMap Token.literal? = p.literals := by
  cases h with
  | @mk imports body himports hbody =>
    have hplain : ∀ t ∈ (body.map Prod.fst).flatten, t.kind.isAngle = false := by
      intro t ht
      obtain ⟨row, hrow, ht⟩ := List.mem_flatten.mp ht
      obtain ⟨q, hq, rfl⟩ := List.mem_map.mp hrow
      exact (hbody q hq).not_isAngle t ht
    have hfront : (Token.angled false false ((imports.map Prod.fst).flatten ++
        (body.map Prod.fst).flatten)).filterMap Token.literal? =
        (Token.angled false false (body.map Prod.fst).flatten).filterMap Token.literal? := by
      induction imports with
      | nil => rfl
      | cons i imports ih =>
        rw [List.forall_mem_cons] at himports
        rw [List.map_cons, List.flatten_cons, List.append_assoc, himports.1.angled_append,
          ih himports.2]
    have hbodyTokens : Token.angled false false (body.map Prod.fst).flatten =
        (body.map Prod.fst).flatten := by
      have hangled : Token.angled false false ((body.map Prod.fst).flatten ++ []) =
          (body.map Prod.fst).flatten ++ Token.angled false false [] := Token.angled_append hplain
      simpa [Token.angled] using hangled
    rw [hfront, hbodyTokens, literals_rows fun q hq => (hbody q hq).literals_eq]
    rfl

end Grammar

/-! Code and trees. -/

namespace Literal

def text? : Literal → Option String
  | string value => some value
  | _ => none

def int? : Literal → Option Int
  | int value => some value
  | _ => none

end Literal

namespace Cpp

namespace Piece

def text? : Piece → Option String
  | text value => some value
  | _ => none

/-- The digits of an integer, without its tag. -/
def digits? : Piece → Option (List Char)
  | word w =>
    let digits := w.takeWhile Char.isDigit
    if digits ≠ [] ∧ w = digits ++ "LL".toList then some digits else none
  | _ => none

/-- Neither a string literal nor an integer. -/
def Mute (p : Piece) : Prop := p.text? = none ∧ p.digits? = none

theorem mute_mark (c : Char) : (mark c).Mute := ⟨rfl, rfl⟩

theorem mute_word {w : List Char} (h : w.head?.any Char.isDigit = false) : (word w).Mute := by
  have hnone : w.takeWhile Char.isDigit = [] := by
    cases w with
    | nil => rfl
    | cons c w =>
      have hc : c.isDigit = false := h
      rw [List.takeWhile_cons, hc]
      rfl
  refine ⟨rfl, ?_⟩
  rw [digits?, hnone]
  rfl

theorem mute_untagged {w : List Char} (h : 'L' ∉ w) : (word w).Mute := by
  refine ⟨rfl, ?_⟩
  unfold digits?
  refine if_neg ?_
  rintro ⟨-, htag⟩
  rw [htag] at h
  exact h (List.mem_append_right _ (by decide))

end Piece

/-- The literals that stand between pieces of other kinds, in order. Of the values that are neither
strings nor integers nothing is said; truth values that become strings bring in their words. -/
inductive Carries : List Literal → List Piece → Prop where
  | nil : Carries [] []
  | int (n : Int) {vs : List Literal} {ps : List Piece} (h : Carries vs ps) :
      Carries (.int n :: vs) (.word (Expr.int n).render.toList :: ps)
  | string (s : String) {vs : List Literal} {ps : List Piece} (h : Carries vs ps) :
      Carries (.string s :: vs) (.text s :: ps)
  | other {v : Literal} (htext : v.text? = none) (hint : v.int? = none) {vs : List Literal}
      {ps : List Piece} (h : Carries vs ps) : Carries (v :: vs) ps
  | truth {s : String} (hs : s ∈ ["true", "false"]) {vs : List Literal} {ps : List Piece}
      (h : Carries vs ps) : Carries vs (.text s :: ps)
  | mute {p : Piece} (hp : p.Mute) {vs : List Literal} {ps : List Piece} (h : Carries vs ps) :
      Carries vs (p :: ps)

namespace Carries
variable {vs ws : List Literal} {ps qs : List Piece}

theorem append (h : Carries vs ps) (h' : Carries ws qs) : Carries (vs ++ ws) (ps ++ qs) := by
  induction h with
  | nil => exact h'
  | int n _ ih => exact .int n ih
  | string s _ ih => exact .string s ih
  | other htext hint _ ih => exact .other htext hint ih
  | truth hs _ ih => exact .truth hs ih
  | mute hp _ ih => exact .mute hp ih

theorem of_mute (h : ∀ p ∈ ps, p.Mute) : Carries [] ps := by
  induction ps with
  | nil => exact .nil
  | cons p ps ih =>
    rw [List.forall_mem_cons] at h
    exact .mute h.1 (ih h.2)

theorem mark (c : Char) : Carries [] [.mark c] := .mute (Piece.mute_mark c) .nil

end Carries

theorem carries_std (name : String) (h : name.toList.head?.any Char.isDigit = false) :
    Carries [] (stdPieces name) := by
  have hstd : (Piece.word "std".toList).Mute := ⟨rfl, rfl⟩
  exact .mute hstd (.mute (Piece.mute_mark ':') (.mute (Piece.mute_mark ':')
    (.mute (Piece.mute_word h) .nil)))

theorem IsVariable.mute {x : String} (h : IsVariable x) : (Piece.word x.toList).Mute := by
  obtain ⟨c, more, hc, hstart, -⟩ := h.chars
  refine Piece.mute_word ?_
  rw [hc]
  change c.isDigit = false
  cases hdigit : c.isDigit with
  | false => rfl
  | true =>
    rw [Lexeme.startsWord_of_isDigit hdigit] at hstart
    cases hstart

namespace Expr

theorem IsAtom.carries {e : Expr} (h : IsAtom e) :
    Carries (literalsOf e.source.parts) e.pieces := by
  cases h with
  | int n => exact .int n .nil
  | @double x hx =>
    refine .other rfl rfl (.mute (Piece.mute_untagged ?_) .nil)
    have htag : ¬ ('L'.isDigit = true ∨ 'L' ∈ ['.', 'e', '-']) := by decide
    rw [render_double hx]
    exact fun hmem => htag (mem_render_double hx hmem)
  | bool b => cases b <;> exact .other rfl rfl (.mute ⟨rfl, rfl⟩ .nil)
  | name hx => exact .mute hx.mute .nil

/-- The pieces of an expression carry its literals. -/
theorem Readable.carries {e : Expr} (h : Readable e) :
    Carries (literalsOf e.source.parts) e.pieces := by
  induction h with
  | atom ha => exact ha.carries
  | string s => exact .string s .nil
  | @conversion k v _ ih =>
    cases k with
    | literal =>
      have hcode := (carries_std "string" rfl).append
        ((Carries.mark '(').append (ih.append (.mark ')')))
      rwa [List.append_nil] at hcode
    | truth =>
      have hwords : Carries [] [.mark '?', .text "true", .mark ':', .text "false"] :=
        .mute (Piece.mute_mark _) (.truth (by simp) (.mute (Piece.mute_mark _)
          (.truth (by simp) .nil)))
      have hcode := (carries_std "string" rfl).append
        ((Carries.mark '(').append ((ih.append hwords).append (.mark ')')))
      rwa [List.append_nil, List.append_nil] at hcode
    | number =>
      have hcode := (carries_std "to_string" rfl).append
        ((Carries.mark '(').append (ih.append (.mark ')')))
      rwa [List.append_nil] at hcode
  | binary op _ _ ihl ihr =>
    have hop : Carries [] (operatorPieces op) := by
      refine .of_mute ?_
      intro p hp
      obtain ⟨c, -, rfl⟩ := List.mem_map.mp hp
      exact Piece.mute_mark c
    have hcode := (Carries.mark '(').append (ihl.append (hop.append (ihr.append (.mark ')'))))
    rw [List.append_nil] at hcode
    rw [source, literalsOf_parts_binary]
    exact hcode

theorem Readable.carries_condition {c : Expr} (hc : Readable c) :
    Carries (literalsOf c.source.parts) c.conditionPieces := by
  have hplain := (Carries.mark '(').append (hc.carries.append (.mark ')'))
  rw [List.append_nil] at hplain
  cases c with
  | binary op l r => exact hc.carries
  | int | double | string | bool | name | stringOf | toString | choice => exact hplain

end Expr

theorem CType.carries (ty : CType) : Carries [] ty.pieces := by
  have hword : ∀ {w : List Char}, (Piece.word w).Mute → Carries [] [.word w] := fun hw =>
    .mute hw .nil
  cases ty with
  | int | bool | double | void => exact hword ⟨rfl, rfl⟩
  | longLong => exact (hword ⟨rfl, rfl⟩).append (hword ⟨rfl, rfl⟩)
  | string => exact carries_std "string" rfl

namespace Stmt

theorem carries_piecesAll_of_forall {body : List Stmt}
    (hstmt : ∀ s ∈ body, Carries (literalsOf s.source.exprs) s.pieces) :
    Carries (literalsOf (HumanScript.Stmt.exprsAll (sourceAll body))) (piecesAll body) := by
  induction body with
  | nil => exact .nil
  | cons s body ih =>
    rw [sourceAll, HumanScript.Stmt.exprsAll, literalsOf_append]
    exact (hstmt s (by simp)).append (ih fun t ht => hstmt t (List.mem_cons_of_mem _ ht))

/-- The pieces of a statement carry its literals. -/
theorem Readable.carries {s : Stmt} (h : Readable s) :
    Carries (literalsOf s.source.exprs) s.pieces := by
  have hif : (Piece.word "if".toList).Mute := ⟨rfl, rfl⟩
  have helse : (Piece.word "else".toList).Mute := ⟨rfl, rfl⟩
  have htest : ∀ {c : Expr}, c.Readable →
      Carries (literalsOf c.source.parts) (Opening.test c).pieces := by
    intro c hc
    have hcode := hc.carries_condition.append (.mark '\x7b')
    rw [List.append_nil] at hcode
    exact .mute hif hcode
  induction h with
  | declare ty hx he =>
    have hend := he.carries.append (.mark ';')
    rw [List.append_nil] at hend
    exact ty.carries.append (.mute hx.mute (.mute (Piece.mute_mark '=') hend))
  | print he =>
    have hshift : Carries [] [.mark '<', .mark '<'] := (Carries.mark '<').append (.mark '<')
    have hcode := ((carries_std "cout" rfl).append hshift).append
      (he.carries.append ((hshift.append (carries_std "endl" rfl)).append (.mark ';')))
    simpa [source, pieces, Opening.pieces, HumanScript.Stmt.exprs] using hcode
  | ifThen hc ha ih =>
    have hcode := (htest hc).append ((carries_piecesAll_of_forall ih).append (.mark '\x7d'))
    rw [List.append_nil] at hcode
    rw [source, HumanScript.Stmt.exprs, literalsOf_append]
    exact hcode
  | ifElse hc ha hb iha ihb =>
    have hsecond := (carries_piecesAll_of_forall ihb).append (.mark '\x7d')
    have hbetween : Carries [] [.mark '\x7d', .word "else".toList, .mark '\x7b'] :=
      .mute (Piece.mute_mark _) (.mute helse (.mark _))
    have hcode := (htest hc).append
      ((carries_piecesAll_of_forall iha).append (hbetween.append hsecond))
    rw [List.append_nil] at hcode
    rw [source, HumanScript.Stmt.exprs, literalsOf_append, literalsOf_append, List.append_assoc]
    exact hcode
  | block hbody ih =>
    have hcode := (Carries.mark '\x7b').append
      ((carries_piecesAll_of_forall ih).append (.mark '\x7d'))
    rw [List.append_nil] at hcode
    exact hcode

end Stmt

/-- The code of `main` carries the literals of the program. -/
theorem Program.Readable.carries {q : Program} (h : q.Readable) :
    Carries q.source.literals (readPieces (Text.unlines q.mainLines).toList) := by
  have hbody := Stmt.carries_piecesAll_of_forall fun s hs => (h.body s hs).carries
  have hreturn : Carries [] [.word "return".toList, .word "0".toList, .mark ';'] :=
    .mute ⟨rfl, rfl⟩ (.mute ⟨rfl, rfl⟩ (.mark _))
  have hcode := hbody.append hreturn
  rw [List.append_nil] at hcode
  rw [h.readPieces_main, mainPieces]
  split
  · have hshift : Carries [] [.mark '<', .mark '<'] := (Carries.mark '<').append (.mark '<')
    have hline := ((carries_std "cout" rfl).append hshift).append
      ((carries_std "boolalpha" rfl).append (.mark ';'))
    exact hline.append hcode
  · exact hcode

/-! Texts in code. A string literal is a pointer to its characters, and C++ takes the string to end
at the first NUL. -/

/-- The string literals in a text of code. -/
def texts (code : String) : List String := (readPieces code.toList).filterMap Piece.text?

def upToNul (s : String) : String := String.ofList (s.toList.takeWhile (· ≠ '\x00'))

/-- The strings that C++ makes of the string literals in a text of code. -/
def pointedTexts (code : String) : List String := (texts code).map upToNul

theorem upToNul_eq_self_iff (s : String) : upToNul s = s ↔ '\x00' ∉ s.toList := by
  rw [upToNul, ← String.toList_inj, String.toList_ofList, List.takeWhile_eq_self_iff]
  constructor
  · intro h hnul
    exact absurd (h _ hnul) (by decide)
  · intro hnul c hc
    rw [decide_eq_true_iff]
    rintro rfl
    exact hnul hc

theorem pointedTexts_eq_texts_iff (code : String) :
    pointedTexts code = texts code ↔ ∀ s ∈ texts code, '\x00' ∉ s.toList := by
  have hmap := @List.map_inj_left _ _ (texts code) upToNul id
  simpa [pointedTexts, upToNul_eq_self_iff] using hmap

/-- Some texts in order, with nothing between them but the words for truth values. -/
structure Keeps (texts found : List String) : Prop where
  sublist : texts.Sublist found
  only : ∀ s ∈ found, s ∈ texts ∨ s ∈ ["true", "false"]

theorem Carries.keeps {vs : List Literal} {ps : List Piece} (h : Carries vs ps) :
    Keeps (vs.filterMap Literal.text?) (ps.filterMap Piece.text?) := by
  induction h with
  | nil => exact ⟨.slnil, by simp⟩
  | int n _ ih => exact ih
  | string s _ ih =>
    refine ⟨ih.sublist.cons_cons s, List.forall_mem_cons.mpr ⟨.inl List.mem_cons_self, ?_⟩⟩
    intro t ht
    exact (ih.only t ht).imp_left (List.mem_cons_of_mem s)
  | @other v htext _ _ _ _ ih =>
    rw [List.filterMap_cons_none htext]
    exact ih
  | @truth s hs _ _ _ ih =>
    exact ⟨ih.sublist.cons s, List.forall_mem_cons.mpr ⟨.inr hs, ih.only⟩⟩
  | mute hp _ ih =>
    rw [List.filterMap_cons_none hp.1]
    exact ih

end Cpp

/-- The values of the string tokens outside of header names, in order. -/
def Lexed.texts (l : Lexed) : List String :=
  (l.plainTokens.filterMap Token.literal?).filterMap Literal.text?

/-- The literals of a program are those of its tokens outside of header names. -/
theorem Lexed.literals_of_program {src : String} {p : Program Unit}
    (hp : (ofSource src).program = .ok p) :
    (ofSource src).plainTokens.filterMap Token.literal? = p.literals := by
  obtain ⟨hplaced, -⟩ := placed_of_program (fun t ht => valueFits_of_mem ht) hp
  exact hplaced.literals_eq

/-- A text that compiles: its program and its code, and the literals that the code carries. -/
theorem exists_carries {src code : String} (h : (compile src).result = .ok code) :
    ∃ p c q, (Lexed.ofSource src).program = .ok p ∧ p.check = .ok c ∧ c.value.toCpp = .ok q ∧
      q.render = code ∧
      Cpp.Carries ((Lexed.ofSource src).plainTokens.filterMap Token.literal?)
        (Cpp.readPieces (Text.unlines q.mainLines).toList) := by
  obtain ⟨c, q, hc, hq, hcode⟩ := compile_eq_ok_iff.mp h
  obtain ⟨p, hp, hcheck⟩ := check_eq_ok_iff.mp hc
  rw [parse_result, Except.mapError_eq_ok_iff] at hp
  obtain ⟨q', hq', hread, hsource⟩ := Program.exists_code hp hcheck
  cases hq.symm.trans hq'
  have hcarries := hread.carries
  rw [hsource, p.literals_bracedArms_unplaced, ← Lexed.literals_of_program hp] at hcarries
  exact ⟨p, c, q, hp, hcheck, hq, hcode, hcarries⟩

/-- The texts of a program stand in its code as they are, but C++ does not get all of a text that
has a NUL in it. Reading the code of `main` finds the texts in order, with only the words for truth
values between them. The strings that C++ makes of them end at the first NUL, so nothing is lost
exactly if there is no NUL in any text. -/
theorem texts_kept_up_to_nul {src code : String} (h : (compile src).result = .ok code) :
    ∃ p c q, (Lexed.ofSource src).program = .ok p ∧ p.check = .ok c ∧ c.value.toCpp = .ok q ∧
      q.render = code ∧
      code = Text.unlines (Cpp.banner :: "" :: q.headers.lines ++ "int main() \x7b" ::
        q.mainLines ++ ["\x7d"]) ∧
      (Lexed.ofSource src).texts.Sublist (Cpp.texts (Text.unlines q.mainLines)) ∧
      (∀ s ∈ Cpp.texts (Text.unlines q.mainLines),
        s ∈ (Lexed.ofSource src).texts ∨ s ∈ ["true", "false"]) ∧
      ((Lexed.ofSource src).texts.map Cpp.upToNul).Sublist
        (Cpp.pointedTexts (Text.unlines q.mainLines)) ∧
      (Cpp.pointedTexts (Text.unlines q.mainLines) = Cpp.texts (Text.unlines q.mainLines) ↔
        ∀ s ∈ (Lexed.ofSource src).texts, '\x00' ∉ s.toList) := by
  obtain ⟨p, c, q, hp, hcheck, hq, hcode, hcarries⟩ := exists_carries h
  have hkeeps : Cpp.Keeps (Lexed.ofSource src).texts (Cpp.texts (Text.unlines q.mainLines)) :=
    hcarries.keeps
  refine ⟨p, c, q, hp, hcheck, hq, hcode, hcode ▸ Cpp.Program.render_eq q, hkeeps.sublist,
    hkeeps.only, hkeeps.sublist.map _, ?_⟩
  have hwords : ∀ s ∈ ["true", "false"], '\x00' ∉ s.toList := by decide
  rw [Cpp.pointedTexts_eq_texts_iff]
  constructor
  · intro hfound s hs
    exact hfound s (hkeeps.sublist.subset hs)
  · intro htexts s hs
    rcases hkeeps.only s hs with hs | hs
    · exact htexts s hs
    · exact hwords s hs

theorem texts_kept_up_to_nul_cut :
    ∃ (code : String) (q : Cpp.Program), (compile "says \"a\x00b\";").result = .ok code ∧
      q.render = code ∧
      code = Text.unlines (Cpp.banner :: "" :: q.headers.lines ++ "int main() \x7b" ::
        q.mainLines ++ ["\x7d"]) ∧
      (Lexed.ofSource "says \"a\x00b\";").texts = ["a\x00b"] ∧
      ["a"].Sublist (Cpp.pointedTexts (Text.unlines q.mainLines)) ∧
      Cpp.pointedTexts (Text.unlines q.mainLines) ≠ Cpp.texts (Text.unlines q.mainLines) := by
  have hrun : (compile "says \"a\x00b\";").result.toOption.isSome = true := by decide +kernel
  have htexts : (Lexed.ofSource "says \"a\x00b\";").texts = ["a\x00b"] := by decide +kernel
  simp only [Option.isSome_iff_exists, Except.toOption_eq_some_iff] at hrun
  obtain ⟨code, hcompile⟩ := hrun
  obtain ⟨_, _, q, -, -, -, hcode, hmain, -, -, hpointed, hsame⟩ := texts_kept_up_to_nul hcompile
  have hcut : ["a\x00b"].map Cpp.upToNul = ["a"] := by decide +kernel
  rw [htexts, hcut] at hpointed
  refine ⟨code, q, hcompile, hcode, hmain, htexts, hpointed, ?_⟩
  rw [ne_eq, hsame, htexts, List.forall_mem_singleton, not_not]
  decide +kernel

end HumanScript
