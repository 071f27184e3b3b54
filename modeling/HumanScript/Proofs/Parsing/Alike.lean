import HumanScript.Proofs.Alike
import HumanScript.Proofs.Reading

/-! Tokens that are alike are read alike: the same program at corresponding places, or the same
complaint at a corresponding place. -/
namespace HumanScript

theorem Token.Alike.blame {R : Span → Span → Prop} {t u : Token} (h : t.Alike R u)
    (complaint : Token.Kind → ParseError) :
    Spanned.Alike R Eq (t.blame complaint) (u.blame complaint) := by
  refine ⟨h.span, ?_⟩
  unfold Token.blame
  rw [h.kind]

theorem Token.Alike.literal? {R : Span → Span → Prop} {t u : Token} (h : t.Alike R u) :
    t.literal? = u.literal? := by
  unfold Token.literal?
  rw [h.kind, h.value]

/-- The two texts end at corresponding places, and a range that covers two places corresponds to the
one that covers the corresponding two. -/
structure Aligned (R : Span → Span → Prop) (stop stop' : Span) : Prop where
  stop : R stop stop'
  join : ∀ {a a' b b' : Span}, R a a' → R b b' → R (a.join b) (a'.join b')

namespace Reading
variable {α : Type} {R : Span → Span → Prop} {stop stop' : Span} {n : Nat} {ts us : List Token}

/-- How reading alike tokens ends: what is left over is alike, too. -/
abbrev ReadAlike (R : Span → Span → Prop) (same : α → α → Prop) :
    Except (Spanned ParseError) (α × List Token) → Except (Spanned ParseError) (α × List Token) →
      Prop :=
  Except.Rel (Spanned.Alike R Eq) fun x y =>
    same x.1 y.1 ∧ List.Forall₂ (Token.Alike R) x.2 y.2

theorem alike_expect (hR : Aligned R stop stop') (h : List.Forall₂ (Token.Alike R) ts us)
    (kind : Token.Kind) :
    ReadAlike R (Token.Alike R) (run (expect stop kind ts)) (run (expect stop' kind us)) := by
  cases h with
  | nil => exact .error ⟨hR.stop, rfl⟩
  | cons ht hts =>
    rw [run_expect_cons, run_expect_cons, ht.kind]
    split
    · exact .ok ⟨ht, hts⟩
    · exact .error (ht.blame _)

theorem alike_ident (hR : Aligned R stop stop') (h : List.Forall₂ (Token.Alike R) ts us) :
    ReadAlike R (Ident.Alike R) (run (ident stop ts)) (run (ident stop' us)) := by
  rw [run_ident, run_ident]
  refine (alike_expect hR h _).bind fun x y _ hxy => ?_
  exact .ok ⟨⟨hxy.1.text, hxy.1.span⟩, hxy.2⟩

/-- Expressions of fewer than `n` tokens are read alike. -/
def ExprsAlike (R : Span → Span → Prop) (stop stop' : Span) (n : Nat) : Prop :=
  ∀ ⦃ts us : List Token⦄, ts.length < n → List.Forall₂ (Token.Alike R) ts us → ∀ power,
    ReadAlike R (Expr.Alike R) (run (expr stop power ts)) (run (expr stop' power us))

theorem alike_operand (hR : Aligned R stop stop') (hexprs : ExprsAlike R stop stop' n)
    (hlen : ts.length ≤ n) (h : List.Forall₂ (Token.Alike R) ts us) :
    ReadAlike R (Expr.Alike R) (run (operand stop ts)) (run (operand stop' us)) := by
  cases h with
  | nil =>
    rw [run_operand_nil, run_operand_nil]
    exact .error ⟨hR.stop, rfl⟩
  | @cons t u ts us ht hts =>
    rw [run_operand_cons, run_operand_cons, ht.literal?, ht.kind]
    split
    · exact .ok ⟨.literal ht.span, hts⟩
    · split
      · exact .ok ⟨.name ⟨ht.text, ht.span⟩ ht.span, hts⟩
      · split
        · refine (hexprs hlen hts 0).bind fun x y _ hxy => ?_
          refine (alike_expect hR hxy.2 _).bind fun close close' _ hclose => ?_
          exact .ok ⟨hxy.1.withSpan (hR.join ht.span hclose.1.span), hclose.2⟩
        · exact .error (ht.blame _)

theorem alike_operators (hR : Aligned R stop stop') (hexprs : ExprsAlike R stop stop' n)
    (hlen : ts.length ≤ n) (h : List.Forall₂ (Token.Alike R) ts us) {lhs lhs' : Expr Unit}
    (hlhs : lhs.Alike R lhs') (power : Nat) :
    ReadAlike R (Expr.Alike R) (run (operators stop power lhs ts))
      (run (operators stop' power lhs' us)) := by
  obtain ⟨m, hm⟩ : ∃ m, ts.length = m := ⟨_, rfl⟩
  induction m using Nat.strongRecOn generalizing ts us lhs lhs' with
  | _ m ih =>
    have hdone : ReadAlike R (Expr.Alike R) (.ok (lhs, ts)) (.ok (lhs', us)) := .ok ⟨hlhs, h⟩
    cases h with
    | nil =>
      rw [run_operators_nil, run_operators_nil]
      exact hdone
    | @cons t u ts us ht hts =>
      rw [List.length_cons] at hlen hm
      rw [run_operators_cons, run_operators_cons, ht.kind]
      split
      · exact hdone
      · split
        · exact hdone
        · refine (hexprs hlen hts _).bind fun x y hx hxy => ?_
          have hlt := length_lt_of_run hx
          exact ih x.2.length (by omega) (by omega) hxy.2
            (.binary hlhs hxy.1 (hR.join hlhs.span hxy.1.span)) rfl

theorem exprsAlike (hR : Aligned R stop stop') (n : Nat) : ExprsAlike R stop stop' n := by
  induction n with
  | zero => exact fun ts us hlen => absurd hlen (Nat.not_lt_zero _)
  | succ n ih =>
    intro ts us hlen h power
    have hlen' : ts.length ≤ n := Nat.le_of_lt_succ hlen
    rw [run_expr, run_expr]
    refine (alike_operand hR ih hlen' h).bind fun x y hx hxy => ?_
    have hlt := length_lt_of_run hx
    exact alike_operators hR ih (by omega) hxy.2 hxy.1 power

theorem alike_expr (hR : Aligned R stop stop') (h : List.Forall₂ (Token.Alike R) ts us)
    (power : Nat) :
    ReadAlike R (Expr.Alike R) (run (expr stop power ts)) (run (expr stop' power us)) :=
  exprsAlike hR (ts.length + 1) (Nat.lt_succ_self _) h power

/-- Statements of fewer than `n` tokens are read alike. -/
def StmtsAlike (R : Span → Span → Prop) (stop stop' : Span) (n : Nat) : Prop :=
  ∀ ⦃ts us : List Token⦄, ts.length < n → List.Forall₂ (Token.Alike R) ts us →
    ReadAlike R (Stmt.Alike R) (run (stmt stop ts)) (run (stmt stop' us))

theorem alike_stmts (hstmts : StmtsAlike R stop stop' n) (hlen : ts.length < n)
    (h : List.Forall₂ (Token.Alike R) ts us) :
    ReadAlike R (Stmt.AllAlike R) (run (stmts stop ts)) (run (stmts stop' us)) := by
  obtain ⟨m, hm⟩ : ∃ m, ts.length = m := ⟨_, rfl⟩
  induction m using Nat.strongRecOn generalizing ts us with
  | _ m ih =>
    cases h with
    | nil =>
      rw [run_stmts_nil, run_stmts_nil]
      exact .ok ⟨.nil, .nil⟩
    | @cons t u ts us ht hts =>
      rw [run_stmts_cons, run_stmts_cons, ht.kind]
      split
      · exact .ok ⟨.nil, .cons ht hts⟩
      · refine (hstmts hlen (.cons ht hts)).bind fun x y hx hxy => ?_
        have hlt := length_lt_of_run hx
        refine (ih x.2.length (by omega) (by omega) hxy.2 rfl).bind fun xs ys _ hmore => ?_
        exact .ok ⟨.cons hxy.1 hmore.1, hmore.2⟩

theorem alike_otherwise (hstmts : StmtsAlike R stop stop' n) (hlen : ts.length ≤ n)
    (h : List.Forall₂ (Token.Alike R) ts us) :
    ReadAlike R (Option.Rel (Stmt.Alike R)) (run (otherwise stop ts))
      (run (otherwise stop' us)) := by
  cases h with
  | nil =>
    rw [run_otherwise_nil, run_otherwise_nil]
    exact .ok ⟨.none, .nil⟩
  | @cons t u ts us ht hts =>
    rw [run_otherwise_cons, run_otherwise_cons, ht.kind]
    split
    · exact (hstmts hlen hts).bind fun x y _ hxy => .ok ⟨.some hxy.1, hxy.2⟩
    · exact .ok ⟨.none, .cons ht hts⟩

section Statements
variable {t u : Token}

theorem alike_declare (hR : Aligned R stop stop') (ht : t.Alike R u)
    (h : List.Forall₂ (Token.Alike R) ts us) {ty : Ty} (hty : u.kind.ty? = some ty) :
    ReadAlike R (Stmt.Alike R) (run (stmt stop (t :: ts))) (run (stmt stop' (u :: us))) := by
  rw [run_stmt_declare stop (ht.kind ▸ hty), run_stmt_declare stop' hty]
  refine (alike_ident hR h).bind fun name name' _ hname => ?_
  refine (alike_expect hR hname.2 _).bind fun _ _ _ hassign => ?_
  refine (alike_expr hR hassign.2 _).bind fun init init' _ hinit => ?_
  refine (alike_expect hR hinit.2 _).bind fun last last' _ hlast => ?_
  exact .ok ⟨.declare hname.1 hinit.1 (hR.join ht.span hlast.1.span), hlast.2⟩

theorem alike_print (hR : Aligned R stop stop') (ht : t.Alike R u)
    (h : List.Forall₂ (Token.Alike R) ts us) (hkind : u.kind = .sayKw) :
    ReadAlike R (Stmt.Alike R) (run (stmt stop (t :: ts))) (run (stmt stop' (u :: us))) := by
  rw [run_stmt_print stop (ht.kind.trans hkind), run_stmt_print stop' hkind]
  refine (alike_expr hR h _).bind fun value value' _ hvalue => ?_
  refine (alike_expect hR hvalue.2 _).bind fun last last' _ hlast => ?_
  exact .ok ⟨.print hvalue.1 (hR.join ht.span hlast.1.span), hlast.2⟩

theorem alike_if (hR : Aligned R stop stop') (hstmts : StmtsAlike R stop stop' n)
    (hlen : ts.length ≤ n) (ht : t.Alike R u) (h : List.Forall₂ (Token.Alike R) ts us)
    (hkind : u.kind = .ifKw) :
    ReadAlike R (Stmt.Alike R) (run (stmt stop (t :: ts))) (run (stmt stop' (u :: us))) := by
  rw [run_stmt_if stop (ht.kind.trans hkind), run_stmt_if stop' hkind]
  refine (alike_expect hR h _).bind fun opened _ hopened hopen => ?_
  refine (alike_expr hR hopen.2 _).bind fun condition _ hread hcondition => ?_
  refine (alike_expect hR hcondition.2 _).bind fun closed _ hclosed hclose => ?_
  have hlt₁ := length_lt_of_run hopened
  have hlt₂ := length_lt_of_run hread
  have hlt₃ := length_lt_of_run hclosed
  refine (hstmts (by omega) hclose.2).bind fun arm arm' harm hthen => ?_
  have hlt₄ := length_lt_of_run harm
  refine (alike_otherwise hstmts (by omega) hthen.2).bind fun last last' _ helse => ?_
  obtain ⟨second, rest⟩ := last
  obtain ⟨second', rest'⟩ := last'
  obtain ⟨hsecond, hrest⟩ := helse
  cases hsecond with
  | none => exact .ok ⟨.ifThen hcondition.1 hthen.1 (hR.join ht.span hthen.1.span), hrest⟩
  | some hsecond =>
    exact .ok ⟨.ifElse hcondition.1 hthen.1 hsecond (hR.join ht.span hsecond.span), hrest⟩

theorem alike_block (hR : Aligned R stop stop') (hstmts : StmtsAlike R stop stop' n)
    (hlen : ts.length < n) (ht : t.Alike R u) (h : List.Forall₂ (Token.Alike R) ts us)
    (hkind : u.kind = .lbrace) :
    ReadAlike R (Stmt.Alike R) (run (stmt stop (t :: ts))) (run (stmt stop' (u :: us))) := by
  rw [run_stmt_block stop (ht.kind.trans hkind), run_stmt_block stop' hkind]
  refine (alike_stmts hstmts hlen h).bind fun body body' _ hbody => ?_
  refine (alike_expect hR hbody.2 _).bind fun last last' _ hlast => ?_
  exact .ok ⟨.block hbody.1 (hR.join ht.span hlast.1.span), hlast.2⟩

end Statements

theorem stmtsAlike (hR : Aligned R stop stop') (n : Nat) : StmtsAlike R stop stop' n := by
  induction n with
  | zero => exact fun ts us hlen => absurd hlen (Nat.not_lt_zero _)
  | succ n ih =>
    intro ts us hlen h
    cases h with
    | nil =>
      rw [run_stmt_nil, run_stmt_nil]
      exact .error ⟨hR.stop, rfl⟩
    | @cons t u ts us ht hts =>
      rw [List.length_cons] at hlen
      cases hstart : u.kind.startsStatement with
      | false =>
        rw [run_stmt_other stop (ht.kind ▸ hstart), run_stmt_other stop' hstart]
        exact .error (ht.blame _)
      | true =>
        rcases startsStatement_cases hstart with ⟨ty, hkind⟩ | hkind | hkind | hkind
        · exact alike_declare hR ht hts hkind
        · exact alike_print hR ht hts hkind
        · exact alike_if hR ih (by omega) ht hts hkind
        · exact alike_block hR ih (by omega) ht hts hkind

theorem alike_path (h : List.Forall₂ (Token.Alike R) ts us) :
    ReadAlike R Eq (run (path ts)) (run (path us)) := by
  induction h with
  | nil => exact .ok ⟨rfl, .nil⟩
  | cons ht hts ih =>
    rw [run_path_cons, run_path_cons, ht.kind]
    split
    · exact .ok ⟨rfl, .cons ht hts⟩
    · split
      · exact ih.bind fun x y _ hxy => .ok ⟨congrArg₂ List.cons ht.text hxy.1, hxy.2⟩
      · exact .error (ht.blame _)

theorem alike_place (hR : Aligned R stop stop') (h : List.Forall₂ (Token.Alike R) ts us) :
    R (place stop ts) (place stop' us) := by
  cases h with
  | nil => exact hR.stop
  | cons ht _ => exact ht.span

theorem alike_import (hR : Aligned R stop stop') (h : List.Forall₂ (Token.Alike R) ts us) :
    ReadAlike R (Import.Alike R) (run («import» stop ts)) (run («import» stop' us)) := by
  rw [run_import, run_import]
  refine (alike_expect hR h _).bind fun first first' _ hfirst => ?_
  refine (alike_expect hR hfirst.2 _).bind fun opened opened' _ hopened => ?_
  refine (alike_path hopened.2).bind fun pieces pieces' _ hpieces => ?_
  dsimp only
  rw [hpieces.1]
  split
  · exact .error ⟨alike_place hR hopened.2, rfl⟩
  · refine (alike_expect hR hpieces.2 _).bind fun _ _ _ hclosed => ?_
    refine (alike_expect hR hclosed.2 _).bind fun last last' _ hlast => ?_
    exact .ok ⟨⟨rfl, hR.join hfirst.1.span hlast.1.span⟩, hlast.2⟩

theorem alike_imports (hR : Aligned R stop stop') (h : List.Forall₂ (Token.Alike R) ts us) :
    ReadAlike R (List.Forall₂ (Import.Alike R)) (run (imports stop ts))
      (run (imports stop' us)) := by
  obtain ⟨m, hm⟩ : ∃ m, ts.length = m := ⟨_, rfl⟩
  induction m using Nat.strongRecOn generalizing ts us with
  | _ m ih =>
    cases h with
    | nil =>
      rw [run_imports_nil, run_imports_nil]
      exact .ok ⟨.nil, .nil⟩
    | @cons t u ts us ht hts =>
      rw [run_imports_cons, run_imports_cons, ht.kind]
      split
      · refine (alike_import hR (.cons ht hts)).bind fun x y hx hxy => ?_
        have hlt := length_lt_of_run hx
        refine (ih x.2.length (by omega) hxy.2 rfl).bind fun xs ys _ hmore => ?_
        exact .ok ⟨.cons hxy.1 hmore.1, hmore.2⟩
      · exact .ok ⟨.nil, .cons ht hts⟩

theorem alike_body (hR : Aligned R stop stop') (h : List.Forall₂ (Token.Alike R) ts us) :
    Except.Rel (Spanned.Alike R Eq) (Stmt.AllAlike R) (body stop ts) (body stop' us) := by
  obtain ⟨m, hm⟩ : ∃ m, ts.length = m := ⟨_, rfl⟩
  induction m using Nat.strongRecOn generalizing ts us with
  | _ m ih =>
    cases h with
    | nil =>
      rw [body_nil, body_nil]
      exact .ok .nil
    | @cons t u ts us ht hts =>
      rw [body_cons, body_cons, ht.kind]
      split
      · have hstmt := stmtsAlike hR _ (Nat.lt_succ_self _) (.cons ht hts)
        refine hstmt.bind fun x y hx hxy => ?_
        have hlt := length_lt_of_run hx
        exact (ih x.2.length (by omega) hxy.2 rfl).bind fun _ _ _ hmore => .ok (.cons hxy.1 hmore)
      · exact .error (ht.blame _)

end Reading

/-- Tokens that are alike, up to ends that are. -/
structure Lexed.Alike (R : Span → Span → Prop) (l m : Lexed) : Prop where
  aligned : Aligned R l.stopSpan m.stopSpan
  tokens : List.Forall₂ (Token.Alike R) l.tokens m.tokens

theorem Lexed.Alike.program {R : Span → Span → Prop} {l m : Lexed} (h : l.Alike R m) :
    Except.Rel (Spanned.Alike R Eq) (Program.Alike R) l.program m.program := by
  rw [program_eq, program_eq]
  refine (Reading.alike_imports h.aligned h.tokens).bind fun x y _ himports => ?_
  refine (Reading.alike_body h.aligned himports.2).bind fun body body' _ hbody => ?_
  exact .ok ⟨himports.1, hbody⟩

theorem Lexed.Alike.expr {R : Span → Span → Prop} {l m : Lexed} (h : l.Alike R m) :
    Except.Rel (Spanned.Alike R Eq) (Expr.Alike R) l.expr m.expr := by
  rw [expr_eq, expr_eq]
  refine (Reading.alike_expr h.aligned h.tokens 0).bind fun x y _ hxy => ?_
  obtain ⟨e, rest⟩ := x
  obtain ⟨f, rest'⟩ := y
  obtain ⟨hef, hrest⟩ := hxy
  cases hrest with
  | nil => exact .ok hef
  | cons ht _ => exact .error (ht.blame _)

end HumanScript
