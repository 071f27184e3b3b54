import HumanScript.Program.Reader
import HumanScript.Proofs.Except

/-! What the functions that read tokens do, one equation for each, free of the bounds that make
them end. An expression is read in layers: factors, sums of factors, comparisons of sums. -/
namespace HumanScript.Reading
variable {α β : Type} {m n : Nat}

/-- What is read and what is left, without the bound. -/
def run (r : Reading α n) : Except (Spanned ParseError) (α × List Token) :=
  r.map fun x => (x.value, x.rest)

@[simp] theorem run_ok (x : Read α n) : run (.ok x) = .ok (x.value, x.rest) := rfl

@[simp] theorem run_error (e : Spanned ParseError) :
    run (.error e : Reading α n) = .error e := rfl

theorem run_bind (r : Reading α n) (f : Read α n → Reading β m)
    (g : α × List Token → Except (Spanned ParseError) (β × List Token))
    (h : ∀ x, run (f x) = g (x.value, x.rest)) : run (r >>= f) = run r >>= g := by
  cases r with
  | error e => rfl
  | ok x => exact h x

theorem length_lt_of_run {r : Reading α n} {value : α} {rest : List Token}
    (h : run r = .ok (value, rest)) : rest.length < n := by
  cases r with
  | error e => simp at h
  | ok x =>
    simp only [run_ok, Except.ok.injEq, Prod.mk.injEq] at h
    exact h.2 ▸ x.lt

variable (stop : Span)

@[simp] theorem run_expect_nil (kind : Token.Kind) :
    run (expect stop kind []) = .error ⟨stop, .unexpected .eof kind⟩ := rfl

@[simp] theorem run_expect_cons (kind : Token.Kind) (t : Token) (ts : List Token) :
    run (expect stop kind (t :: ts)) =
      if t.kind = kind then .ok (t, ts) else .error (t.blame (.unexpected · kind)) := by
  rw [expect]
  split <;> rfl

theorem run_expect_eq_ok_iff {stop : Span} {kind : Token.Kind} {ts rest : List Token}
    {t : Token} :
    run (expect stop kind ts) = .ok (t, rest) ↔ ts = t :: rest ∧ t.kind = kind := by
  cases ts with
  | nil => simp
  | cons u us =>
    rw [run_expect_cons]
    by_cases hk : u.kind = kind
    · rw [if_pos hk]
      constructor
      · intro h
        simp only [Except.ok.injEq, Prod.mk.injEq] at h
        obtain ⟨rfl, rfl⟩ := h
        exact ⟨rfl, hk⟩
      · rintro ⟨h, -⟩
        rw [List.cons.injEq] at h
        rw [h.1, h.2]
    · rw [if_neg hk]
      constructor
      · intro h
        cases h
      · rintro ⟨h, hkind⟩
        rw [List.cons.injEq] at h
        exact absurd (h.1 ▸ hkind) hk

theorem run_ident (ts : List Token) :
    run (ident stop ts) = run (expect stop .identifier ts) >>= fun (t, rest) =>
      .ok (⟨t.text, t.span⟩, rest) :=
  run_bind _ _ _ fun _ => rfl

theorem run_expr (power : Nat) (ts : List Token) :
    run (expr stop power ts) = run (operand stop ts) >>= fun (lhs, rest) =>
      run (operators stop power lhs rest) := by
  rw [expr]
  refine run_bind _ _ _ fun x => ?_
  obtain ⟨lhs, rest, h⟩ := x
  dsimp only
  cases operators stop power lhs rest <;> rfl

@[simp] theorem run_operand_nil :
    run (operand stop []) = .error ⟨stop, .unexpectedInExpr .eof⟩ := by
  rw [operand]
  rfl

theorem run_operand_cons (t : Token) (ts : List Token) :
    run (operand stop (t :: ts)) =
      match t.literal? with
      | some value => .ok (.literal value t.span (), ts)
      | none =>
        if t.kind = .identifier then .ok (.name ⟨t.text, t.span⟩ t.span (), ts)
        else if t.kind = .lparen then
          run (expr stop 0 ts) >>= fun (e, rest) =>
            run (expect stop .rparen rest) >>= fun (close, rest) =>
              .ok (e.withSpan (t.span.join close.span), rest)
        else .error (t.blame .unexpectedInExpr) := by
  rw [operand]
  cases t.literal? with
  | some value => rfl
  | none =>
    dsimp only
    split
    · rfl
    · split
      · exact run_bind _ _ _ fun _ => run_bind _ _ _ fun _ => rfl
      · rfl

@[simp] theorem run_operators_nil (power : Nat) (lhs : Expr Unit) :
    run (operators stop power lhs []) = .ok (lhs, []) := by
  rw [operators]
  rfl

theorem run_operators_cons (power : Nat) (lhs : Expr Unit) (t : Token) (ts : List Token) :
    run (operators stop power lhs (t :: ts)) =
      match t.kind.binaryOp? with
      | none => .ok (lhs, t :: ts)
      | some op =>
        if op.leftPower < power then .ok (lhs, t :: ts)
        else run (expr stop op.rightPower ts) >>= fun (rhs, rest) =>
          run (operators stop power (.binary op lhs rhs (lhs.span.join rhs.span) ()) rest) := by
  rw [operators]
  cases t.kind.binaryOp? with
  | none => rfl
  | some op =>
    dsimp only
    split
    · rfl
    · refine run_bind _ _ _ fun x => ?_
      obtain ⟨rhs, rest, h⟩ := x
      dsimp only
      cases operators stop power _ rest <;> rfl

@[simp] theorem run_stmt_nil :
    run (stmt stop []) = .error ⟨stop, .unexpectedStatement .eof⟩ := by
  rw [stmt]
  rfl

theorem run_stmt_declare {t : Token} {ty : Ty} (ht : t.kind.ty? = some ty) (ts : List Token) :
    run (stmt stop (t :: ts)) =
      run (ident stop ts) >>= fun (name, rest) =>
        run (expect stop .colonEq rest) >>= fun (_, rest) =>
          run (expr stop 0 rest) >>= fun (init, rest) =>
            run (expect stop .semicolon rest) >>= fun (last, rest) =>
              .ok (.declare ty name init (t.span.join last.span), rest) := by
  rw [stmt, ht]
  exact run_bind _ _ _ fun _ => run_bind _ _ _ fun _ => run_bind _ _ _ fun _ =>
    run_bind _ _ _ fun _ => rfl

theorem run_stmt_print {t : Token} (ht : t.kind = .sayKw) (ts : List Token) :
    run (stmt stop (t :: ts)) =
      run (expr stop 0 ts) >>= fun (value, rest) =>
        run (expect stop .semicolon rest) >>= fun (last, rest) =>
          .ok (.print value (t.span.join last.span), rest) := by
  rw [stmt, ht]
  exact run_bind _ _ _ fun _ => run_bind _ _ _ fun _ => rfl

theorem run_stmt_if {t : Token} (ht : t.kind = .ifKw) (ts : List Token) :
    run (stmt stop (t :: ts)) =
      run (expect stop .lparen ts) >>= fun (_, rest) =>
        run (expr stop 0 rest) >>= fun (condition, rest) =>
          run (expect stop .rparen rest) >>= fun (_, rest) =>
            run (stmt stop rest) >>= fun (thenArm, rest) =>
              run (otherwise stop rest) >>= fun (elseArm, rest) =>
                .ok (match elseArm with
                  | some arm => .ifElse condition thenArm arm (t.span.join arm.span)
                  | none => .ifThen condition thenArm (t.span.join thenArm.span), rest) := by
  rw [stmt, ht]
  exact run_bind _ _ _ fun _ => run_bind _ _ _ fun _ => run_bind _ _ _ fun _ =>
    run_bind _ _ _ fun _ => run_bind _ _ _ fun _ => rfl

theorem run_stmt_block {t : Token} (ht : t.kind = .lbrace) (ts : List Token) :
    run (stmt stop (t :: ts)) =
      run (stmts stop ts) >>= fun (body, rest) =>
        run (expect stop .rbrace rest) >>= fun (last, rest) =>
          .ok (.block body (t.span.join last.span), rest) := by
  rw [stmt, ht]
  exact run_bind _ _ _ fun _ => run_bind _ _ _ fun _ => rfl

theorem run_stmt_other {t : Token} (ht : t.kind.startsStatement = false) (ts : List Token) :
    run (stmt stop (t :: ts)) = .error (t.blame .unexpectedStatement) := by
  simp only [Token.Kind.startsStatement, Bool.or_eq_false_iff, Option.isSome_eq_false_iff,
    Option.isNone_iff_eq_none, decide_eq_false_iff_not] at ht
  obtain ⟨⟨⟨hty, hprint⟩, hif⟩, hblock⟩ := ht
  rw [stmt, hty]
  dsimp only
  rw [if_neg hprint, if_neg hif, if_neg hblock]
  rfl

/-- The ways in which a statement starts. -/
theorem startsStatement_cases {k : Token.Kind} (h : k.startsStatement = true) :
    (∃ ty, k.ty? = some ty) ∨ k = .sayKw ∨ k = .ifKw ∨ k = .lbrace := by
  simpa [Token.Kind.startsStatement, Option.isSome_iff_exists, or_assoc] using h

@[simp] theorem run_otherwise_nil : run (otherwise stop []) = .ok (none, []) := by
  rw [otherwise]
  rfl

theorem run_otherwise_cons (t : Token) (ts : List Token) :
    run (otherwise stop (t :: ts)) =
      if t.kind = .elseKw then
        run (stmt stop ts) >>= fun (arm, rest) => .ok (some arm, rest)
      else .ok (none, t :: ts) := by
  rw [otherwise]
  split
  · exact run_bind _ _ _ fun _ => rfl
  · rfl

@[simp] theorem run_stmts_nil : run (stmts stop []) = .ok ([], []) := by
  rw [stmts]
  rfl

theorem run_stmts_cons (t : Token) (ts : List Token) :
    run (stmts stop (t :: ts)) =
      if t.kind = .rbrace then .ok ([], t :: ts)
      else run (stmt stop (t :: ts)) >>= fun (s, rest) =>
        run (stmts stop rest) >>= fun (body, rest) => .ok (s :: body, rest) := by
  rw [stmts]
  split
  · rfl
  · exact run_bind _ _ _ fun _ => run_bind _ _ _ fun _ => rfl

@[simp] theorem run_path_nil : run (path []) = .ok ([], []) := rfl

theorem run_path_cons (t : Token) (ts : List Token) :
    run (path (t :: ts)) =
      if t.kind = .greater then .ok ([], t :: ts)
      else if t.kind ∈ [.identifier, .int, .dot, .slash] then
        run (path ts) >>= fun (pieces, rest) => .ok (t.text :: pieces, rest)
      else .error (t.blame .invalidImportPath) := by
  rw [path]
  split
  · rfl
  · split
    · exact run_bind _ _ _ fun _ => rfl
    · rfl

theorem run_import (ts : List Token) :
    run («import» stop ts) = run (expect stop .useKw ts) >>= fun (first, rest) =>
      run (expect stop .less rest) >>= fun (_, rest) =>
        run (path rest) >>= fun (pieces, after) =>
          if pieces.isEmpty then .error ⟨place stop rest, .emptyImportPath⟩
          else run (expect stop .greater after) >>= fun (_, rest) =>
            run (expect stop .semicolon rest) >>= fun (last, rest) =>
              .ok (⟨String.join pieces, first.span.join last.span⟩, rest) := by
  refine run_bind _ _ _ fun _ => run_bind _ _ _ fun _ => run_bind _ _ _ fun x => ?_
  obtain ⟨pieces, rest, h⟩ := x
  dsimp only
  split
  · rfl
  · exact run_bind _ _ _ fun _ => run_bind _ _ _ fun _ => rfl

@[simp] theorem run_imports_nil : run (imports stop []) = .ok ([], []) := by
  rw [imports]
  rfl

theorem run_imports_cons (t : Token) (ts : List Token) :
    run (imports stop (t :: ts)) =
      if t.kind = .useKw then
        run («import» stop (t :: ts)) >>= fun (i, rest) =>
          run (imports stop rest) >>= fun (more, rest) => .ok (i :: more, rest)
      else .ok ([], t :: ts) := by
  rw [imports]
  split
  · exact run_bind _ _ _ fun _ => run_bind _ _ _ fun _ => rfl
  · rfl

@[simp] theorem body_nil : body stop [] = .ok [] := by rw [body]

theorem body_cons (t : Token) (ts : List Token) :
    body stop (t :: ts) =
      if t.kind.startsStatement then
        run (stmt stop (t :: ts)) >>= fun (s, rest) =>
          body stop rest >>= fun more => .ok (s :: more)
      else .error (t.blame .unexpectedTopLevel) := by
  rw [body]
  split
  · cases stmt stop (t :: ts) <;> rfl
  · rfl

/-- A factor is an operand: no operator holds as strongly as the right of a `+`. -/
theorem run_expr_factor (ts : List Token) :
    run (expr stop BinaryOp.add.rightPower ts) = run (operand stop ts) := by
  have hnone : ∀ lhs rest,
      run (operators stop BinaryOp.add.rightPower lhs rest) = .ok (lhs, rest) := by
    intro lhs rest
    cases rest with
    | nil => simp
    | cons t ts =>
      rw [run_operators_cons]
      cases t.kind.binaryOp? with
      | none => rfl
      | some op => cases op <;> rfl
  rw [run_expr]
  cases run (operand stop ts) with
  | error e => rfl
  | ok x => exact hnone x.1 x.2

/-- A sum goes on at a `+`, with one more factor. -/
theorem run_operators_sum (lhs : Expr Unit) (t : Token) (ts : List Token) :
    run (operators stop BinaryOp.eq.rightPower lhs (t :: ts)) =
      if t.kind = .plus then
        run (operand stop ts) >>= fun (rhs, rest) =>
          run (operators stop BinaryOp.eq.rightPower
            (.binary .add lhs rhs (lhs.span.join rhs.span) ()) rest)
      else .ok (lhs, t :: ts) := by
  rw [run_operators_cons]
  by_cases hplus : t.kind = .plus
  · rw [if_pos hplus, hplus]
    change run (expr stop BinaryOp.add.rightPower ts) >>= _ = _
    rw [run_expr_factor]
  · rw [if_neg hplus]
    by_cases heq : t.kind = .questionEq
    · rw [heq]
      rfl
    · have hnone : t.kind.binaryOp? = none := by
        cases hk : t.kind <;> simp_all [Token.Kind.binaryOp?]
      rw [hnone]

/-- The tokens do not start with one of the given kind. -/
def NotNext (kind : Token.Kind) (ts : List Token) : Prop := ∀ t ∈ ts.head?, t.kind ≠ kind

@[simp] theorem notNext_nil (kind : Token.Kind) : NotNext kind [] := by simp [NotNext]

@[simp] theorem notNext_cons {kind : Token.Kind} {t : Token} {ts : List Token} :
    NotNext kind (t :: ts) ↔ t.kind ≠ kind := by simp [NotNext]

/-- Reading on from the start is reading the sum first, and then on from the sum. -/
theorem run_operators_start (lhs : Expr Unit) (ts : List Token) :
    run (operators stop 0 lhs ts) =
      run (operators stop BinaryOp.eq.rightPower lhs ts) >>= fun (e, rest) =>
        run (operators stop 0 e rest) := by
  obtain ⟨n, hn⟩ : ∃ n, ts.length = n := ⟨_, rfl⟩
  induction n using Nat.strongRecOn generalizing lhs ts with
  | _ n ih =>
    cases ts with
    | nil => simp
    | cons t ts =>
      rw [run_operators_sum]
      by_cases hplus : t.kind = .plus
      · rw [run_operators_cons, if_pos hplus, hplus]
        change run (expr stop BinaryOp.add.rightPower ts) >>= _ = _
        rw [run_expr_factor]
        cases hop : run (operand stop ts) with
        | error e => rfl
        | ok x =>
          have hlt := length_lt_of_run hop
          exact ih x.2.length (by rw [List.length_cons] at hn; omega) _ _ rfl
      · rw [if_neg hplus]
        rfl

/-- A comparison starts with a sum. -/
theorem run_expr_comparison (ts : List Token) :
    run (expr stop 0 ts) =
      run (expr stop BinaryOp.eq.rightPower ts) >>= fun (lhs, rest) =>
        run (operators stop 0 lhs rest) := by
  rw [run_expr, run_expr]
  cases run (operand stop ts) with
  | error e => rfl
  | ok x => exact run_operators_start stop x.1 x.2

/-- After a sum, a comparison goes on at a `?=`, with one more sum. -/
theorem run_operators_comparison (lhs : Expr Unit) {t : Token} (ts : List Token)
    (h : t.kind ≠ .plus) :
    run (operators stop 0 lhs (t :: ts)) =
      if t.kind = .questionEq then
        run (expr stop BinaryOp.eq.rightPower ts) >>= fun (rhs, rest) =>
          run (operators stop 0 (.binary .eq lhs rhs (lhs.span.join rhs.span) ()) rest)
      else .ok (lhs, t :: ts) := by
  rw [run_operators_cons]
  by_cases heq : t.kind = .questionEq
  · rw [if_pos heq, heq]
    rfl
  · have hnone : t.kind.binaryOp? = none := by
      cases hk : t.kind <;> simp_all [Token.Kind.binaryOp?]
    rw [if_neg heq, hnone]

end HumanScript.Reading

theorem HumanScript.Lexed.program_eq (l : Lexed) :
    l.program = Reading.run (Reading.imports l.stopSpan l.tokens) >>= fun (imports, rest) =>
      Reading.body l.stopSpan rest >>= fun body => .ok ⟨imports, body⟩ := by
  unfold program
  cases Reading.imports l.stopSpan l.tokens <;> rfl

theorem HumanScript.Lexed.expr_eq (l : Lexed) :
    l.expr = Reading.run (Reading.expr l.stopSpan 0 l.tokens) >>= fun (e, rest) =>
      match rest with
      | [] => .ok e
      | t :: _ => .error (t.blame (.unexpected · .eof)) := by
  unfold expr
  cases Reading.expr l.stopSpan 0 l.tokens <;> rfl
