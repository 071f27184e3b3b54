import HumanScript.Proofs.LexingRounds
import HumanScript.Proofs.Parsing.FirstError
import HumanScript.Proofs.Parsing.Walk

/-! Reading comes to an end, because each round of it makes progress. No walk over tokens is cut
off: it passes a token if it finds what it is after, and where it does not, it fails. -/
namespace HumanScript
namespace Walk
open Reading (run)
variable {tape : Tape} {i n rounds : Nat}

theorem blame_last (tape : Tape) (complaint : Token.Kind → ParseError) :
    tape.last.blame complaint = ⟨tape.last.span, complaint .eof⟩ := by
  simp [Token.blame, tape.kind_last]

theorem expect_ends {kind : Token.Kind} (hkind : kind ≠ .eof) (hi : i ≤ tape.size) :
    Ends tape 1 (expect tape kind) i
      (run (Reading.expect tape.last.span kind (tape.rest i))) := by
  rw [expect]
  apply Ends.peek
  cases hrest : tape.rest i with
  | nil =>
    have hlast : tape.last.kind ≠ kind := tape.kind_last ▸ hkind.symm
    rw [Tape.look_of_nil hrest, if_neg hlast, blame_last, Reading.run_expect_nil]
    exact .throw hi _
  | cons t ts =>
    rw [Tape.look_of_cons hrest, Reading.run_expect_cons]
    split
    · rw [← Tape.rest_succ hrest]
      exact .ok (outcome_advance_of_cons hrest) (Nat.le_refl _) (Tape.lt_size hrest)
    · exact .throw hi _

theorem ident_ends (hi : i ≤ tape.size) :
    Ends tape 1 (ident tape) i (run (Reading.ident tape.last.span (tape.rest i))) := by
  rw [Reading.run_ident]
  exact (expect_ends (by decide) hi).map _

/-- After a token there is less left. -/
theorem left_succ_lt {t : Token} {ts : List Token} (hrest : tape.rest i = t :: ts)
    (hn : tape.left i ≤ n) : tape.left (i + 1) < n := by
  rwa [Tape.left_eq_succ hrest] at hn

theorem left_lt {j : Nat} (hj : i ≤ j) (hn : tape.left i < n) : tape.left j < n :=
  Nat.lt_of_le_of_lt (Tape.left_le_left hj) hn

section Expressions

/-- All expressions end that have so few tokens left. -/
def ExprsEnd (tape : Tape) (inner : Nat → Walk (Expr Unit)) (n : Nat) : Prop :=
  ∀ power i, i ≤ tape.size → tape.left i < n →
    Ends tape 1 (inner power) i (run (Reading.expr tape.last.span power (tape.rest i)))

theorem literal?_last (tape : Tape) : tape.last.literal? = none := by
  rw [Token.literal?, tape.kind_last]

theorem operand_ends {inner : Nat → Walk (Expr Unit)} (hinner : ExprsEnd tape inner n)
    (hi : i ≤ tape.size) (hn : tape.left i ≤ n) :
    Ends tape 1 (operand tape (inner 0)) i
      (run (Reading.operand tape.last.span (tape.rest i))) := by
  rw [operand]
  cases hrest : tape.rest i with
  | nil =>
    apply Ends.advance_of_nil hrest
    rw [literal?_last, blame_last, Reading.run_operand_nil]
    simp only [tape.kind_last, reduceCtorEq, if_false]
    exact .throw hi _
  | cons t ts =>
    have hsize := Tape.lt_size hrest
    have hnext := Tape.rest_succ hrest
    apply Ends.advance_of_cons hrest
    rw [Reading.run_operand_cons, ← hnext]
    cases t.literal? with
    | some value => exact .pure hsize _
    | none =>
      dsimp only
      split
      · exact .pure hsize _
      · split
        · have hexpr := hinner 0 (i + 1) hsize (left_succ_lt hrest hn)
          exact (hexpr.bind fun e j _ hj => (expect_ends (by decide) hj).map _).mono (Nat.zero_le _)
        · exact .throw hsize _

theorem isOperator_last (tape : Tape) (power : Nat) : isOperator power tape.last = false := by
  rw [isOperator, tape.kind_last]
  rfl

theorem operator_ends {inner : Nat → Walk (Expr Unit)} (hinner : ExprsEnd tape inner n)
    (lhs : Expr Unit) {t : Token} {ts : List Token} {op : BinaryOp} (hrest : tape.rest i = t :: ts)
    (hop : t.kind.binaryOp? = some op) (hn : tape.left i ≤ n) :
    Ends tape 1 (operator tape inner lhs) i
      (run (Reading.expr tape.last.span op.rightPower ts) >>= fun x =>
        .ok (.binary op lhs x.1 (lhs.span.join x.1.span) (), x.2)) := by
  have hrhs := hinner op.rightPower (i + 1) (Tape.lt_size hrest) (left_succ_lt hrest hn)
  rw [Tape.rest_succ hrest] at hrhs
  rw [operator]
  apply Ends.mono (k := 2) _ (by decide)
  apply Ends.advance_of_cons hrest
  rw [hop]
  exact hrhs.map _

theorem operators_ends {inner : Nat → Walk (Expr Unit)} (hinner : ExprsEnd tape inner n)
    (power : Nat) (lhs : Expr Unit) (hi : i ≤ tape.size) (hn : tape.left i ≤ n)
    (hrounds : tape.left i ≤ rounds) :
    Ends tape 0 (operators tape inner power rounds lhs) i
      (run (Reading.operators tape.last.span power lhs (tape.rest i))) := by
  refine .repeatWhile (fun lhs ts => run (Reading.operators tape.last.span power lhs ts))
    (isOperator_last tape power) (fun lhs => by simp) ?_ ?_ hi hn hrounds lhs
  · intro lhs t ts _ hmore
    rw [Reading.run_operators_cons]
    cases hop : t.kind.binaryOp? with
    | none => rfl
    | some op =>
      have hpower : op.leftPower < power := by simpa [isOperator, hop] using hmore
      exact if_pos hpower
  · intro lhs i t ts hrest hn hmore
    cases hop : t.kind.binaryOp? with
    | none => simp [isOperator, hop] at hmore
    | some op =>
      have hpower : ¬ op.leftPower < power := by simpa [isOperator, hop] using hmore
      refine ⟨_, operator_ends hinner lhs hrest hop hn, ?_⟩
      rw [Reading.run_operators_cons, hop]
      dsimp only
      rw [if_neg hpower]
      cases run (Reading.expr tape.last.span op.rightPower ts) <;> rfl

theorem expr_ends (depth : Nat) : ExprsEnd tape (expr tape depth) depth := by
  induction depth with
  | zero => exact fun _ _ _ hn => absurd hn (Nat.not_lt_zero _)
  | succ depth ih =>
    intro power i hi hn
    rw [expr, Reading.run_expr]
    refine (operand_ends ih hi (by omega)).bind (m := 0) fun lhs j hj hsize => ?_
    have hleft : tape.left j < depth + 1 := left_lt (by omega) hn
    apply Ends.allowance
    exact operators_ends ih power lhs hsize (Nat.le_of_lt_succ hleft) (Nat.le_refl _)

end Expressions

section Statements

/-- All statements end that have so few tokens left. -/
def StmtsEnd (tape : Tape) (inner : Walk (Stmt Unit)) (n : Nat) : Prop :=
  ∀ i, i ≤ tape.size → tape.left i < n →
    Ends tape 1 inner i (run (Reading.stmt tape.last.span (tape.rest i)))

theorem block_ends {inner : Walk (Stmt Unit)} (hinner : StmtsEnd tape inner n)
    (hi : i ≤ tape.size) (hn : tape.left i < n) (hrounds : tape.left i ≤ rounds) :
    Ends tape 0 (block tape inner rounds) i
      (run (Reading.stmts tape.last.span (tape.rest i))) := by
  refine .collect (n := n - 1) (fun ts => run (Reading.stmts tape.last.span ts))
    (by simp [tape.kind_last]) (by simp) ?_ ?_ hi (by omega) hrounds
  · intro t ts ht hmore
    have hbrace : t.kind = .rbrace := by simpa [ht] using hmore
    rw [Reading.run_stmts_cons, if_pos hbrace]
  · intro i t ts hrest hn hmore
    have hbrace : t.kind ≠ .rbrace := by simp_all
    have hstmt := hinner i (Nat.le_of_lt (Tape.lt_size hrest)) (by omega)
    rw [hrest] at hstmt
    exact ⟨_, hstmt, by rw [Reading.run_stmts_cons, if_neg hbrace]⟩

theorem otherwise_ends {inner : Walk (Stmt Unit)} (hinner : StmtsEnd tape inner n)
    (hi : i ≤ tape.size) (hn : tape.left i < n) :
    Ends tape 0 (otherwise tape inner) i
      (run (Reading.otherwise tape.last.span (tape.rest i))) := by
  rw [otherwise]
  have hnone := Ends.pure hi (none : Option (Stmt Unit))
  cases hrest : tape.rest i with
  | nil =>
    have hlast : (tape.look i).kind ≠ .elseKw := by simp [Tape.look_of_nil hrest, tape.kind_last]
    rw [hrest] at hnone
    rw [Reading.run_otherwise_nil]
    refine .skip (outcome_take_other hlast) ?_
    exact hnone
  | cons t ts =>
    rw [Reading.run_otherwise_cons]
    by_cases hkind : t.kind = .elseKw
    · have harm := hinner (i + 1) (Tape.lt_size hrest) (left_succ_lt hrest (Nat.le_of_lt hn))
      rw [Tape.rest_succ hrest] at harm
      rw [if_pos hkind]
      exact (Ends.step (m := 1) (outcome_take hrest hkind) (Nat.le_refl _) (harm.map _)).mono
        (Nat.zero_le _)
    · have hother : (tape.look i).kind ≠ .elseKw := by rwa [Tape.look_of_cons hrest]
      rw [hrest] at hnone
      rw [if_neg hkind]
      refine .skip (outcome_take_other hother) ?_
      exact hnone

variable {inner : Nat → Walk (Expr Unit)} {arm : Walk (Stmt Unit)} {t : Token}

theorem declaration_ends {ty : Ty} (ht : t.kind.ty? = some ty) (hinner : ExprsEnd tape inner n)
    (hi : i ≤ tape.size) (hn : tape.left i < n) :
    Ends tape 0 (declaration tape t ty (inner 0)) i
      (run (Reading.stmt tape.last.span (t :: tape.rest i))) := by
  rw [Reading.run_stmt_declare _ ht]
  refine (ident_ends hi).andThen fun name j hj hsize => ?_
  refine (expect_ends (by decide) hsize).andThen fun _ k hk hsize => ?_
  refine (hinner 0 k hsize (left_lt (by omega) hn)).andThen fun init l _ hsize => ?_
  exact (expect_ends (by decide) hsize).andThen fun last _ _ hsize => .pure hsize _

theorem printing_ends (ht : t.kind = .sayKw) (hinner : ExprsEnd tape inner n) (hi : i ≤ tape.size)
    (hn : tape.left i < n) :
    Ends tape 0 (printing tape t (inner 0)) i
      (run (Reading.stmt tape.last.span (t :: tape.rest i))) := by
  rw [Reading.run_stmt_print _ ht]
  refine (hinner 0 i hi hn).andThen fun value j _ hsize => ?_
  exact (expect_ends (by decide) hsize).andThen fun last _ _ hsize => .pure hsize _

theorem conditional_ends (ht : t.kind = .ifKw) (hinner : ExprsEnd tape inner n)
    (harm : StmtsEnd tape arm n) (hi : i ≤ tape.size) (hn : tape.left i < n) :
    Ends tape 0 (conditional tape t (inner 0) arm) i
      (run (Reading.stmt tape.last.span (t :: tape.rest i))) := by
  rw [Reading.run_stmt_if _ ht]
  refine (expect_ends (by decide) hi).andThen fun _ j hj hsize => ?_
  refine (hinner 0 j hsize (left_lt hj hn)).andThen fun condition k hk hsize => ?_
  refine (expect_ends (by decide) hsize).andThen fun _ l hl hsize => ?_
  refine (harm l hsize (left_lt (by omega) hn)).andThen fun thenArm m hm hsize => ?_
  refine (otherwise_ends harm hsize (left_lt (by omega) hn)).andThen fun elseArm _ _ hsize => ?_
  cases elseArm with
  | none => exact .pure hsize _
  | some elseArm => exact .pure hsize _

theorem braces_ends (ht : t.kind = .lbrace) (harm : StmtsEnd tape arm n) (hi : i ≤ tape.size)
    (hn : tape.left i < n) :
    Ends tape 0 (braces tape t arm) i
      (run (Reading.stmt tape.last.span (t :: tape.rest i))) := by
  rw [Reading.run_stmt_block _ ht, braces]
  apply Ends.allowance
  refine (block_ends harm hi hn (Nat.le_refl _)).andThen fun body j _ hsize => ?_
  exact (expect_ends (by decide) hsize).andThen fun last _ _ hsize => .pure hsize _

theorem stmt_ends (depth : Nat) : StmtsEnd tape (stmt tape depth) depth := by
  induction depth with
  | zero => exact fun _ _ hn => absurd hn (Nat.not_lt_zero _)
  | succ depth ih =>
    intro i hi hn
    rw [stmt]
    cases hrest : tape.rest i with
    | nil =>
      apply Ends.advance_of_nil hrest
      rw [blame_last, Reading.run_stmt_nil]
      simp only [tape.kind_last, Token.Kind.ty?, reduceCtorEq, if_false]
      exact .throw hi _
    | cons t ts =>
      -- What follows `t` has fewer tokens left, so it may be nested one less deep.
      have hsize := Tape.lt_size hrest
      have hleft := left_succ_lt hrest (Nat.le_of_lt_succ hn)
      apply Ends.advance_of_cons hrest
      rw [← Tape.rest_succ hrest]
      cases hty : t.kind.ty? with
      | some ty => exact declaration_ends hty (expr_ends depth) hsize hleft
      | none =>
        dsimp only
        split
        · rename_i hprint
          exact printing_ends hprint (expr_ends depth) hsize hleft
        · split
          · rename_i hif
            exact conditional_ends hif (expr_ends depth) ih hsize hleft
          · split
            · rename_i hblock
              exact braces_ends hblock ih hsize hleft
            · have hother : t.kind.startsStatement = false := by
                simp_all [Token.Kind.startsStatement]
              rw [Reading.run_stmt_other _ hother]
              exact .throw hsize _

end Statements

section Programs

theorem piece_ends {t : Token} {ts : List Token} (hrest : tape.rest i = t :: ts) :
    Ends tape 1 (piece tape) i
      (if t.kind ∈ [.identifier, .int, .dot, .slash] then .ok (t.text, ts)
        else .error (t.blame .invalidImportPath)) := by
  have hsize := Tape.lt_size hrest
  rw [piece]
  apply Ends.advance_of_cons hrest
  rw [← Tape.rest_succ hrest]
  split
  · exact .pure hsize _
  · exact .throw hsize _

theorem path_ends (hi : i ≤ tape.size) (hrounds : tape.left i ≤ rounds) :
    Ends tape 0 (path tape rounds) i (run (Reading.path (tape.rest i))) := by
  refine .collect (n := tape.left i) (fun ts => run (Reading.path ts))
    (by simp [tape.kind_last]) rfl ?_ ?_ hi (Nat.le_refl _) hrounds
  · intro t ts ht hmore
    have hclose : t.kind = .greater := by simpa [ht] using hmore
    rw [Reading.run_path_cons, if_pos hclose]
  · intro i t ts hrest _ hmore
    have hclose : t.kind ≠ .greater := by simp_all
    refine ⟨_, piece_ends hrest, ?_⟩
    rw [Reading.run_path_cons, if_neg hclose]
    split <;> rfl

theorem import_ends (hi : i ≤ tape.size) :
    Ends tape 1 («import» tape) i (run (Reading.import tape.last.span (tape.rest i))) := by
  rw [«import», Reading.run_import]
  refine (expect_ends (by decide) hi).bind (m := 0) fun first j hj hsize => ?_
  refine (expect_ends (by decide) hsize).andThen fun _ k hk hsize => ?_
  apply Ends.peek
  apply Ends.allowance
  refine (path_ends hsize (Nat.le_refl _)).andThen fun pieces j' hj' hsize => ?_
  rw [Tape.span_look]
  dsimp only
  split
  · exact .throw hsize _
  · refine (expect_ends (by decide) hsize).andThen fun _ k' _ hsize => ?_
    exact (expect_ends (by decide) hsize).andThen fun last l _ hsize => .pure hsize _

theorem imports_ends (hi : i ≤ tape.size) (hrounds : tape.left i ≤ rounds) :
    Ends tape 0 (imports tape rounds) i
      (run (Reading.imports tape.last.span (tape.rest i))) := by
  refine .collect (n := tape.left i) (fun ts => run (Reading.imports tape.last.span ts))
    (by simp [tape.kind_last]) (by simp) ?_ ?_ hi (Nat.le_refl _) hrounds
  · intro t ts _ hmore
    have huse : t.kind ≠ .useKw := by simpa using hmore
    rw [Reading.run_imports_cons, if_neg huse]
  · intro i t ts hrest _ hmore
    have huse : t.kind = .useKw := by simpa using hmore
    have hline := import_ends (Nat.le_of_lt (Tape.lt_size hrest))
    rw [hrest] at hline
    exact ⟨_, hline, by rw [Reading.run_imports_cons, if_pos huse]⟩

/-- What the statements of a program come to; nothing is left after them. -/
def bodyReading (stop : Span) (ts : List Token) :
    Except (Spanned ParseError) (List (Stmt Unit) × List Token) :=
  (Reading.body stop ts).map fun body => (body, [])

theorem topLevel_ends {depth : Nat} {t : Token} {ts : List Token} (hrest : tape.rest i = t :: ts)
    (hn : tape.left i < depth) :
    Ends tape 1 (topLevel tape depth) i
      (if t.kind.startsStatement then run (Reading.stmt tape.last.span (t :: ts))
        else .error (t.blame .unexpectedTopLevel)) := by
  have hi := Nat.le_of_lt (Tape.lt_size hrest)
  have hstmt := stmt_ends depth i hi hn
  rw [hrest] at hstmt
  rw [topLevel]
  apply Ends.peek
  rw [Tape.look_of_cons hrest]
  split
  · exact hstmt
  · exact .throw hi _

theorem body_ends {depth : Nat} (hi : i ≤ tape.size) (hn : tape.left i < depth)
    (hrounds : tape.left i ≤ rounds) :
    Ends tape 0 (body tape depth rounds) i (bodyReading tape.last.span (tape.rest i)) := by
  refine .collect (n := tape.left i) (bodyReading tape.last.span) (by simp [tape.kind_last])
    (by simp [bodyReading, Except.map]) ?_ ?_ hi (Nat.le_refl _) hrounds
  · intro t ts ht hmore
    simp [ht] at hmore
  · intro i t ts hrest hle _
    refine ⟨_, topLevel_ends hrest (by omega), ?_⟩
    rw [bodyReading, Reading.body_cons]
    split
    · cases run (Reading.stmt tape.last.span (t :: ts)) with
      | error e => rfl
      | ok x =>
        change Except.map _ (Reading.body tape.last.span x.2 >>= _) = bodyReading _ x.2 >>= _
        rw [bodyReading]
        cases Reading.body tape.last.span x.2 <;> rfl
    · rfl

/-- What a whole program comes to. -/
def programReading (stop : Span) (ts : List Token) :
    Except (Spanned ParseError) (Program Unit × List Token) :=
  run (Reading.imports stop ts) >>= fun x =>
    bodyReading stop x.2 >>= fun y => .ok (⟨x.1, y.1⟩, y.2)

theorem programReading_eq (l : Lexed) :
    programReading l.stopSpan l.tokens = l.program.map fun p => (p, []) := by
  rw [programReading, Lexed.program_eq]
  cases run (Reading.imports l.stopSpan l.tokens) with
  | error e => rfl
  | ok x =>
    change bodyReading l.stopSpan x.2 >>= _ = (Reading.body l.stopSpan x.2 >>= _).map _
    rw [bodyReading]
    cases Reading.body l.stopSpan x.2 <;> rfl

theorem program_ends {depth : Nat} (hi : i ≤ tape.size) (hn : tape.left i < depth) :
    Ends tape 0 (program tape depth) i (programReading tape.last.span (tape.rest i)) := by
  rw [program]
  apply Ends.allowance
  refine (imports_ends hi (Nat.le_refl _)).andThen fun imports j hj hsize => ?_
  apply Ends.allowance
  refine (body_ends hsize (left_lt hj hn) (Nat.le_refl _)).andThen fun body k _ hsize => ?_
  exact .pure hsize _

end Programs

/-- From a place, every walk over the tokens ends, each of its loops with no more rounds than there
are tokens left. -/
structure Progresses (tape : Tape) (i depth : Nat) : Prop where
  importLine : Ends tape 1 («import» tape) i
    (run (Reading.import tape.last.span (tape.rest i)))
  statement : Ends tape 1 (stmt tape depth) i (run (Reading.stmt tape.last.span (tape.rest i)))
  expression : ∀ power, Ends tape 1 (expr tape depth power) i
    (run (Reading.expr tape.last.span power (tape.rest i)))
  operand : Ends tape 1 (operand tape (expr tape depth 0)) i
    (run (Reading.operand tape.last.span (tape.rest i)))
  importLoop : Ends tape 0 (imports tape (tape.left i)) i
    (run (Reading.imports tape.last.span (tape.rest i)))
  pathLoop : Ends tape 0 (path tape (tape.left i)) i (run (Reading.path (tape.rest i)))
  blockLoop : Ends tape 0 (block tape (stmt tape depth) (tape.left i)) i
    (run (Reading.stmts tape.last.span (tape.rest i)))
  operatorLoop : ∀ power lhs, Ends tape 0 (operators tape (expr tape depth) power (tape.left i) lhs)
    i (run (Reading.operators tape.last.span power lhs (tape.rest i)))
  bodyLoop : Ends tape 0 (body tape depth (tape.left i)) i
    (bodyReading tape.last.span (tape.rest i))

theorem progresses {depth : Nat} (hi : i ≤ tape.size) (hdepth : tape.left i < depth) :
    Progresses tape i depth where
  importLine := import_ends hi
  statement := stmt_ends depth i hi hdepth
  expression power := expr_ends depth power i hi hdepth
  operand := operand_ends (expr_ends depth) hi (Nat.le_of_lt hdepth)
  importLoop := imports_ends hi (Nat.le_refl _)
  pathLoop := path_ends hi (Nat.le_refl _)
  blockLoop := block_ends (stmt_ends depth) hi hdepth (Nat.le_refl _)
  operatorLoop power lhs :=
    operators_ends (expr_ends depth) power lhs hi (Nat.le_of_lt hdepth) (Nat.le_refl _)
  bodyLoop := body_ends hi hdepth (Nat.le_refl _)

end Walk

/-- Every round over a text takes characters, except for the one that finds the end; and so every
loop over a text ends. -/
structure Lexing.Progresses (src : String) : Prop where
  trivia : ∀ s : Text.Cursor, Lexeme.triviaAhead s.rest = true →
    ∃ s' taken, Lexeme.triviaRound s = some s' ∧ s.Passes taken s' ∧ taken ≠ []
  token : ∀ s : Text.Cursor, ∃ t errors s' taken, Lexeme.nextToken s = some (t, errors, s') ∧
    s.Passes taken s' ∧ (t.kind ≠ .eof → taken ≠ [])
  run : ∀ (p : Char → Bool) (s : Text.Cursor), s.passWhile p = some (s.runEnd p)
  string : ∀ cs, Lexeme.Quoting.run cs = some ⟨Lexeme.scanBody cs, true⟩
  whole : ∃ s, Lexing.run src = some s ∧ s.tokens = (Lexed.ofSource src).all ∧
    s.errors = (Lexed.ofSource src).errors

theorem Lexing.progresses (src : String) : Lexing.Progresses src where
  trivia s h := by
    obtain ⟨s', taken, hround, hpasses, hne, -⟩ := Lexeme.triviaRound_ends h
    exact ⟨s', taken, hround, hpasses, hne⟩
  token s := by
    obtain ⟨t, errors, s', taken, hnext, hpasses, hne, -⟩ := Lexeme.nextToken_ends s
    exact ⟨t, errors, s', taken, hnext, hpasses, hne⟩
  run := Text.Cursor.passWhile_eq
  string := Lexeme.Quoting.run_eq
  whole := Lexing.run_ends src

/-- The tokens of a text. -/
def Tape.ofSource (src : String) : Tape where
  front := (Lexed.ofSource src).tokens
  last := .eof (Lexed.ofSource src).stop
  kind_last := rfl
  kind_front _ ht := Lexed.kind_ne_eof_of_mem ht

theorem Walk.program_ofSource_ends (src : String) {depth : Nat}
    (hdepth : (Tape.ofSource src).size < depth) :
    Ends (.ofSource src) 0 (program (.ofSource src) depth) 0
      ((Lexed.ofSource src).program.map fun p => (p, [])) := by
  rw [← programReading_eq]
  exact program_ends (Nat.zero_le _) hdepth

/-- Reading ends, since every round makes progress. Over a text, a round takes characters unless it
finds the end. Over tokens, a walk from any place that is not past the last token ends at such a
place, and it passes a token if it finds an import, a statement, an expression or an operand; each
loop takes no more rounds than there are tokens left. Altogether the program of every text is read.
-/
theorem reading_progresses (src : String) (tape : Tape) {i depth : Nat} (hi : i ≤ tape.size)
    (hdepth : tape.left i < depth) :
    Lexing.Progresses src ∧ Walk.Progresses tape i depth ∧
      Walk.Ends (.ofSource src) 0 (Walk.program (.ofSource src) ((Tape.ofSource src).size + 1)) 0
        ((Lexed.ofSource src).program.map fun p => (p, [])) :=
  ⟨Lexing.progresses src, Walk.progresses hi hdepth,
    Walk.program_ofSource_ends src (Nat.lt_add_one _)⟩

/-- A block that is never closed: its loop ends at the last token, and the cursor stays there. -/
theorem reading_progresses_open_block :
    let tape : Tape := ⟨[⟨.lbrace, "\x7b", none, .ofBounds 0 1⟩], .eof 1, rfl, by simp⟩
    0 ≤ tape.size ∧ tape.left 0 < 2 ∧ Walk.Progresses tape 0 2 ∧
      (Walk.stmt tape 2).outcome 0 = some (.error ⟨.ofBounds 1 1, .unexpected .eof .rbrace⟩, 1) ∧
      1 = tape.size := by
  intro tape
  have hi : 0 ≤ tape.size := by decide
  have hdepth : tape.left 0 < 2 := by decide
  exact ⟨hi, hdepth, (reading_progresses "\x7b" tape hi hdepth).2.1, rfl, rfl⟩

end HumanScript
