import HumanScript.Proofs.Parsing.Expressions

/-! Reading statements finds the tree that the tokens spell, with every `else` at the nearest
`if`. -/
namespace HumanScript

theorem Grammar.PlacedStmt.head {ts : List Token} {s : Stmt Unit} (h : PlacedStmt ts s) :
    ∃ t us, ts = t :: us ∧ t.kind.startsStatement = true := by
  cases h with
  | declare ht => exact ⟨_, _, rfl, by simp [Token.Kind.startsStatement, ht]⟩
  | print ht => exact ⟨_, _, rfl, by simp [ht, Token.Kind.startsStatement]⟩
  | ifThen ht => exact ⟨_, _, rfl, by simp [ht, Token.Kind.startsStatement]⟩
  | ifElse ht => exact ⟨_, _, rfl, by simp [ht, Token.Kind.startsStatement]⟩
  | block ht => exact ⟨_, _, rfl, by simp [ht, Token.Kind.startsStatement]⟩

namespace Reading
open Grammar (SpellsStmt SpellsExpr PlacedStmt)
variable {stop : Span}

/-- Whatever no statement starts with does not come next in a row of statements. -/
theorem notNext_of_parts {kind : Token.Kind} (hkind : kind.startsStatement = false)
    {parts : List (List Token × Stmt Unit)} (hparts : ∀ p ∈ parts, PlacedStmt p.1 p.2)
    {rest : List Token} (hrest : NotNext kind rest) :
    NotNext kind ((parts.map Prod.fst).flatten ++ rest) := by
  cases parts with
  | nil => exact hrest
  | cons p parts =>
    obtain ⟨t, us, hts, hstart⟩ := (hparts p (by simp)).head
    rw [List.map_cons, List.flatten_cons, hts]
    refine notNext_cons.mpr ?_
    rintro rfl
    rw [hkind] at hstart
    cases hstart

/-- Tokens are read as the statement `s` and nothing more, unless an `else` may still follow. -/
def ReadsStmt (stop : Span) (ts : List Token) (s : Stmt Unit) : Prop :=
  ∀ rest, (s.endsOpen = true → NotNext .elseKw rest) → run (stmt stop (ts ++ rest)) = .ok (s, rest)

theorem run_stmts_of_placed {parts : List (List Token × Stmt Unit)}
    (hparts : ∀ p ∈ parts, PlacedStmt p.1 p.2) (hread : ∀ p ∈ parts, ReadsStmt stop p.1 p.2)
    {u : Token} (hu : u.kind = .rbrace) (rest : List Token) :
    run (stmts stop ((parts.map Prod.fst).flatten ++ u :: rest)) =
      .ok (parts.map Prod.snd, u :: rest) := by
  induction parts with
  | nil => exact (run_stmts_cons stop u rest).trans (if_pos hu)
  | cons p parts ih =>
    have hparts' : ∀ q ∈ parts, PlacedStmt q.1 q.2 := fun q hq => hparts q (by simp [hq])
    have hstmts := ih hparts' fun q hq => hread q (by simp [hq])
    obtain ⟨t, us, hts, hstart⟩ := (hparts p (by simp)).head
    have hbrace : t.kind ≠ .rbrace := fun hk => by simp [hk, Token.Kind.startsStatement,
      Token.Kind.ty?] at hstart
    have hnext : NotNext .elseKw ((parts.map Prod.fst).flatten ++ u :: rest) :=
      notNext_of_parts rfl hparts' (by simp [hu])
    have hhead := hread p (by simp) ((parts.map Prod.fst).flatten ++ u :: rest) fun _ => hnext
    rw [hts, List.cons_append] at hhead
    rw [List.map_cons, List.flatten_cons, hts, List.append_assoc, List.cons_append,
      run_stmts_cons, if_neg hbrace, hhead]
    simp only [Except.ok_bind, hstmts, List.map_cons]

theorem readsStmt_of_placed {ts : List Token} {s : Stmt Unit} (h : PlacedStmt ts s)
    (hnear : s.ElseNearest) : ReadsStmt stop ts s := by
  induction h with
  | @declare t n a u ts ty init ht hn ha hinit hu =>
    intro rest _
    have hexpr : run (expr stop 0 (ts ++ u :: rest)) = .ok (init, u :: rest) :=
      run_expr_of_placed stop hinit (by simp [hu]) (by simp [hu])
    rw [List.cons_append, List.cons_append, List.cons_append, List.append_assoc,
      run_stmt_declare stop ht]
    simp [run_ident, hn, ha, hexpr, hu]
  | @print t u ts value ht hvalue hu =>
    intro rest _
    have hexpr : run (expr stop 0 (ts ++ u :: rest)) = .ok (value, u :: rest) :=
      run_expr_of_placed stop hvalue (by simp [hu]) (by simp [hu])
    rw [List.cons_append, List.append_assoc, run_stmt_print stop ht]
    simp [hexpr, hu]
  | @ifThen t o c ts as condition thenArm ht ho hcond hc hthen ih =>
    cases hnear with
    | ifThen hnear =>
      intro rest hrest
      have hnext : NotNext .elseKw rest := hrest rfl
      have hexpr : run (expr stop 0 (ts ++ c :: (as ++ rest))) =
          .ok (condition, c :: (as ++ rest)) :=
        run_expr_of_placed stop hcond (by simp [hc]) (by simp [hc])
      have hnone : run (otherwise stop rest) = .ok (none, rest) := by
        cases rest with
        | nil => simp
        | cons u us => rw [run_otherwise_cons, if_neg (notNext_cons.mp hnext)]
      rw [List.cons_append, List.cons_append, List.append_assoc, run_stmt_if stop ht]
      simp [ho, hexpr, hc, ih hnear rest fun _ => hnext, hnone]
  | @ifElse t o c e ts as bs condition thenArm elseArm ht ho hcond hc hthen he helse iha ihb =>
    cases hnear with
    | ifElse hclosed hnthen hnelse =>
      intro rest hrest
      have hexpr : run (expr stop 0 (ts ++ c :: (as ++ e :: (bs ++ rest)))) =
          .ok (condition, c :: (as ++ e :: (bs ++ rest))) :=
        run_expr_of_placed stop hcond (by simp [hc]) (by simp [hc])
      -- The first arm is closed, so the `else` after it is not its own.
      have harm := iha hnthen (e :: (bs ++ rest)) fun hopen => by rw [hclosed] at hopen; cases hopen
      have hother : run (otherwise stop (e :: (bs ++ rest))) = .ok (some elseArm, rest) := by
        rw [run_otherwise_cons, if_pos he, ihb hnelse rest hrest]
        rfl
      rw [List.cons_append, List.cons_append, List.append_assoc, run_stmt_if stop ht]
      simp [ho, hexpr, hc, harm, hother]
  | @block t u parts ht hparts hu ih =>
    cases hnear with
    | block hnear =>
      intro rest _
      have hstmts := run_stmts_of_placed hparts
        (fun p hp => ih p hp (hnear p.2 (List.mem_map_of_mem hp))) hu rest
      rw [List.cons_append, List.append_assoc, run_stmt_block stop ht]
      simp [hstmts, hu]

/-- What is known of a statement that was read: its tokens spell it, each `else` in it belongs to
the nearest `if`, and no `else` that it could take was left. -/
structure Spelled (s : Stmt Unit) (ts rest used : List Token) : Prop where
  split : ts = used ++ rest
  spells : SpellsStmt used s
  nearest : s.ElseNearest
  closed : s.endsOpen = true → NotNext .elseKw rest

/-- Statements of up to `n` tokens are spelled by what was read. -/
def StmtsSpelled (stop : Span) (n : Nat) : Prop :=
  ∀ ⦃ts rest : List Token⦄ ⦃s : Stmt Unit⦄, ts.length ≤ n → (∀ t ∈ ts, t.ValueFits) →
    run (stmt stop ts) = .ok (s, rest) → ∃ used, Spelled s.unplaced ts rest used

variable {n : Nat}

/-- A body is read part by part. -/
theorem spells_of_run_stmts (hstmts : StmtsSpelled stop n) {ts rest : List Token}
    {body : List (Stmt Unit)} (hlen : ts.length ≤ n) (hfit : ∀ t ∈ ts, t.ValueFits)
    (h : run (stmts stop ts) = .ok (body, rest)) :
    ∃ parts : List (List Token × Stmt Unit), ts = (parts.map Prod.fst).flatten ++ rest ∧
      body.map Stmt.unplaced = parts.map Prod.snd ∧
      ∀ p ∈ parts, SpellsStmt p.1 p.2 ∧ p.2.ElseNearest := by
  obtain ⟨k, hk⟩ : ∃ k, ts.length = k := ⟨_, rfl⟩
  induction k using Nat.strongRecOn generalizing ts body with
  | _ k ih =>
    cases ts with
    | nil =>
      rw [run_stmts_nil] at h
      simp only [Except.ok.injEq, Prod.mk.injEq] at h
      obtain ⟨rfl, rfl⟩ := h
      exact ⟨[], rfl, rfl, by simp⟩
    | cons t ts =>
      rw [run_stmts_cons] at h
      by_cases hbrace : t.kind = .rbrace
      · rw [if_pos hbrace] at h
        simp only [Except.ok.injEq, Prod.mk.injEq] at h
        obtain ⟨rfl, rfl⟩ := h
        exact ⟨[], rfl, rfl, by simp⟩
      · rw [if_neg hbrace] at h
        obtain ⟨⟨s, mid⟩, hstmt, hmore⟩ := Except.bind_eq_ok_iff.mp h
        obtain ⟨⟨body', after⟩, hrest, hdone⟩ := Except.bind_eq_ok_iff.mp hmore
        simp only [Except.ok.injEq, Prod.mk.injEq] at hdone
        obtain ⟨rfl, rfl⟩ := hdone
        have hlt := length_lt_of_run hstmt
        obtain ⟨used, hs⟩ := hstmts hlen hfit hstmt
        rw [hs.split] at hfit
        simp only [List.mem_append] at hfit
        obtain ⟨parts, hmid, hbody, hparts⟩ := ih mid.length (by omega) (by omega)
          (fun u hu => hfit u (.inr hu)) hrest rfl
        refine ⟨(used, s.unplaced) :: parts, ?_, ?_, ?_⟩
        · rw [hs.split, hmid]
          simp
        · rw [List.map_cons, hbody, List.map_cons]
        · exact List.forall_mem_cons.mpr ⟨⟨hs.spells, hs.nearest⟩, hparts⟩

/-- The second arm of a conditional: there is none exactly if no `else` comes next. -/
theorem spells_of_run_otherwise (hstmts : StmtsSpelled stop n) {ts rest : List Token}
    {arm : Option (Stmt Unit)} (hlen : ts.length ≤ n) (hfit : ∀ t ∈ ts, t.ValueFits)
    (h : run (otherwise stop ts) = .ok (arm, rest)) :
    (arm = none ∧ rest = ts ∧ NotNext .elseKw ts) ∨
      ∃ b e us used, arm = some b ∧ ts = e :: us ∧ e.kind = .elseKw ∧
        Spelled b.unplaced us rest used := by
  cases ts with
  | nil =>
    rw [run_otherwise_nil] at h
    simp only [Except.ok.injEq, Prod.mk.injEq] at h
    exact .inl ⟨h.1.symm, h.2.symm, notNext_nil _⟩
  | cons e us =>
    rw [run_otherwise_cons] at h
    by_cases he : e.kind = .elseKw
    · rw [if_pos he] at h
      obtain ⟨⟨b, after⟩, hstmt, hdone⟩ := Except.bind_eq_ok_iff.mp h
      simp only [Except.ok.injEq, Prod.mk.injEq] at hdone
      obtain ⟨rfl, rfl⟩ := hdone
      rw [List.length_cons] at hlen
      obtain ⟨used, hb⟩ := hstmts (by omega) (fun u hu => hfit u (by simp [hu])) hstmt
      exact .inr ⟨b, e, us, used, rfl, rfl, he, hb⟩
    · rw [if_neg he] at h
      simp only [Except.ok.injEq, Prod.mk.injEq] at h
      exact .inl ⟨h.1.symm, h.2.symm, notNext_cons.mpr he⟩

theorem spelled_of_run_declare {t : Token} {ty : Ty} (ht : t.kind.ty? = some ty)
    {ts rest : List Token} {s : Stmt Unit} (hfit : ∀ u ∈ ts, u.ValueFits)
    (h : run (stmt stop (t :: ts)) = .ok (s, rest)) :
    ∃ used, Spelled s.unplaced (t :: ts) rest used := by
  rw [run_stmt_declare stop ht, run_ident] at h
  simp only [Except.bind_eq_ok_iff, Prod.exists, run_expect_eq_ok_iff, Except.ok.injEq,
    Prod.mk.injEq] at h
  obtain ⟨_, _, ⟨n, _, ⟨rfl, hn⟩, rfl, rfl⟩, a, _, ⟨rfl, ha⟩, init, _, hinit, u, _, ⟨rfl, hu⟩,
    rfl, rfl⟩ := h
  obtain ⟨es, rfl, he⟩ := spells_of_run_expr (fun v hv => hfit v (by simp [hv])) hinit
  exact ⟨_, by simp, .declare ht hn ha he hu, .declare, fun hopen => by cases hopen⟩

theorem spelled_of_run_print {t : Token} (ht : t.kind = .sayKw) {ts rest : List Token}
    {s : Stmt Unit} (hfit : ∀ u ∈ ts, u.ValueFits)
    (h : run (stmt stop (t :: ts)) = .ok (s, rest)) :
    ∃ used, Spelled s.unplaced (t :: ts) rest used := by
  rw [run_stmt_print stop ht] at h
  simp only [Except.bind_eq_ok_iff, Prod.exists, run_expect_eq_ok_iff, Except.ok.injEq,
    Prod.mk.injEq] at h
  obtain ⟨value, _, hvalue, u, _, ⟨rfl, hu⟩, rfl, rfl⟩ := h
  obtain ⟨es, rfl, he⟩ := spells_of_run_expr hfit hvalue
  exact ⟨_, by simp, .print ht he hu, .print, fun hopen => by cases hopen⟩

theorem spelled_of_run_if (hstmts : StmtsSpelled stop n) {t : Token} (ht : t.kind = .ifKw)
    {ts rest : List Token} {s : Stmt Unit} (hlen : ts.length ≤ n) (hfit : ∀ u ∈ ts, u.ValueFits)
    (h : run (stmt stop (t :: ts)) = .ok (s, rest)) :
    ∃ used, Spelled s.unplaced (t :: ts) rest used := by
  rw [run_stmt_if stop ht] at h
  simp only [Except.bind_eq_ok_iff, Prod.exists, run_expect_eq_ok_iff, Except.ok.injEq,
    Prod.mk.injEq] at h
  obtain ⟨o, _, ⟨rfl, ho⟩, condition, _, hcond, c, _, ⟨rfl, hc⟩, thenArm, _, hthen, elseArm, _,
    hother, rfl, rfl⟩ := h
  obtain ⟨cs, rfl, hcs⟩ := spells_of_run_expr (fun v hv => hfit v (by simp [hv])) hcond
  simp only [List.length_cons, List.length_append] at hlen
  obtain ⟨as, ha⟩ := hstmts (by omega) (fun v hv => hfit v (by simp [hv])) hthen
  obtain rfl := ha.split
  rw [List.length_append] at hlen
  rcases spells_of_run_otherwise hstmts (by omega) (fun v hv => hfit v (by simp [hv])) hother with
    ⟨rfl, rfl, hnext⟩ | ⟨b, e, us, bs, rfl, rfl, he, hb⟩
  · exact ⟨_, by simp, .ifThen ht ho hcs hc ha.spells, .ifThen ha.nearest, fun _ => hnext⟩
  · -- The first arm did not take the `else`, so it is closed.
    have hclosed : thenArm.unplaced.endsOpen = false := by
      cases hopen : thenArm.unplaced.endsOpen with
      | false => rfl
      | true => exact absurd he (notNext_cons.mp (ha.closed hopen))
    refine ⟨_, ?_, .ifElse ht ho hcs hc ha.spells he hb.spells,
      .ifElse hclosed ha.nearest hb.nearest, hb.closed⟩
    rw [hb.split]
    simp

theorem spelled_of_run_block (hstmts : StmtsSpelled stop n) {t : Token} (ht : t.kind = .lbrace)
    {ts rest : List Token} {s : Stmt Unit} (hlen : ts.length ≤ n) (hfit : ∀ u ∈ ts, u.ValueFits)
    (h : run (stmt stop (t :: ts)) = .ok (s, rest)) :
    ∃ used, Spelled s.unplaced (t :: ts) rest used := by
  rw [run_stmt_block stop ht] at h
  simp only [Except.bind_eq_ok_iff, Prod.exists, run_expect_eq_ok_iff, Except.ok.injEq,
    Prod.mk.injEq] at h
  obtain ⟨body, _, hbody, u, _, ⟨rfl, hu⟩, rfl, rfl⟩ := h
  obtain ⟨parts, rfl, htrees, hparts⟩ := spells_of_run_stmts hstmts hlen hfit hbody
  rw [Stmt.unplaced_block, htrees]
  refine ⟨_, by simp, .block ht (fun p hp => (hparts p hp).1) hu, .block ?_,
    by simp [Stmt.endsOpen]⟩
  intro s hs
  obtain ⟨p, hp, rfl⟩ := List.mem_map.mp hs
  exact (hparts p hp).2

/-- Arms and bodies have fewer tokens than the statement they are in. -/
theorem stmtsSpelled (stop : Span) (n : Nat) : StmtsSpelled stop n := by
  induction n with
  | zero =>
    intro ts rest s hlen _ h
    rw [List.length_eq_zero_iff.mp (Nat.le_zero.mp hlen), run_stmt_nil] at h
    cases h
  | succ n ih =>
    intro ts rest s hlen hfit h
    cases ts with
    | nil =>
      rw [run_stmt_nil] at h
      cases h
    | cons t ts =>
      rw [List.length_cons] at hlen
      have hlen' : ts.length ≤ n := by omega
      have hfit' : ∀ u ∈ ts, u.ValueFits := fun u hu => hfit u (by simp [hu])
      cases hstart : t.kind.startsStatement with
      | false =>
        rw [run_stmt_other stop hstart] at h
        cases h
      | true =>
        rcases startsStatement_cases hstart with ⟨ty, ht⟩ | ht | ht | ht
        · exact spelled_of_run_declare ht hfit' h
        · exact spelled_of_run_print ht hfit' h
        · exact spelled_of_run_if ih ht hlen' hfit' h
        · exact spelled_of_run_block ih ht hlen' hfit' h

end Reading
end HumanScript
