import HumanScript.Proofs.Lexing
import HumanScript.Proofs.Parsing.Statements

/-! A text is read as a program exactly if the kinds of its tokens are derived by the grammar, and
the program is the tree that the tokens spell with every `else` at the nearest `if`. -/
namespace HumanScript

theorem Grammar.PlacedImport.head {ts : List Token} {i : Import} (h : PlacedImport ts i) :
    ∃ t us, ts = t :: us ∧ t.kind = .useKw := by
  cases h with
  | use ht => exact ⟨_, _, rfl, ht⟩

namespace Reading
open Grammar (SpellsStmt SpellsImport PlacedStmt PlacedImport pathKinds)
variable {stop : Span}

theorem run_path_append {ps rest : List Token} {c : Token} (hps : ∀ p ∈ ps, p.kind ∈ pathKinds)
    (hc : c.kind = .greater) :
    run (path (ps ++ c :: rest)) = .ok (ps.map Token.text, c :: rest) := by
  induction ps with
  | nil => exact (run_path_cons c rest).trans (if_pos hc)
  | cons p ps ih =>
    have hp : p.kind ∈ [.identifier, .int, .dot, .slash] := hps p (by simp)
    have hgreater : p.kind ≠ .greater := fun hk => by simp [hk] at hp
    rw [List.cons_append, run_path_cons, if_neg hgreater, if_pos hp,
      ih fun q hq => hps q (by simp [hq])]
    rfl

theorem spells_of_run_path {ts rest : List Token} {pieces : List String}
    (h : run (path ts) = .ok (pieces, rest)) :
    ∃ ps : List Token, ts = ps ++ rest ∧ pieces = ps.map Token.text ∧
      ∀ p ∈ ps, p.kind ∈ pathKinds := by
  induction ts generalizing pieces with
  | nil =>
    simp only [run_path_nil, Except.ok.injEq, Prod.mk.injEq] at h
    exact ⟨[], by simp [h.2], h.1.symm, by simp⟩
  | cons t ts ih =>
    rw [run_path_cons] at h
    split at h
    · simp only [Except.ok.injEq, Prod.mk.injEq] at h
      exact ⟨[], by simp [h.2], h.1.symm, by simp⟩
    · split at h
      · rename_i hk
        simp only [Except.bind_eq_ok_iff, Prod.exists, Except.ok.injEq, Prod.mk.injEq] at h
        obtain ⟨more, _, hmore, rfl, rfl⟩ := h
        obtain ⟨ps, rfl, rfl, hps⟩ := ih hmore
        exact ⟨t :: ps, rfl, rfl, List.forall_mem_cons.mpr ⟨hk, hps⟩⟩
      · cases h

theorem run_import_of_placed {ts : List Token} {i : Import} (h : PlacedImport ts i)
    (rest : List Token) : run («import» stop (ts ++ rest)) = .ok (i, rest) := by
  cases h with
  | @use t o c u ps ht ho hne hps hc hu =>
    have hpath : run (path (ps ++ c :: u :: rest)) = .ok (ps.map Token.text, c :: u :: rest) :=
      run_path_append hps hc
    rw [List.cons_append, List.cons_append, List.append_assoc, run_import]
    simp [ht, ho, hpath, hne, hc, hu]

theorem spells_of_run_import {ts rest : List Token} {i : Import}
    (h : run («import» stop ts) = .ok (i, rest)) :
    ∃ used, ts = used ++ rest ∧ SpellsImport used i.unplaced := by
  rw [run_import] at h
  simp only [Except.bind_eq_ok_iff, Prod.exists, run_expect_eq_ok_iff] at h
  obtain ⟨t, _, ⟨rfl, ht⟩, o, _, ⟨rfl, ho⟩, pieces, mid, hpath, h⟩ := h
  split at h
  · cases h
  · rename_i hne
    simp only [Except.bind_eq_ok_iff, Prod.exists, run_expect_eq_ok_iff, Except.ok.injEq,
      Prod.mk.injEq] at h
    obtain ⟨c, _, ⟨rfl, hc⟩, u, _, ⟨rfl, hu⟩, rfl, rfl⟩ := h
    obtain ⟨ps, rfl, rfl, hps⟩ := spells_of_run_path hpath
    exact ⟨_, by simp, .use ht ho (by simpa using hne) hps hc hu⟩

theorem run_imports_of_placed {parts : List (List Token × Import)}
    (hparts : ∀ p ∈ parts, PlacedImport p.1 p.2) {rest : List Token} (hrest : NotNext .useKw rest) :
    run (imports stop ((parts.map Prod.fst).flatten ++ rest)) = .ok (parts.map Prod.snd, rest) := by
  induction parts with
  | nil =>
    cases rest with
    | nil => exact run_imports_nil stop
    | cons t ts => exact (run_imports_cons stop t ts).trans (if_neg (notNext_cons.mp hrest))
  | cons p parts ih =>
    have hmore := ih fun q hq => hparts q (by simp [hq])
    obtain ⟨t, us, hts, ht⟩ := (hparts p (by simp)).head
    have hhead : run («import» stop (p.1 ++ ((parts.map Prod.fst).flatten ++ rest))) =
        .ok (p.2, (parts.map Prod.fst).flatten ++ rest) :=
      run_import_of_placed (hparts p (by simp)) _
    rw [hts, List.cons_append] at hhead
    rw [List.map_cons, List.flatten_cons, hts, List.append_assoc, List.cons_append,
      run_imports_cons, if_pos ht, hhead]
    simp [hmore]

theorem spells_of_run_imports {ts rest : List Token} {is : List Import}
    (h : run (imports stop ts) = .ok (is, rest)) :
    ∃ parts : List (List Token × Import), ts = (parts.map Prod.fst).flatten ++ rest ∧
      is.map Import.unplaced = parts.map Prod.snd ∧ ∀ p ∈ parts, SpellsImport p.1 p.2 := by
  obtain ⟨k, hk⟩ : ∃ k, ts.length = k := ⟨_, rfl⟩
  induction k using Nat.strongRecOn generalizing ts is with
  | _ k ih =>
    cases ts with
    | nil =>
      simp only [run_imports_nil, Except.ok.injEq, Prod.mk.injEq] at h
      exact ⟨[], by simp [h.2], by simp [← h.1], by simp⟩
    | cons t ts =>
      rw [run_imports_cons] at h
      split at h
      · simp only [Except.bind_eq_ok_iff, Prod.exists, Except.ok.injEq, Prod.mk.injEq] at h
        obtain ⟨i, mid, himport, more, _, hmore, rfl, rfl⟩ := h
        have hlt := length_lt_of_run himport
        obtain ⟨parts, hmid, htrees, hparts⟩ := ih mid.length (by omega) hmore rfl
        obtain ⟨used, hsplit, hi⟩ := spells_of_run_import himport
        refine ⟨(used, i.unplaced) :: parts, ?_, by simp [htrees],
          List.forall_mem_cons.mpr ⟨hi, hparts⟩⟩
        rw [hsplit, hmid]
        simp
      · simp only [Except.ok.injEq, Prod.mk.injEq] at h
        exact ⟨[], by simp [h.2], by simp [← h.1], by simp⟩

theorem body_of_placed {parts : List (List Token × Stmt Unit)}
    (hparts : ∀ p ∈ parts, PlacedStmt p.1 p.2) (hnear : ∀ p ∈ parts, p.2.ElseNearest) :
    body stop (parts.map Prod.fst).flatten = .ok (parts.map Prod.snd) := by
  induction parts with
  | nil => simp
  | cons p parts ih =>
    have hparts' : ∀ q ∈ parts, PlacedStmt q.1 q.2 := fun q hq => hparts q (by simp [hq])
    have hbody := ih hparts' fun q hq => hnear q (by simp [hq])
    obtain ⟨t, us, hts, hstart⟩ := (hparts p (by simp)).head
    have hnext : NotNext .elseKw ((parts.map Prod.fst).flatten ++ []) :=
      notNext_of_parts rfl hparts' (notNext_nil _)
    rw [List.append_nil] at hnext
    have hhead : run (stmt stop (p.1 ++ (parts.map Prod.fst).flatten)) =
        .ok (p.2, (parts.map Prod.fst).flatten) :=
      readsStmt_of_placed (hparts p (by simp)) (hnear p (by simp)) _ fun _ => hnext
    rw [hts, List.cons_append] at hhead
    rw [List.map_cons, List.flatten_cons, hts, List.cons_append, body_cons, if_pos hstart, hhead]
    simp [hbody]

theorem spells_of_body {ts : List Token} {ss : List (Stmt Unit)} (hfit : ∀ t ∈ ts, t.ValueFits)
    (h : body stop ts = .ok ss) :
    ∃ parts : List (List Token × Stmt Unit), ts = (parts.map Prod.fst).flatten ∧
      ss.map Stmt.unplaced = parts.map Prod.snd ∧
      ∀ p ∈ parts, SpellsStmt p.1 p.2 ∧ p.2.ElseNearest := by
  obtain ⟨k, hk⟩ : ∃ k, ts.length = k := ⟨_, rfl⟩
  induction k using Nat.strongRecOn generalizing ts ss with
  | _ k ih =>
    cases ts with
    | nil =>
      simp only [body_nil, Except.ok.injEq] at h
      exact ⟨[], rfl, by simp [← h], by simp⟩
    | cons t ts =>
      rw [body_cons] at h
      split at h
      · simp only [Except.bind_eq_ok_iff, Prod.exists, Except.ok.injEq] at h
        obtain ⟨s, mid, hstmt, more, hmore, rfl⟩ := h
        have hlt := length_lt_of_run hstmt
        obtain ⟨used, hs⟩ := stmtsSpelled stop _ (Nat.le_refl _) hfit hstmt
        rw [hs.split] at hfit
        simp only [List.mem_append] at hfit
        obtain ⟨parts, hmid, htrees, hparts⟩ :=
          ih mid.length (by omega) (fun u hu => hfit u (.inr hu)) hmore rfl
        refine ⟨(used, s.unplaced) :: parts, ?_, by simp [htrees],
          List.forall_mem_cons.mpr ⟨⟨hs.spells, hs.nearest⟩, hparts⟩⟩
        rw [hs.split, hmid]
        simp
      · cases h

end Reading

namespace Lexed
open Grammar (SpellsProgram PlacedExpr PlacedProgram IsProgram)

/-- Tokens that spell a program are read as that program. -/
theorem program_of_placed {l : Lexed} {p : Program Unit} (h : PlacedProgram l.tokens p)
    (hnear : p.ElseNearest) : l.program = .ok p := by
  generalize hts : l.tokens = ts at h
  cases h with
  | @mk imports body himports hbody =>
    have hnear' : ∀ q ∈ body, q.2.ElseNearest := fun q hq => hnear q.2 (List.mem_map_of_mem hq)
    have hnext : Reading.NotNext .useKw ((body.map Prod.fst).flatten ++ []) :=
      Reading.notNext_of_parts rfl hbody (Reading.notNext_nil _)
    rw [List.append_nil] at hnext
    rw [program_eq, hts, Reading.run_imports_of_placed himports hnext]
    simp [Reading.body_of_placed hbody hnear']

theorem expr_of_placed {l : Lexed} {e : Expr Unit} (h : PlacedExpr .comparison l.tokens e) :
    l.expr = .ok e := by
  have hread : Reading.run (Reading.expr l.stopSpan 0 (l.tokens ++ [])) = .ok (e, []) :=
    Reading.run_expr_of_placed l.stopSpan h (Reading.notNext_nil _) (Reading.notNext_nil _)
  rw [List.append_nil] at hread
  rw [expr_eq, hread]
  rfl

/-- What is read as an expression spells it, and its places are those of the tokens. -/
theorem placed_of_expr {l : Lexed} {e : Expr Unit} (hfit : ∀ t ∈ l.tokens, t.ValueFits)
    (h : l.expr = .ok e) : PlacedExpr .comparison l.tokens e := by
  have hread := h
  rw [expr_eq, Except.bind_eq_ok_iff] at hread
  obtain ⟨⟨e', rest⟩, hrun, hread⟩ := hread
  cases rest with
  | cons t rest => cases hread
  | nil =>
    obtain ⟨used, hts, hspells⟩ := Reading.spells_of_run_expr hfit hrun
    rw [List.append_nil] at hts
    obtain ⟨d, hd, -⟩ := hspells.exists_placed
    rw [← hts] at hd
    rw [expr_of_placed hd] at h
    cases h
    exact hd

theorem exists_program {l : Lexed} {d : Program Unit} (h : SpellsProgram l.tokens d)
    (hnear : d.ElseNearest) : ∃ p, l.program = .ok p ∧ p.unplaced = d := by
  obtain ⟨p, hp, rfl⟩ := h.exists_placed
  exact ⟨p, program_of_placed hp hnear.of_unplaced, rfl⟩

theorem spells_of_program {l : Lexed} {p : Program Unit} (hfit : ∀ t ∈ l.tokens, t.ValueFits)
    (h : l.program = .ok p) : SpellsProgram l.tokens p.unplaced ∧ p.unplaced.ElseNearest := by
  rw [program_eq] at h
  simp only [Except.bind_eq_ok_iff, Prod.exists, Except.ok.injEq] at h
  obtain ⟨is, rest, himports, ss, hbody, rfl⟩ := h
  obtain ⟨imports, hts, hi, himp⟩ := Reading.spells_of_run_imports himports
  rw [hts] at hfit
  simp only [List.mem_append] at hfit
  obtain ⟨body, hrest, hs, hstmts⟩ := Reading.spells_of_body (fun t ht => hfit t (.inr ht)) hbody
  have htree : (⟨is, ss⟩ : Program Unit).unplaced = ⟨imports.map Prod.snd, body.map Prod.snd⟩ := by
    rw [← hi, ← hs]
    rfl
  rw [htree, hts, hrest]
  refine ⟨.mk himp fun p hp => (hstmts p hp).1, ?_⟩
  intro s hmem
  obtain ⟨p, hp, rfl⟩ := List.mem_map.mp hmem
  exact (hstmts p hp).2

/-- What is read as a program spells it, and its places are those of the tokens. -/
theorem placed_of_program {l : Lexed} {p : Program Unit} (hfit : ∀ t ∈ l.tokens, t.ValueFits)
    (h : l.program = .ok p) : PlacedProgram l.tokens p ∧ p.ElseNearest := by
  obtain ⟨hspells, hnear⟩ := spells_of_program hfit h
  obtain ⟨q, hq, hpq⟩ := hspells.exists_placed
  rw [← hpq] at hnear
  have hread := program_of_placed hq hnear.of_unplaced
  rw [h] at hread
  cases hread
  exact ⟨hq, hnear.of_unplaced⟩

/-- A text is accepted exactly if the kinds of its tokens are derived by the grammar. What it is
read as is, up to places, the one tree that its tokens spell with every `else` at the nearest
`if`. -/
theorem program_ok_iff_grammar (src : String) :
    ((∃ p, (ofSource src).program = .ok p) ↔
      IsProgram ((ofSource src).tokens.map Token.kind)) ∧
    ∀ d : Program Unit, (∃ p, (ofSource src).program = .ok p ∧ p.unplaced = d) ↔
      SpellsProgram (ofSource src).tokens d ∧ d.ElseNearest := by
  have hfit : ∀ t ∈ (ofSource src).tokens, t.ValueFits := fun t ht => valueFits_of_mem ht
  refine ⟨⟨?_, ?_⟩, fun d => ⟨?_, ?_⟩⟩
  · rintro ⟨p, hp⟩
    exact (spells_of_program hfit hp).1.isProgram
  · intro h
    obtain ⟨d, hd, hnear⟩ := Grammar.exists_spellsProgram h hfit
    obtain ⟨p, hp, _⟩ := exists_program hd hnear
    exact ⟨p, hp⟩
  · rintro ⟨p, hp, rfl⟩
    exact spells_of_program hfit hp
  · rintro ⟨hd, hnear⟩
    exact exists_program hd hnear

end Lexed
end HumanScript
