import HumanScript.Proofs.Faults

/-! Texts put together at a newline. No token but an open string goes on over the end of a line, so
the two texts are read one after the other, up to a character that starts no token. -/
namespace HumanScript

theorem Span.keepsJoins_moveRight (n : Nat) :
    Grammar.KeepsJoins (fun _ => True) (Span.moveRight n) := by
  refine ⟨fun _ _ => trivial, ?_⟩
  intro a b _ _
  ext
  · simp only [join, moveRight, lo_ofBounds]
    omega
  · simp only [join, moveRight, len_ofBounds, hi]
    omega

namespace Lexeme

/-- What does not go on with the next character does not go on over a newline. -/
theorem NotAhead.newline {p : Char → Bool} {rest : List Char} (h : NotAhead p rest)
    (hp : p '\n' = false) (more : List Char) : NotAhead p (rest ++ '\n' :: more) := by
  cases rest with
  | nil =>
    rintro c ⟨⟩
    exact hp
  | cons c rest => exact h

theorem NoFraction.newline {rest : List Char} (h : NoFraction rest) (more : List Char) :
    NoFraction (rest ++ '\n' :: more) := by
  intro d tail heq
  cases rest with
  | nil => cases heq
  | cons c rest =>
    cases rest with
    | nil =>
      cases heq
      rfl
    | cons e rest =>
      cases heq
      exact h d rest rfl

theorem NoTrivia.newline {cs : List Char} (h : NoTrivia cs) (hne : cs ≠ []) (more : List Char) :
    NoTrivia (cs ++ '\n' :: more) := by
  obtain ⟨c, rest, rfl⟩ := List.exists_cons_of_ne_nil hne
  refine ⟨h.1, fun tail heq => ?_⟩
  cases rest with
  | nil => cases heq
  | cons d rest =>
    cases heq
    exact h.2 rest rfl

/-- No mark has a newline in it. -/
theorem not_prefix_newline {text rest : List Char} {kind : Token.Kind} {c : Char}
    (hmark : (c :: text, kind) ∈ marks) (h : ¬ text <+: rest) (more : List Char) :
    ¬ text <+: rest ++ '\n' :: more := by
  have hmarks : ∀ m ∈ marks, '\n' ∉ m.1 := by decide
  intro hprefix
  rcases List.prefix_or_prefix_of_prefix hprefix (List.prefix_append _ _) with hrest | ⟨tail, rfl⟩
  · exact h hrest
  · rw [List.prefix_append_right_inj] at hprefix
    cases tail with
    | nil => exact h (by simp)
    | cons d tail =>
      obtain ⟨rfl, -⟩ := List.cons_prefix_cons.mp hprefix
      exact hmarks _ hmark (by simp)

/-- A newline goes on with nothing but a string that is still open. -/
theorem Front.newline {l : Lexeme} {rest : List Char} (h : Front l rest)
    (hclosed : l.error ≠ some .unclosedString) (more : List Char) :
    Front l (rest ++ '\n' :: more) := by
  cases h with
  | mark h => exact .mark h
  | word hc hmore hrest => exact .word hc hmore (hrest.newline rfl more)
  | int h hrest hpoint => exact .int h (hrest.newline rfl more) (hpoint.newline more)
  | float hwhole hplaces hrest => exact .float hwhole hplaces (hrest.newline rfl more)
  | string h => exact .string h
  | openString | openEscape => exact absurd rfl hclosed
  | unknown hc hmark =>
    exact .unknown hc fun text kind hmem => not_prefix_newline hmem (hmark text kind hmem) more

theorem Ahead.newline {gap : List Char} {l : Lexeme} {rest : List Char} (h : Ahead gap l rest)
    (hclosed : l.error ≠ some .unclosedString) (more : List Char) :
    Ahead gap l (rest ++ '\n' :: more) := by
  have hne := h.front.text_ne_nil
  refine ⟨h.trivia.congr ?_, ?_, h.front.newline hclosed more⟩
  · rw [List.head?_append_of_ne_nil _ hne, List.head?_append_of_ne_nil _ hne]
    exact fun c hc => .inl hc
  · rw [← List.append_assoc]
    exact h.noTrivia.newline (List.append_ne_nil_of_left_ne_nil hne rest) more

end Lexeme

namespace Lexed
open Grammar (PlacedProgram PlacedImport PlacedStmt)

/-- Nothing before the end of the text was left open. -/
def Closed (l : Lexed) : Prop := ∀ e ∈ l.errors, e.value ≠ .unclosedString

theorem Closed.of_lexed {l : Lexeme} {lo : Nat} (h : (l.lexed lo).Closed) :
    l.error ≠ some .unclosedString := fun herror =>
  h ⟨l.span lo, .unclosedString⟩ (Lexeme.mem_errors_iff.mpr ⟨herror, rfl⟩) rfl

theorem closed_followedBy {l m : Lexed} : (l.followedBy m).Closed ↔ l.Closed ∧ m.Closed :=
  List.forall_mem_append

/-- Every character of the text starts a token or belongs to one. -/
def Known (l : Lexed) : Prop := ∀ t ∈ l.tokens, t.kind ≠ .unknown

theorem known_followedBy {l m : Lexed} : (l.followedBy m).Known ↔ l.Known ∧ m.Known :=
  List.forall_mem_append

theorem known_lexed {l : Lexeme} {lo : Nat} : (l.lexed lo).Known ↔ l.kind ≠ .unknown :=
  List.forall_mem_singleton

/-- A text up to a newline is read first, and then the text after it. -/
theorem ofChars_newline_of_known {lo : Nat} {cs : List Char} (hclosed : (ofChars lo cs).Closed)
    (hknown : (ofChars lo cs).Known) (ds : List Char) :
    ofChars lo (cs ++ '\n' :: ds) =
      (ofChars lo cs).followedBy (ofChars (lo + Text.byteLength cs + 1) ds) := by
  induction cs using Lexeme.ahead_induction generalizing lo with
  | done gap hgap =>
    have hskip : Lexeme.Trivia gap ('\n' :: ds) := by
      refine hgap.congr ?_
      rintro c ⟨⟩
      exact .inr rfl
    rw [ofChars_trivia hskip, ofChars_blank (by decide), ofChars_of_trivia hgap]
    rfl
  | next gap l rest hahead ih =>
    rw [ofChars_ahead hahead] at hclosed hknown ⊢
    split at hclosed
    · rename_i hunknown
      rw [if_pos hunknown, known_lexed] at hknown
      exact absurd hunknown hknown
    · rename_i hkind
      rw [if_neg hkind] at hknown ⊢
      obtain ⟨hfront, hrest⟩ := closed_followedBy.mp hclosed
      have hend : l.stop (lo + Text.byteLength gap) + Text.byteLength rest =
          lo + Text.byteLength (gap ++ (l.text ++ rest)) := by
        simp only [Lexeme.stop, Text.byteLength_append]
        omega
      rw [List.append_assoc, List.append_assoc, ofChars_ahead (hahead.newline hfront.of_lexed ds),
        if_neg hkind, ih hrest (known_followedBy.mp hknown).2, hend, followedBy_assoc]

/-- What comes after an unknown character is not read. -/
theorem ofChars_newline_of_unknown {lo : Nat} {cs : List Char} (hclosed : (ofChars lo cs).Closed)
    (hunknown : ¬ (ofChars lo cs).Known) (ds : List Char) :
    ofChars lo (cs ++ '\n' :: ds) = ofChars lo cs := by
  induction cs using Lexeme.ahead_induction generalizing lo with
  | done gap hgap =>
    rw [ofChars_of_trivia hgap] at hunknown
    exact absurd (fun t ht => absurd ht List.not_mem_nil) hunknown
  | next gap l rest hahead ih =>
    rw [ofChars_ahead hahead] at hclosed hunknown ⊢
    rw [List.append_assoc, List.append_assoc]
    split at hclosed
    · rename_i hkind
      rw [ofChars_ahead (hahead.newline hclosed.of_lexed ds), if_pos hkind, if_pos hkind]
    · rename_i hkind
      obtain ⟨hfront, hrest⟩ := closed_followedBy.mp hclosed
      rw [if_neg hkind, known_followedBy, known_lexed, not_and] at hunknown
      rw [ofChars_ahead (hahead.newline hfront.of_lexed ds), if_neg hkind, if_neg hkind,
        ih hrest (hunknown hkind)]

theorem toList_newline (a b : String) : (a ++ "\n" ++ b).toList = a.toList ++ '\n' :: b.toList := by
  simp

theorem ofSource_newline_of_known {a : String} (hclosed : (ofSource a).Closed)
    (hknown : (ofSource a).Known) (b : String) :
    ofSource (a ++ "\n" ++ b) =
      (ofSource a).followedBy ((ofSource b).moveRight (a.utf8ByteSize + 1)) := by
  have hmove := ofChars_add (a.utf8ByteSize + 1) 0 b.toList
  rw [Nat.zero_add] at hmove
  rw [ofSource, toList_newline, ofChars_newline_of_known hclosed hknown, Nat.zero_add,
    Text.byteLength_toList, hmove]
  rfl

theorem closed_of_program {src : String} {p : Program Unit} (h : (ofSource src).program = .ok p) :
    (ofSource src).Closed := by
  intro e he hopen
  have hwarning := isWarning_of_program h e he
  rw [hopen] at hwarning
  cases hwarning

theorem known_of_program {src : String} {p : Program Unit} (h : (ofSource src).program = .ok p) :
    (ofSource src).Known := by
  intro t ht hkind
  obtain ⟨e, he⟩ : ∃ e, t.Fault e := by
    obtain ⟨c, more, lo, rfl⟩ := exists_scan_of_mem_ofChars ht
    obtain ⟨d, hl⟩ := (Lexeme.front_scan c more).eq_unknown hkind
    exact ⟨_, ((Lexeme.front_scan c more).token_fault_iff lo _).mpr (congrArg Lexeme.error hl)⟩
  obtain ⟨f, hf, hmem⟩ := (faults_ofChars 0 src.toList).exists_mem ht he
  have hwarning := isWarning_of_program h _ hmem
  cases f with
  | unexpectedChar | unclosedString => cases hwarning
  | intOverflow | floatOverflow => cases hkind.symm.trans hf.1

theorem dropLast_all (l : Lexed) : l.all.dropLast = l.tokens := List.dropLast_concat

theorem all_followedBy_moveRight (l m : Lexed) (n : Nat) :
    (l.followedBy (m.moveRight n)).all = l.tokens ++ m.all.map (Token.move (.moveRight n)) := by
  have heof : Token.eof (m.stop + n) = (Token.eof m.stop).move (.moveRight n) := by
    simp [Token.eof, Token.move, Span.moveRight, Span.ofBounds]
  simp [all, followedBy, moveRight, heof]

/-- Lexing goes line by line. If no string is open at the end of the first text, the tokens and
errors of two texts with a newline between them are those of the first without its end and then
those of the second, moved; or, if a character of the first text starts no token, those of the first
alone. -/
theorem ofSource_newline (a b : String)
    (hclosed : ∀ e ∈ (ofSource a).errors, e.value ≠ .unclosedString) :
    ((∀ t ∈ (ofSource a).all, t.kind ≠ .unknown) →
      (ofSource (a ++ "\n" ++ b)).all = (ofSource a).all.dropLast ++
        (ofSource b).all.map (Token.move (.moveRight (a.utf8ByteSize + 1))) ∧
      (ofSource (a ++ "\n" ++ b)).errors = (ofSource a).errors ++
        (ofSource b).errors.map (Spanned.move (.moveRight (a.utf8ByteSize + 1)))) ∧
    ((∃ t ∈ (ofSource a).all, t.kind = .unknown) →
      (ofSource (a ++ "\n" ++ b)).all = (ofSource a).all ∧
      (ofSource (a ++ "\n" ++ b)).errors = (ofSource a).errors) := by
  constructor
  · intro hknown
    have hread := ofSource_newline_of_known hclosed (List.forall_mem_append.mp hknown).1 b
    rw [hread]
    refine ⟨?_, rfl⟩
    rw [all_followedBy_moveRight, dropLast_all]
  · rintro ⟨t, ht, hkind⟩
    have hunknown : ¬ (ofSource a).Known := by
      intro hknown
      rcases List.mem_append.mp ht with ht | ht
      · exact hknown t ht hkind
      · rw [List.mem_singleton.mp ht] at hkind
        cases hkind
    have hread : ofSource (a ++ "\n" ++ b) = ofSource a := by
      rw [ofSource, toList_newline]
      exact ofChars_newline_of_unknown hclosed hunknown _
    exact ⟨congrArg all hread, congrArg errors hread⟩

theorem ofSource_newline_lookahead :
    ((∀ e ∈ (ofSource "9 / 1. //").errors, e.value ≠ .unclosedString) ∧
      (∀ t ∈ (ofSource "9 / 1. //").all, t.kind ≠ .unknown) ∧
      (ofSource ("9 / 1. //" ++ "\n" ++ "5 \"a")).all = (ofSource "9 / 1. //").all.dropLast ++
        (ofSource "5 \"a").all.map (Token.move (.moveRight 10)) ∧
      (ofSource ("9 / 1. //" ++ "\n" ++ "5 \"a")).errors = (ofSource "9 / 1. //").errors ++
        (ofSource "5 \"a").errors.map (Spanned.move (.moveRight 10))) ∧
    (∀ e ∈ (ofSource "1 ?").errors, e.value ≠ .unclosedString) ∧
      (∃ t ∈ (ofSource "1 ?").all, t.kind = .unknown) ∧
      (ofSource ("1 ?" ++ "\n" ++ "= 2")).all = (ofSource "1 ?").all ∧
      (ofSource ("1 ?" ++ "\n" ++ "= 2")).errors = (ofSource "1 ?").errors := by
  have hclosed : ∀ e ∈ (ofSource "9 / 1. //").errors, e.value ≠ .unclosedString := by
    decide +kernel
  have hknown : ∀ t ∈ (ofSource "9 / 1. //").all, t.kind ≠ .unknown := by decide +kernel
  have hclosed' : ∀ e ∈ (ofSource "1 ?").errors, e.value ≠ .unclosedString := by decide +kernel
  have hunknown : ∃ t ∈ (ofSource "1 ?").all, t.kind = .unknown := by decide +kernel
  exact ⟨⟨hclosed, hknown, (ofSource_newline _ _ hclosed).1 hknown⟩, hclosed', hunknown,
    (ofSource_newline _ _ hclosed').2 hunknown⟩

end Lexed

namespace Grammar

theorem PlacedProgram.move {P : Span → Prop} {place : Span → Span} (hmove : KeepsJoins P place)
    {ts : List Token} {p : Program Unit} (h : PlacedProgram ts p) (hts : ∀ t ∈ ts, P t.span) :
    PlacedProgram (ts.map (Token.move place)) (p.map place id) := by
  cases h with
  | @mk imports body himports hbody =>
    rw [List.forall_mem_append] at hts
    have hrow : ∀ {β : Type} {row : List (List Token × β)},
        (∀ t ∈ (row.map Prod.fst).flatten, P t.span) → ∀ q ∈ row, ∀ t ∈ q.1, P t.span :=
      fun hflat q hq t ht => hflat t (List.mem_flatten.mpr ⟨q.1, List.mem_map_of_mem hq, ht⟩)
    have hmoved := @PlacedProgram.mk
      (imports.map fun q => (q.1.map (Token.move place), q.2.map place))
      (body.map fun q => (q.1.map (Token.move place), q.2.map place id))
      (List.forall_mem_map.mpr fun q hq => (himports q hq).move hmove (hrow hts.1 q hq))
      (List.forall_mem_map.mpr fun q hq => ((hbody q hq).move hmove (hrow hts.2 q hq)).2)
    simpa [Program.map, List.map_flatten, Function.comp_def] using hmoved

/-- Programs one after the other are a program, if no import comes after a statement. -/
theorem PlacedProgram.append {ts us : List Token} {p q : Program Unit} (hp : PlacedProgram ts p)
    (hq : PlacedProgram us q) (horder : q.imports = [] ∨ p.body = []) :
    PlacedProgram (ts ++ us) ⟨p.imports ++ q.imports, p.body ++ q.body⟩ := by
  cases hp with
  | @mk imports body himports hbody =>
    cases hq with
    | @mk imports' body' himports' hbody' =>
      have hboth := @PlacedProgram.mk (imports ++ imports') (body ++ body')
        (List.forall_mem_append.mpr ⟨himports, himports'⟩)
        (List.forall_mem_append.mpr ⟨hbody, hbody'⟩)
      have htokens : (imports.map Prod.fst).flatten ++ (body.map Prod.fst).flatten ++
            ((imports'.map Prod.fst).flatten ++ (body'.map Prod.fst).flatten) =
          ((imports ++ imports').map Prod.fst).flatten ++
            ((body ++ body').map Prod.fst).flatten := by
        rcases horder with hnone | hnone
        · rw [List.map_eq_nil_iff.mp hnone]
          simp
        · rw [List.map_eq_nil_iff.mp hnone]
          simp
      rw [htokens]
      simpa using hboth

end Grammar

namespace Lexed

/-- Programs one after the other, at a newline. If no import of the second comes after a statement
of the first, the two texts are read as the imports and then the statements of both, those of the
second moved to their new places, and so are the errors of the lexer. -/
theorem program_newline (a b : String) (p q : Program Unit) (hp : (ofSource a).program = .ok p)
    (hq : (ofSource b).program = .ok q) (horder : q.imports = [] ∨ p.body = []) :
    let later := Span.moveRight (a.utf8ByteSize + 1)
    (ofSource (a ++ "\n" ++ b)).program =
        .ok ⟨p.imports ++ q.imports.map (Import.map later),
          p.body ++ q.body.map (Stmt.map later id)⟩ ∧
      (ofSource (a ++ "\n" ++ b)).errors =
        (ofSource a).errors ++ (ofSource b).errors.map (Spanned.move later) := by
  intro later
  obtain ⟨hplaced, hnear⟩ := placed_of_program (fun _ => valueFits_of_mem) hp
  obtain ⟨hplaced', hnear'⟩ := placed_of_program (fun _ => valueFits_of_mem) hq
  have hread := ofSource_newline_of_known (closed_of_program hp) (known_of_program hp) b
  rw [hread]
  refine ⟨program_of_placed ?_ ?_, rfl⟩
  · have hmoved := hplaced'.move (Span.keepsJoins_moveRight (a.utf8ByteSize + 1))
      fun _ _ => trivial
    exact hplaced.append hmoved (horder.imp_left fun hnone => by simp [Program.map, hnone])
  · refine List.forall_mem_append.mpr ⟨hnear, List.forall_mem_map.mpr fun s hs => ?_⟩
    exact (hnear' s hs).map later id

theorem program_newline_dangling :
    ∃ p q, (ofSource "use <io>; if (true) says 99999999999999999999; // 1").program = .ok p ∧
      (ofSource "says 2;").program = .ok q ∧ q.imports = [] ∧
      (ofSource ("use <io>; if (true) says 99999999999999999999; // 1" ++ "\n" ++
          "says 2;")).program =
        .ok ⟨p.imports ++ q.imports.map (Import.map (.moveRight 52)),
          p.body ++ q.body.map (Stmt.map (.moveRight 52) id)⟩ := by
  have hrun : (ofSource
      "use <io>; if (true) says 99999999999999999999; // 1").program.toOption.isSome = true := by
    decide +kernel
  have hrun' : (ofSource "says 2;").program.toOption.map (·.imports.isEmpty) = some true := by
    decide +kernel
  simp only [Option.isSome_iff_exists, Option.map_eq_some_iff, Except.toOption_eq_some_iff,
    List.isEmpty_iff] at hrun hrun'
  obtain ⟨p, hp⟩ := hrun
  obtain ⟨q, hq, himports⟩ := hrun'
  exact ⟨p, q, hp, hq, himports, (program_newline _ _ p q hp hq (.inl himports)).1⟩

end Lexed
end HumanScript
