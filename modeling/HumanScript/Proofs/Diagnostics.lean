import HumanScript.Session
import HumanScript.Proofs.Parsing.Programs
import HumanScript.Proofs.Records
import HumanScript.Proofs.Scanning
import HumanScript.Proofs.Valued

/-! Remarks about a text. What the lexer cannot mend is the last thing it reads, and no program ends
so: the text does not parse. So a text that compiles carries warnings and notes only, and remarks
are only ever added to those made before. -/
namespace HumanScript

/-- What the lexer remarks about a text. -/
def lexerDiagnostics (src : String) : List Diagnostic := (Lexed.ofSource src).errors.map .ofLexError

namespace Grammar
open Token (Kind)

/-- What imports and statements end in. -/
def closingKinds : List Kind := [.semicolon, .rbrace]

theorem IsStmt.exists_closing {ks : List Kind} (h : IsStmt ks) :
    ∃ front, ∃ k ∈ closingKinds, ks = front ++ [k] := by
  induction h with
  | @declare ty e _ _ => exact ⟨ty :: .identifier :: .colonEq :: e, .semicolon, by decide, rfl⟩
  | @print e _ => exact ⟨.sayKw :: e, .semicolon, by decide, rfl⟩
  | @ifThen c _ _ _ ih =>
    obtain ⟨front, k, hk, rfl⟩ := ih
    exact ⟨.ifKw :: .lparen :: (c ++ .rparen :: front), k, hk, by simp⟩
  | @ifElse c a _ _ _ _ _ ih =>
    obtain ⟨front, k, hk, rfl⟩ := ih
    exact ⟨.ifKw :: .lparen :: (c ++ .rparen :: (a ++ .elseKw :: front)), k, hk, by simp⟩
  | @block body _ _ => exact ⟨.lbrace :: body.flatten, .rbrace, by decide, rfl⟩

theorem IsImport.exists_closing {ks : List Kind} (h : IsImport ks) :
    ∃ front, ∃ k ∈ closingKinds, ks = front ++ [k] := by
  cases h with
  | @use path _ _ => exact ⟨.useKw :: .less :: (path ++ [.greater]), .semicolon, by decide, by simp⟩

/-- A program that is not empty ends as its last part does. -/
theorem IsProgram.getLast_mem {ks : List Kind} (h : IsProgram ks) {k : Kind}
    (hk : ks.getLast? = some k) : k ∈ closingKinds := by
  cases h with
  | @mk imports body himports hbody =>
    have hrows : ∀ row ∈ imports ++ body, ∃ front, ∃ k ∈ closingKinds, row = front ++ [k] := by
      intro row hrow
      rcases List.mem_append.mp hrow with hrow | hrow
      · exact (himports row hrow).exists_closing
      · exact (hbody row hrow).exists_closing
    rw [← List.flatten_append] at hk
    rcases List.eq_nil_or_concat (imports ++ body) with hnil | ⟨before, row, hrow⟩
    · rw [hnil] at hk
      cases hk
    · rw [hrow, List.concat_eq_append] at hrows hk
      obtain ⟨front, last, hlast, rfl⟩ := hrows row (by simp)
      have heq : last = k := by simpa [← List.append_assoc] using hk
      exact heq ▸ hlast

end Grammar

namespace Lexeme

/-- What is wrong beyond mending: a character that starts no token, or a string up to the end. -/
theorem Front.of_error {l : Lexeme} {rest : List Char} (h : Front l rest) {e : LexError}
    (he : l.error = some e) (hfatal : e.isWarning = false) :
    l.kind = .unknown ∨ l.kind = .string ∧ rest = [] := by
  cases h with
  | mark _ => cases he
  | word _ _ _ =>
    rw [error_ofWord] at he
    cases he
  | int _ _ _ =>
    dsimp only [ofDigits] at he
    split at he <;> cases he
    cases hfatal
  | float _ _ _ =>
    dsimp only [ofFraction] at he
    split at he <;> cases he
    cases hfatal
  | string _ => cases he
  | openString _ => exact .inr ⟨rfl, rfl⟩
  | openEscape _ => exact .inr ⟨rfl, rfl⟩
  | unknown _ _ => exact .inl rfl

theorem mem_errors_iff {l : Lexeme} {lo : Nat} {e : Spanned LexError} :
    e ∈ l.errors lo ↔ l.error = some e.value ∧ e.span = l.span lo := by
  obtain ⟨span, value⟩ := e
  simp [errors, eq_comm, and_comm]

end Lexeme

namespace Lexed

/-- After an error beyond mending nothing more is read, and the last token closes nothing. -/
theorem getLast_of_error {offset : Nat} {cs : List Char} {e : Spanned LexError}
    (he : e ∈ (ofChars offset cs).errors) (hfatal : e.value.isWarning = false) :
    ∃ t, (ofChars offset cs).tokens.getLast? = some t ∧ t.kind ∉ Grammar.closingKinds := by
  fun_induction ofChars offset cs with
  | case1 => cases he
  | case2 _ _ _ ih => exact ih he
  | case3 _ _ _ _ _ ih => exact ih he
  | case4 offset c cs _ _ front lexeme hunknown =>
    refine ⟨lexeme.token offset, rfl, ?_⟩
    change lexeme.kind ∉ _
    rw [hunknown]
    decide
  | case5 offset c cs _ _ front lexeme hknown more ih =>
    rcases List.mem_append.mp he with he | he
    · have hfront : Lexeme.Front lexeme front.2 := Lexeme.front_scan c cs
      obtain ⟨hstring, hrest⟩ :=
        (hfront.of_error (Lexeme.mem_errors_iff.mp he).1 hfatal).resolve_left hknown
      have hmore : more.tokens = [] := by simp only [more, hrest, ofChars]
      refine ⟨lexeme.token offset, by rw [hmore]; rfl, ?_⟩
      change lexeme.kind ∉ _
      rw [hstring]
      decide
    · obtain ⟨t, ht, hkind⟩ := ih he
      exact ⟨t, by rw [List.getLast?_cons, ht]; rfl, hkind⟩

/-- Lexer errors come in the order of their places. -/
theorem errors_ordered (offset : Nat) (cs : List Char) :
    (∀ e ∈ (ofChars offset cs).errors, offset ≤ e.span.lo) ∧
      (ofChars offset cs).errors.Pairwise fun e f => e.span.lo < f.span.lo := by
  have hone : ∀ l : Lexeme, ∀ lo, (l.errors lo).Pairwise fun e f => e.span.lo < f.span.lo := by
    rintro ⟨kind, text, value, _ | error⟩ lo <;> simp [Lexeme.errors]
  have hlo : ∀ l : Lexeme, ∀ lo, ∀ e ∈ l.errors lo, e.span.lo = lo := by
    intro l lo e he
    rw [(Lexeme.mem_errors_iff.mp he).2]
    rfl
  fun_induction ofChars offset cs with
  | case1 => simp
  | case2 offset cs comment ih => exact ⟨fun e he => by have := ih.1 e he; omega, ih.2⟩
  | case3 offset c cs _ _ ih => exact ⟨fun e he => by have := ih.1 e he; omega, ih.2⟩
  | case4 offset c cs _ _ front lexeme _ =>
    exact ⟨fun e he => (hlo lexeme offset e he).ge, hone lexeme offset⟩
  | case5 offset c cs _ _ front lexeme _ more ih =>
    have hpos : offset < lexeme.stop offset := by
      obtain ⟨d, ds, hd⟩ := List.exists_cons_of_ne_nil (Lexeme.text_scan_ne_nil c cs)
      have := d.utf8Size_pos
      simp only [Lexeme.stop, lexeme, front, hd, Text.byteLength_cons]
      omega
    have hmore : ∀ f ∈ more.errors, offset < f.span.lo := fun f hf => by
      have := ih.1 f hf
      omega
    refine ⟨List.forall_mem_append.mpr ⟨fun e he => (hlo _ _ e he).ge, fun f hf => (hmore f hf).le⟩,
      List.pairwise_append.mpr ⟨hone _ _, ih.2, ?_⟩⟩
    intro e he f hf
    rw [hlo _ _ e he]
    exact hmore f hf

/-- A text with an error beyond mending spells no program. -/
theorem isWarning_of_program {src : String} {p : Program Unit}
    (h : (ofSource src).program = .ok p) :
    ∀ e ∈ (ofSource src).errors, e.value.isWarning = true := by
  intro e he
  by_contra hfatal
  obtain ⟨t, hlast, hkind⟩ := getLast_of_error he (Bool.eq_false_iff.mpr hfatal)
  have hprogram := (spells_of_program (fun _ => valueFits_of_mem) h).1.isProgram
  exact hkind (hprogram.getLast_mem (by rw [List.getLast?_map, ofSource, hlast]; rfl))

end Lexed

namespace Report
variable {α β : Type}

theorem diagnostics_bind (r : Report α) (f : α → Report β) :
    (r >>= f).diagnostics = r.diagnostics ++
      match r.result with
      | .ok a => (f a).diagnostics
      | .error _ => [] := by
  change (r.bind f).diagnostics = _
  unfold bind
  cases r.result with
  | ok a => rfl
  | error e => exact (List.append_nil _).symm

@[simp] theorem diagnostics_pure (a : α) : (pure a : Report α).diagnostics = [] := rfl

@[simp] theorem diagnostics_ofExcept (r : Except CompileError α) : (ofExcept r).diagnostics = [] :=
  rfl

@[simp] theorem diagnostics_trace (message : String) : (trace message).diagnostics = [] := rfl

@[simp] theorem diagnostics_remark (src : String) (diagnostics : List Diagnostic) :
    (remark src diagnostics).diagnostics = diagnostics := rfl

end Report

theorem parse_diagnostics (src : String) : (parse src).diagnostics = lexerDiagnostics src := by
  simp only [parse, Report.diagnostics_bind]
  cases (Lexed.ofSource src).program <;> simp [lexerDiagnostics, Except.mapError]

theorem parse_result (src : String) :
    (parse src).result = (Lexed.ofSource src).program.mapError .parse := by
  simp only [parse, Report.result_bind, Report.result_trace, Report.result_remark,
    Report.result_ofExcept, Report.result_pure, Except.ok_bind]
  exact bind_pure _

theorem check_result (src : String) :
    (check src).result = (parse src).result >>= fun p => p.check.mapError .check := by
  simp only [check, Report.result_bind, Report.result_trace, Report.result_remark,
    Report.result_ofExcept, Report.result_pure, Except.ok_bind]
  exact bind_congr fun p => bind_pure _

/-- Notes are remarked if there are any: if checking succeeds. -/
theorem check_diagnostics (src : String) :
    (check src).diagnostics = lexerDiagnostics src ++
      match (check src).result with
      | .ok c => c.notes.map .ofNote
      | .error _ => [] := by
  rw [check_result]
  simp only [check, Report.diagnostics_bind, parse_diagnostics]
  cases (parse src).result with
  | error e => rfl
  | ok p =>
    cases h : p.check with
    | error e => simp [h, Except.mapError]
    | ok c => simp [h, Except.mapError]

/-- Lowering makes no remarks. -/
theorem compile_diagnostics (src : String) :
    (compile src).diagnostics = (check src).diagnostics := by
  simp only [compile, Report.diagnostics_bind]
  cases (check src).result with
  | error e => exact List.append_nil _
  | ok c =>
    cases h : c.value.toCpp with
    | error e => simp [h, Except.mapError]
    | ok q => simp [h, Except.mapError]

/-- All steps fail as reading does. -/
theorem fails_of_parse {src : String} {cause : CompileError}
    (h : (parse src).result = .error cause) :
    (check src).result = .error cause ∧ (compile src).result = .error cause := by
  have hcheck : (check src).result = .error cause := by
    rw [check_result, h]
    rfl
  refine ⟨hcheck, ?_⟩
  rw [compile, Report.result_bind, hcheck]
  rfl

/-- A program with types in it, and notes that belong to it: one for each import, and then one for
each statement at any depth, in the order of finishing. -/
structure Checked.Annotates (c : Checked (Program Ty)) (p : Program Unit) : Prop where
  program : c.value.untyped = p
  notes : c.notes = p.imports.map Import.note ++ (Stmt.finishedAll c.value.body).map Stmt.note
  statements : (Stmt.finishedAll c.value.body).map Stmt.untyped = Stmt.finishedAll p.body
  each : (Stmt.finishedAll p.body).Perm (Stmt.partsAll p.body)

theorem Program.annotates_of_check {p : Program Unit} {c : Checked (Program Ty)}
    (h : p.check = .ok c) : c.Annotates p := by
  have htyping : ProgramTyping p c.value := check_iff.mp ⟨c, h, rfl⟩
  have hbody : c.value.body.map Stmt.untyped = p.body := congrArg Program.body htyping.untyped
  refine ⟨htyping.untyped, ?_, ?_, Stmt.finishedAll_perm _⟩
  · rw [(check_records h).notes, notes, htyping.imports_eq]
  · rw [← Stmt.finishedAll_untyped, hbody]

theorem annotates_of_check {src : String} {c : Checked (Program Ty)}
    (h : (check src).result = .ok c) : ∃ p, (parse src).result = .ok p ∧ c.Annotates p := by
  obtain ⟨p, hp, hcheck⟩ := check_eq_ok_iff.mp h
  exact ⟨p, hp, Program.annotates_of_check hcheck⟩

/-- Remarks about a text. An unexpected character or an unclosed string makes reading fail, and with
it every later step. So what is remarked about a text that compiles are the warnings of the lexer,
in the order of their places, and then a note for each import and a note for each statement, in the
order of finishing. Remarks made earlier stay as they are: the remarks of the lexer are put behind
them, and after these the notes if checking succeeds. -/
theorem lexer_errors_fatal_and_remarks_appended (src : String) :
    (∀ e ∈ (Lexed.ofSource src).errors,
      ((∃ c, e.value = .unexpectedChar c) ∨ e.value = .unclosedString) →
      ∃ cause, (parse src).result = .error (.parse cause) ∧
        (check src).result = .error (.parse cause) ∧
        (compile src).result = .error (.parse cause)) ∧
    (∀ code, (compile src).result = .ok code → ∃ p c, (parse src).result = .ok p ∧
      (check src).result = .ok c ∧ c.Annotates p ∧
      (compile src).diagnostics = lexerDiagnostics src ++ c.notes.map .ofNote ∧
      (∀ d ∈ lexerDiagnostics src, d.stage = .lexer ∧ d.severity = .warning) ∧
      (lexerDiagnostics src).Pairwise (·.span.lo < ·.span.lo) ∧
      ∀ d ∈ c.notes.map Diagnostic.ofNote, d.stage = .checker ∧ d.severity = .info) ∧
    ∀ s : Session,
      (s.step (.parse src)).2.1.diagnostics = s.diagnostics ++ lexerDiagnostics src ∧
      (∀ e, (check src).result = .error e →
        (s.step (.check src)).2.1.diagnostics = s.diagnostics ++ lexerDiagnostics src) ∧
      ∀ c, (check src).result = .ok c →
        (∃ p, (parse src).result = .ok p ∧ c.Annotates p) ∧
        (s.step (.check src)).2.1.diagnostics =
          s.diagnostics ++ lexerDiagnostics src ++ c.notes.map .ofNote := by
  refine ⟨?_, ?_, ?_⟩
  · intro e he hfatal
    have herror : e.value.isWarning = false := by
      rcases hfatal with ⟨c, hc⟩ | hc <;> rw [hc] <;> rfl
    cases hp : (Lexed.ofSource src).program with
    | ok p => exact absurd (Lexed.isWarning_of_program hp e he) (by rw [herror]; decide)
    | error cause =>
      have hparse : (parse src).result = .error (.parse cause) := by rw [parse_result, hp]; rfl
      exact ⟨cause, hparse, fails_of_parse hparse⟩
  · intro code h
    obtain ⟨c, q, hc, -, -⟩ := compile_eq_ok_iff.mp h
    obtain ⟨p, hparse, hannotates⟩ := annotates_of_check hc
    have hp : (Lexed.ofSource src).program = .ok p := by
      rwa [parse_result, Except.mapError_eq_ok_iff] at hparse
    refine ⟨p, c, hparse, hc, hannotates, ?_, ?_, ?_,
      List.forall_mem_map.mpr fun _ _ => ⟨rfl, rfl⟩⟩
    · rw [compile_diagnostics, check_diagnostics, hc]
    · rw [lexerDiagnostics, List.forall_mem_map]
      intro e he
      refine ⟨rfl, ?_⟩
      rw [Diagnostic.ofLexError, Lexed.isWarning_of_program hp e he]
      rfl
    · rw [lexerDiagnostics, List.pairwise_map]
      exact (Lexed.errors_ordered 0 src.toList).2
  · intro s
    refine ⟨?_, ?_, ?_⟩
    · change s.diagnostics ++ (parse src).diagnostics = _
      rw [parse_diagnostics]
    · intro e he
      change s.diagnostics ++ (check src).diagnostics = _
      rw [check_diagnostics, he, List.append_nil]
    · intro c hc
      refine ⟨annotates_of_check hc, ?_⟩
      change s.diagnostics ++ (check src).diagnostics = _
      rw [check_diagnostics, hc, List.append_assoc]

/-- An open string, and a number that is too large in a block: one warning, and notes for the import
and for the three statements, the inner ones first. -/
theorem lexer_errors_fatal_and_remarks_appended_overflow :
    (∃ cause, (compile "says 1; says \"a").result = .error (.parse cause)) ∧
      ∃ p c, (parse "use <io>; if (true) \x7b says 99999999999999999999; \x7d").result = .ok p ∧
        (check "use <io>; if (true) \x7b says 99999999999999999999; \x7d").result = .ok c ∧
        c.Annotates p ∧
        c.notes.map Spanned.value = [.imported "io", .printed .lnumber, .block, .conditional] ∧
        (compile "use <io>; if (true) \x7b says 99999999999999999999; \x7d").diagnostics =
          lexerDiagnostics "use <io>; if (true) \x7b says 99999999999999999999; \x7d" ++
            c.notes.map .ofNote ∧
        (lexerDiagnostics "use <io>; if (true) \x7b says 99999999999999999999; \x7d").map
          (fun d => (d.stage, d.severity)) = [(.lexer, .warning)] := by
  have hopen : ⟨.ofBounds 13 15, .unclosedString⟩ ∈ (Lexed.ofSource "says 1; says \"a").errors := by
    decide +kernel
  have hrun : (compile
      "use <io>; if (true) \x7b says 99999999999999999999; \x7d").result.toOption.isSome = true := by
    decide +kernel
  have hnotes : ((check "use <io>; if (true) \x7b says 99999999999999999999; \x7d").result
      |>.toOption.map fun c => c.notes.map Spanned.value) =
        some [.imported "io", .printed .lnumber, .block, .conditional] := by
    decide +kernel
  simp only [Option.isSome_iff_exists, Except.toOption_eq_some_iff] at hrun
  obtain ⟨code, hcode⟩ := hrun
  obtain ⟨cause, -, -, hfails⟩ :=
    (lexer_errors_fatal_and_remarks_appended _).1 _ hopen (.inr rfl)
  obtain ⟨p, c, hp, hc, hannotates, hdiagnostics, -, -⟩ :=
    (lexer_errors_fatal_and_remarks_appended _).2.1 code hcode
  rw [hc] at hnotes
  exact ⟨⟨cause, hfails⟩, p, c, hp, hc, hannotates, Option.some.inj hnotes, hdiagnostics,
    by decide +kernel⟩

end HumanScript
