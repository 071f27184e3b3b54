import HumanScript.Proofs.Concatenation
import HumanScript.Proofs.Parsing.Alike

/-! Texts written lexeme by lexeme. A lexeme is over where the next character does not go on with
it; if every lexeme of a row is, then reading the text gives the row back. -/
namespace HumanScript
open Lexeme (continuesWord)

/-- Whether a lexeme of the kind is over before the character. A point may go on with an integer,
and a slash after a slash starts a comment. -/
def Token.Kind.endsBefore (c : Char) : Token.Kind → Bool
  | .int => !c.isDigit && c != '.'
  | .float => !c.isDigit
  | .slash => c != '/'
  | .string | .colonEq | .questionEq | .plus | .semicolon | .lparen | .rparen | .lbrace | .rbrace
  | .less | .greater | .dot => true
  | _ => !continuesWord c

namespace Lexeme
open Token (Kind)

/-- The lexeme as a token that is nowhere. -/
def bare (l : Lexeme) : Token := ⟨l.kind, String.ofList l.text, l.value, .empty⟩

/-- A mark, or a word that is no literal. -/
def sign (k : Kind) (text : String) : Lexeme := ⟨k, text.toList, none, none⟩

/-- A string, as it is written between the quotes and as it is meant. -/
def quoted (text value : List Char) : Lexeme :=
  ⟨.string, '"' :: (text ++ ['"']), some (.string (String.ofList value)), none⟩

/-- A lexeme that can be all of a text, with nothing wrong about it. -/
structure Whole (l : Lexeme) : Prop where
  front : Front l []
  sound : l.error = none

section Whole
variable {l : Lexeme} {rest : List Char}

theorem endsBefore_ofWord (word : List Char) (c : Char) :
    (ofWord word).kind.endsBefore c = !continuesWord c := by
  refine kind_ofWord (P := (·.endsBefore c = !continuesWord c)) ?_ rfl word
  simp [Kind.keywords, Kind.endsBefore]

/-- A whole lexeme stays one before a text that does not go on with it. -/
theorem Whole.front_append (h : l.Whole) (hrest : ∀ c ∈ rest.head?, l.kind.endsBefore c = true) :
    Front l rest := by
  obtain ⟨hfront, hsound⟩ := h
  cases hfront with
  | mark hmark => exact .mark hmark
  | word hc hmore _ =>
    refine .word hc hmore fun c hc => ?_
    have hends := hrest c hc
    rwa [endsBefore_ofWord, Bool.not_eq_true'] at hends
  | int hdigits _ _ =>
    have hends : ∀ c ∈ rest.head?, c.isDigit = false ∧ c ≠ '.' := by
      simpa [ofDigits, Kind.endsBefore] using hrest
    refine .int hdigits (fun c hc => (hends c hc).1) ?_
    rintro d more rfl
    exact absurd rfl (hends '.' rfl).2
  | float hwhole hplaces _ =>
    refine .float hwhole hplaces fun c hc => ?_
    simpa [ofFraction, Kind.endsBefore] using hrest c hc
  | string hbody => exact .string hbody
  | openString | openEscape | unknown => cases hsound

theorem Whole.kind_ne_unknown (h : l.Whole) : l.kind ≠ .unknown := by
  intro hkind
  obtain ⟨c, rfl⟩ := h.front.eq_unknown hkind
  cases h.sound

theorem Whole.noTrivia (h : l.Whole) (hrest : ∀ c ∈ rest.head?, l.kind.endsBefore c = true) :
    NoTrivia (l.text ++ rest) := by
  have hfront := h.front_append hrest
  refine ⟨fun c hc hblank => ?_, fun more heq => ?_⟩
  · obtain ⟨d, cs, hcs⟩ := hfront.exists_cons
    rw [hcs] at hc
    cases hc
    have hunknown := kind_scan_blank hblank cs
    rw [hfront.scan_eq hcs] at hunknown
    exact h.kind_ne_unknown hunknown
  · have hscan : (⟨.slash, ['/'], none, none⟩, '/' :: more) = (l, rest) := hfront.scan_eq heq
    cases hscan
    cases hrest '/' rfl

theorem whole_mark {text : String} {k : Kind} (h : (text.toList, k) ∈ marks) :
    Whole (.sign k text) := ⟨.mark h, rfl⟩

theorem whole_keyword {word : String} {k : Kind} (h : (word, k) ∈ Kind.keywords)
    (hvalue : keywordValue? k = none) : Whole (.sign k word) := by
  obtain ⟨c, more, hword, hc, hmore⟩ := exists_word_of_mem h
  have hfront : Front (ofWord (c :: more)) [] := .word hc hmore (by simp [NotAhead])
  rw [← hword, ofWord_of_mem (by rwa [String.ofList_toList]), hvalue] at hfront
  exact ⟨hfront, rfl⟩

theorem whole_name {word : List Char} (hstart : word.head?.any startsWord = true)
    (hmore : word.tail.all continuesWord = true)
    (hnot : Kind.ofKeyword? (String.ofList word) = none) :
    Whole ⟨.identifier, word, none, none⟩ := by
  cases word with
  | nil => cases hstart
  | cons c more =>
    have hfront : Front (ofWord (c :: more)) [] :=
      .word hstart (List.all_eq_true.mp hmore) (by simp [NotAhead])
    have hname : ofWord (c :: more) = ⟨.identifier, c :: more, none, none⟩ := by
      rw [ofWord, hnot]
    rw [hname] at hfront
    exact ⟨hfront, rfl⟩

theorem whole_quoted {text value : List Char} (h : Unescapes text value) :
    Whole (quoted text value) := ⟨.string h, rfl⟩

theorem unescapes_plain (cs : List Char) {text value : List Char} (hquote : '"' ∉ cs)
    (hslash : '\\' ∉ cs) (h : Unescapes text value) : Unescapes (cs ++ text) (cs ++ value) := by
  induction cs with
  | nil => exact h
  | cons c cs ih =>
    rw [List.mem_cons, not_or] at hquote hslash
    exact .plain (Ne.symm hquote.1) (Ne.symm hslash.1) (ih hquote.2 hslash.2)

end Whole

section Reads
variable {cs ds gap rest : List Char} {l : Lexeme} {ls ms : List Lexeme}

/-- Wherever the text stands, these lexemes are read from it, and nothing is wrong with them. -/
structure Reads (cs : List Char) (ls : List Lexeme) : Prop where
  errors : ∀ lo, (Lexed.ofChars lo cs).errors = []
  known : ∀ lo, (Lexed.ofChars lo cs).Known
  tokens : ∀ lo, List.Forall₂ (Token.Alike fun _ _ => True) (Lexed.ofChars lo cs).tokens
    (ls.map bare)

theorem reads_trivia (h : Trivia gap []) : Reads gap [] where
  errors lo := by rw [Lexed.ofChars_of_trivia h]
  known lo := by
    rw [Lexed.ofChars_of_trivia h]
    exact fun t ht => absurd ht List.not_mem_nil
  tokens lo := by
    rw [Lexed.ofChars_of_trivia h]
    exact .nil

theorem Reads.next (h : Reads rest ls) (hl : l.Whole) (hahead : Ahead gap l rest) :
    Reads (gap ++ (l.text ++ rest)) (l :: ls) where
  errors lo := by
    rw [Lexed.ofChars_ahead hahead, if_neg hl.kind_ne_unknown]
    exact List.append_eq_nil_iff.mpr ⟨by simp [lexed, Lexeme.errors, hl.sound], h.errors _⟩
  known lo := by
    rw [Lexed.ofChars_ahead hahead, if_neg hl.kind_ne_unknown]
    exact Lexed.known_followedBy.mpr ⟨Lexed.known_lexed.mpr hl.kind_ne_unknown, h.known _⟩
  tokens lo := by
    rw [Lexed.ofChars_ahead hahead, if_neg hl.kind_ne_unknown]
    exact .cons ⟨rfl, rfl, rfl, trivial⟩ (h.tokens _)

theorem Reads.newline (h : Reads cs ls) (h' : Reads ds ms) :
    Reads (cs ++ '\n' :: ds) (ls ++ ms) := by
  have hread : ∀ lo, Lexed.ofChars lo (cs ++ '\n' :: ds) = (Lexed.ofChars lo cs).followedBy
      (Lexed.ofChars (lo + Text.byteLength cs + 1) ds) := by
    intro lo
    have hclosed : (Lexed.ofChars lo cs).Closed := by
      intro e he
      rw [h.errors] at he
      cases he
    exact Lexed.ofChars_newline_of_known hclosed (h.known lo) ds
  refine ⟨fun lo => ?_, fun lo => ?_, fun lo => ?_⟩
  · rw [hread]
    exact List.append_eq_nil_iff.mpr ⟨h.errors _, h'.errors _⟩
  · rw [hread]
    exact Lexed.known_followedBy.mpr ⟨h.known _, h'.known _⟩
  · rw [hread, List.map_append]
    exact List.rel_append (h.tokens _) (h'.tokens _)

/-- If the lexemes of a text spell a tree, then the text is read as that tree, up to places. -/
theorem Reads.exists_program {d : Program Unit} (h : Reads cs ls)
    (hd : Grammar.PlacedProgram (ls.map bare) d) (hnear : d.ElseNearest) :
    ∃ p, (Lexed.ofChars 0 cs).program = .ok p ∧ p.Alike (fun _ _ => True) d := by
  let m : Lexed := ⟨ls.map bare, 0, []⟩
  have halike : (Lexed.ofChars 0 cs).Alike (fun _ _ => True) m :=
    ⟨⟨trivial, fun _ _ => trivial⟩, h.tokens 0⟩
  have hm : m.program = .ok d := Lexed.program_of_placed hd hnear
  have hprogram := halike.program
  rw [hm] at hprogram
  exact hprogram.exists_ok

end Reads

/-- A lexeme after blanks and comments, which are over whatever comes next. -/
structure Spaced where
  gap : List Char
  lexeme : Lexeme

namespace Spaced

def text (s : Spaced) : List Char := s.gap ++ s.lexeme.text

structure Valid (s : Spaced) : Prop where
  gap : ∀ rest, Trivia s.gap rest
  whole : s.lexeme.Whole

/-- Right after the lexeme before. -/
def tight (l : Lexeme) : Spaced := ⟨[], l⟩

/-- One blank after the lexeme before. -/
def apart (l : Lexeme) : Spaced := ⟨[' '], l⟩

theorem valid_blanks {gap : List Char} {l : Lexeme} (h : gap.all isBlank = true) :
    Valid ⟨gap, l⟩ ↔ l.Whole := by
  have hgap : ∀ rest, Trivia gap rest := by
    intro rest
    induction gap with
    | nil => exact .nil
    | cons c gap ih =>
      obtain ⟨hc, hgap⟩ := Bool.and_eq_true_iff.mp h
      exact .blank (isBlank_iff.mp hc) (ih hgap)
  exact ⟨Valid.whole, fun hl => ⟨hgap, hl⟩⟩

theorem valid_tight {l : Lexeme} : (tight l).Valid ↔ l.Whole := valid_blanks rfl

theorem valid_apart {l : Lexeme} : (apart l).Valid ↔ l.Whole := valid_blanks rfl

/-- Each lexeme of the row is over before the next. -/
def Apart (ss : List Spaced) : Prop :=
  ss.IsChain fun s t => ∀ c ∈ t.text.head?, s.lexeme.kind.endsBefore c = true

theorem reads {ss : List Spaced} (hvalid : ∀ s ∈ ss, s.Valid) (hapart : Apart ss) :
    Reads (ss.flatMap text) (ss.map lexeme) := by
  induction ss with
  | nil => exact reads_trivia .nil
  | cons s ss ih =>
    obtain ⟨hs, hss⟩ := List.forall_mem_cons.mp hvalid
    have hrest : ∀ c ∈ (ss.flatMap text).head?, s.lexeme.kind.endsBefore c = true := by
      cases ss with
      | nil => simp
      | cons t ss =>
        have hne : t.text ≠ [] :=
          List.append_ne_nil_of_right_ne_nil _ (hss t (by simp)).whole.front.text_ne_nil
        rw [List.flatMap_cons, List.head?_append_of_ne_nil _ hne]
        exact hapart.rel
    have hahead : Ahead s.gap s.lexeme (ss.flatMap text) :=
      ⟨hs.gap _, hs.whole.noTrivia hrest, hs.whole.front_append hrest⟩
    rw [List.flatMap_cons, text, List.append_assoc]
    exact (ih hss hapart.tail).next hs.whole hahead

/-- The tokens of a row, with no places. -/
def tokens (ss : List Spaced) : List Token := ss.map fun s => s.lexeme.bare

theorem map_bare_rows (rows : List (List Spaced)) :
    (rows.flatMap (List.map lexeme)).map bare = (rows.map tokens).flatten := by
  induction rows with
  | nil => rfl
  | cons row rows ih =>
    rw [List.flatMap_cons, List.map_append, ih, List.map_map, List.map_cons, List.flatten_cons]
    rfl

/-- Rows on lines of their own are read one after the other. -/
theorem reads_lines {rows : List (List Spaced)} (hvalid : ∀ row ∈ rows, ∀ s ∈ row, s.Valid)
    (hapart : ∀ row ∈ rows, Apart row) :
    Reads (rows.flatMap fun row => row.flatMap text ++ ['\n'])
      (rows.flatMap (List.map lexeme)) := by
  induction rows with
  | nil => exact reads_trivia .nil
  | cons row rows ih =>
    obtain ⟨hrow, hrows⟩ := List.forall_mem_cons.mp hvalid
    obtain ⟨hrow', hrows'⟩ := List.forall_mem_cons.mp hapart
    rw [List.flatMap_cons, List.append_assoc]
    exact (reads hrow hrow').newline (ih hrows hrows')

end Spaced
end Lexeme

/-- Rows that spell imports, and then rows that spell statements, spell a program. -/
theorem Grammar.placedProgram_of_forall₂ {rows rows' : List (List Token)} {imports : List Import}
    {body : List (Stmt Unit)} (himports : List.Forall₂ PlacedImport rows imports)
    (hbody : List.Forall₂ PlacedStmt rows' body) :
    PlacedProgram (rows.flatten ++ rows'.flatten) ⟨imports, body⟩ := by
  obtain ⟨hlength, himports⟩ := List.forall₂_iff_zip.mp himports
  obtain ⟨hlength', hbody⟩ := List.forall₂_iff_zip.mp hbody
  have h := @PlacedProgram.mk (rows.zip imports) (rows'.zip body) (fun _ => himports)
    (fun _ => hbody)
  rwa [List.map_fst_zip hlength.le, List.map_snd_zip hlength.ge, List.map_fst_zip hlength'.le,
    List.map_snd_zip hlength'.ge] at h

end HumanScript
