import HumanScript.Proofs.Tokenization
import Mathlib.Data.List.TakeWhile

/-! Scanning finds the longest token that starts at a place, if one does. -/
namespace HumanScript

namespace Token.Kind

theorem ofKeyword?_eq_some_iff {word : String} {k : Kind} :
    ofKeyword? word = some k ↔ (word, k) ∈ keywords := by
  constructor
  · intro h
    obtain ⟨before, after, hsplit, _⟩ := List.lookup_eq_some_iff.mp h
    rw [hsplit]
    simp
  · intro h
    have hall : ∀ p ∈ keywords, ofKeyword? p.1 = some p.2 := by decide +kernel
    exact hall _ h

end Token.Kind

namespace Lexeme
open Token (Kind)

theorem mark?_eq_some_iff {c : Char} {k : Kind} : mark? c = some k ↔ ([c], k) ∈ marks := by
  constructor
  · intro h
    unfold mark? at h
    split at h <;> cases h <;> decide
  · intro h
    simp only [marks, List.mem_cons, Prod.mk.injEq, List.cons.injEq, and_true, reduceCtorEq,
      false_and, and_false, List.not_mem_nil, or_false] at h
    rcases h with ⟨rfl, rfl⟩ | ⟨rfl, rfl⟩ | ⟨rfl, rfl⟩ | ⟨rfl, rfl⟩ | ⟨rfl, rfl⟩ | ⟨rfl, rfl⟩ |
      ⟨rfl, rfl⟩ | ⟨rfl, rfl⟩ | ⟨rfl, rfl⟩ | ⟨rfl, rfl⟩ <;> rfl

theorem mark?_eq_none {p : Char → Bool}
    (hmarks : ∀ q ∈ marks, q.1.head?.all (fun d => !p d) = true) {c : Char} (h : p c = true) :
    mark? c = none := by
  cases hc : mark? c with
  | none => rfl
  | some k =>
    have hstart := hmarks _ (mark?_eq_some_iff.mp hc)
    simp [h] at hstart

theorem mark?_of_startsWord {c : Char} (h : startsWord c = true) : mark? c = none :=
  mark?_eq_none (by decide) h

theorem mark?_of_isDigit {c : Char} (h : c.isDigit = true) : mark? c = none :=
  mark?_eq_none (by decide) h

theorem startsWord_of_isDigit {c : Char} (h : c.isDigit = true) : startsWord c = false := by
  have hc : c ≠ '_' := by
    rintro rfl
    cases h
  have hdigit : (decide (c.val ≥ 48) && decide (c.val ≤ 57)) = true := h
  rw [Bool.and_eq_true, decide_eq_true_eq, decide_eq_true_eq] at hdigit
  have hbelow : ∀ first : UInt32, 57 < first → ¬ c.val ≥ first :=
    fun first hfirst => UInt32.not_le.mpr (UInt32.lt_of_le_of_lt hdigit.2 hfirst)
  have hupper : c.isUpper = false := decide_eq_false fun hc => hbelow 65 (by decide) hc.1
  have hlower : c.isLower = false :=
    Bool.and_eq_false_iff.mpr (.inl (decide_eq_false (hbelow 97 (by decide))))
  have halpha : c.isAlpha = false := Bool.or_eq_false_iff.mpr ⟨hupper, hlower⟩
  simp [startsWord, halpha, hc]

section Runs
variable {p : Char → Bool} {run rest : List Char}

/-- A run of characters of one class ends where a character of another class follows. -/
theorem takeWhile_run (hrun : ∀ c ∈ run, p c = true) (hrest : ∀ c ∈ rest.head?, p c = false) :
    (run ++ rest).takeWhile p = run ∧ (run ++ rest).dropWhile p = rest := by
  rw [List.takeWhile_append_of_pos hrun, List.dropWhile_append_of_pos hrun]
  cases rest with
  | nil => simp
  | cons c rest => simp [hrest c rfl]

theorem head?_dropWhile (p : Char → Bool) (cs : List Char) :
    ∀ c ∈ (cs.dropWhile p).head?, p c = false := by
  intro c hc
  have h := List.head?_dropWhile_not p cs
  rw [Option.mem_def.mp hc] at h
  exact h

end Runs

theorem ofWord_of_mem {word : List Char} {k : Kind} (h : (String.ofList word, k) ∈ Kind.keywords) :
    ofWord word = ⟨k, word, keywordValue? k, none⟩ := by
  have hkey := Kind.ofKeyword?_eq_some_iff.mpr h
  unfold ofWord keywordValue?
  rw [hkey]
  split <;> simp_all

theorem ofWord_of_not_mem {word : List Char}
    (h : ∀ k, (String.ofList word, k) ∉ Kind.keywords) :
    ofWord word = ⟨.identifier, word, none, none⟩ := by
  unfold ofWord
  split
  · rename_i hkey
    exact absurd (Kind.ofKeyword?_eq_some_iff.mp hkey) (h _)
  · rename_i hkey
    exact absurd (Kind.ofKeyword?_eq_some_iff.mp hkey) (h _)
  · rename_i hkey
    exact absurd (Kind.ofKeyword?_eq_some_iff.mp hkey) (h _)
  · rfl

@[simp] theorem error_ofWord (word : List Char) : (ofWord word).error = none := by
  unfold ofWord
  split <;> rfl

theorem scan_mark {c : Char} {k : Kind} (h : mark? c = some k) (cs : List Char) :
    scan c cs = (⟨k, [c], none, none⟩, cs) := by
  unfold scan
  rw [h]

theorem scan_quote (cs : List Char) : scan '"' cs = scanString cs := rfl

theorem scan_word {c : Char} (h : startsWord c = true) (cs : List Char) :
    scan c cs = (ofWord (c :: cs.takeWhile continuesWord), cs.dropWhile continuesWord) := by
  have hquote : c ≠ '"' := by
    rintro rfl
    cases h
  unfold scan
  rw [mark?_of_startsWord h]
  dsimp only
  rw [if_neg hquote, if_pos h]

theorem scan_digit {c : Char} (h : c.isDigit = true) (cs : List Char) :
    scan c cs = scanNumber (c :: cs) := by
  have hquote : c ≠ '"' := by
    rintro rfl
    cases h
  unfold scan
  rw [mark?_of_isDigit h]
  dsimp only
  rw [if_neg hquote, startsWord_of_isDigit h, if_pos h]
  rfl

theorem Unescapes.unescape {c : Char} {text value : List Char} (h : Unescapes text value) :
    Unescapes ('\\' :: c :: text) (unescape c :: value) := by
  unfold Lexeme.unescape
  split
  · rename_i hn
    exact hn ▸ .newline h
  · split
    · rename_i ht
      exact ht ▸ .tab h
    · rename_i hn ht
      exact .other hn ht h

theorem scanBody_escape (c : Char) (cs : List Char) :
    scanBody ('\\' :: c :: cs) = ⟨'\\' :: c :: (scanBody cs).text,
      unescape c :: (scanBody cs).value, (scanBody cs).closed, (scanBody cs).rest⟩ := by
  rw [scanBody]

theorem scanBody_plain {c : Char} (hquote : c ≠ '"') (hslash : c ≠ '\\') (cs : List Char) :
    scanBody (c :: cs) =
      ⟨c :: (scanBody cs).text, c :: (scanBody cs).value, (scanBody cs).closed,
        (scanBody cs).rest⟩ := by
  rw [scanBody]
  · exact fun h => hquote h
  · intro h
    exact absurd h hslash
  · intro d ds h
    exact absurd h hslash

/-- Characters that stand for themselves or are escaped do not close a string. -/
theorem scanBody_append {text value : List Char} (h : Unescapes text value) (cs : List Char) :
    scanBody (text ++ cs) = ⟨text ++ (scanBody cs).text, value ++ (scanBody cs).value,
      (scanBody cs).closed, (scanBody cs).rest⟩ := by
  induction h with
  | nil => rfl
  | plain hquote hslash _ ih =>
    rw [List.cons_append, scanBody_plain hquote hslash, ih]
    rfl
  | newline _ ih =>
    rw [List.cons_append, List.cons_append, scanBody_escape, ih]
    rfl
  | tab _ ih =>
    rw [List.cons_append, List.cons_append, scanBody_escape, ih]
    rfl
  | @other c text value hn ht _ ih =>
    have hc : unescape c = c := by rw [unescape, if_neg hn, if_neg ht]
    rw [List.cons_append, List.cons_append, scanBody_escape, ih, hc]
    rfl

/-- The three ways in which a string ends. -/
theorem scanBody_cases (cs : List Char) : ∃ text value, Unescapes text value ∧
    ((∃ rest, scanBody cs = ⟨text ++ ['"'], value, true, rest⟩) ∨
      scanBody cs = ⟨text, value, false, []⟩ ∨
      scanBody cs = ⟨text ++ ['\\'], value, false, []⟩) := by
  fun_induction scanBody cs with
  | case1 => exact ⟨[], [], .nil, .inr (.inl rfl)⟩
  | case2 cs => exact ⟨[], [], .nil, .inl ⟨cs, rfl⟩⟩
  | case3 => exact ⟨[], [], .nil, .inr (.inr rfl)⟩
  | case4 c cs b ih =>
    obtain ⟨text, value, h, hb⟩ := ih
    refine ⟨'\\' :: c :: text, unescape c :: value, h.unescape, ?_⟩
    rcases hb with ⟨rest, hb⟩ | hb | hb <;> simp [b, hb]
  | case5 c cs hquote hend hescape b ih =>
    obtain ⟨text, value, h, hb⟩ := ih
    have hslash : c ≠ '\\' := by
      intro hc
      cases cs with
      | nil => exact hend hc rfl
      | cons d ds => exact hescape d ds hc rfl
    refine ⟨c :: text, c :: value, .plain hquote hslash h, ?_⟩
    rcases hb with ⟨rest, hb⟩ | hb | hb <;> simp [b, hb]

/-- The text does not start with a character of the class. -/
def NotAhead (p : Char → Bool) (cs : List Char) : Prop := ∀ c ∈ cs.head?, p c = false

/-- A digit after a point makes it part of the number before. -/
def NoFraction (cs : List Char) : Prop :=
  ∀ d rest, cs = '.' :: d :: rest → d.isDigit = false

theorem scanNumber_digits {digits rest : List Char} (h : IsDigits digits)
    (hrest : NotAhead Char.isDigit rest) (hpoint : NoFraction rest) :
    scanNumber (digits ++ rest) = (ofDigits digits, rest) := by
  obtain ⟨htake, hdrop⟩ := takeWhile_run h.2 hrest
  unfold scanNumber
  rw [htake, hdrop]
  dsimp only
  split
  · rename_i d ds
    rw [hpoint d ds rfl]
    rfl
  · rfl

theorem scanNumber_fraction {whole places rest : List Char} (hwhole : IsDigits whole)
    (hplaces : IsDigits places) (hrest : NotAhead Char.isDigit rest) :
    scanNumber (whole ++ '.' :: (places ++ rest)) = (ofFraction whole places, rest) := by
  have hpoint : ∀ c ∈ ('.' :: (places ++ rest)).head?, c.isDigit = false := by simp
  obtain ⟨htake, hdrop⟩ := takeWhile_run hwhole.2 hpoint
  obtain ⟨htake', hdrop'⟩ := takeWhile_run hplaces.2 hrest
  unfold scanNumber
  rw [htake, hdrop]
  cases places with
  | nil => exact absurd rfl hplaces.1
  | cons d places =>
    have hd : d.isDigit = true := hplaces.2 d (by simp)
    rw [List.cons_append] at htake' hdrop'
    simp [hd, htake', hdrop']

/-- The characters that start a lexeme other than an unknown one, whatever follows. -/
def startsLexeme (c : Char) : Bool := (mark? c).isSome || c = '"' || startsWord c || c.isDigit

/-- The lexeme at the front of a text, and the text after it, which does not continue it. -/
inductive Front : Lexeme → List Char → Prop where
  | mark {text rest : List Char} {kind : Kind} (h : (text, kind) ∈ marks) :
      Front ⟨kind, text, none, none⟩ rest
  | word {c : Char} {more rest : List Char} (hc : startsWord c = true)
      (hmore : ∀ d ∈ more, continuesWord d = true) (hrest : NotAhead continuesWord rest) :
      Front (ofWord (c :: more)) rest
  | int {digits rest : List Char} (h : IsDigits digits) (hrest : NotAhead Char.isDigit rest)
      (hpoint : NoFraction rest) : Front (ofDigits digits) rest
  | float {whole places rest : List Char} (hwhole : IsDigits whole) (hplaces : IsDigits places)
      (hrest : NotAhead Char.isDigit rest) : Front (ofFraction whole places) rest
  | string {text value rest : List Char} (h : Unescapes text value) :
      Front ⟨.string, '"' :: (text ++ ['"']), some (.string (String.ofList value)), none⟩ rest
  | openString {text value : List Char} (h : Unescapes text value) :
      Front ⟨.string, '"' :: text, some (.string (String.ofList value)), some .unclosedString⟩ []
  | openEscape {text value : List Char} (h : Unescapes text value) :
      Front ⟨.string, '"' :: (text ++ ['\\']), some (.string (String.ofList value)),
        some .unclosedString⟩ []
  | unknown {c : Char} {rest : List Char} (hc : startsLexeme c = false)
      (hmark : ∀ more kind, (c :: more, kind) ∈ marks → ¬ more <+: rest) :
      Front ⟨.unknown, [c], none, some (.unexpectedChar c)⟩ rest

/-- The front of a text stays its front when what follows is cut short. -/
theorem Front.cut {l : Lexeme} {rest rest' : List Char} (h : Front l rest) (hcut : rest' <+: rest) :
    Front l rest' := by
  have hhead : ∀ {p}, NotAhead p rest → NotAhead p rest' := by
    intro p hp c hc
    cases rest' with
    | nil => cases hc
    | cons d ds =>
      obtain ⟨more, rfl⟩ := hcut
      exact hp c hc
  cases h with
  | mark h => exact .mark h
  | word hc hmore hrest => exact .word hc hmore (hhead hrest)
  | int h hrest hpoint =>
    refine .int h (hhead hrest) ?_
    rintro d ds rfl
    obtain ⟨more, rfl⟩ := hcut
    exact hpoint d (ds ++ more) rfl
  | float hwhole hplaces hrest => exact .float hwhole hplaces (hhead hrest)
  | string h => exact .string h
  | openString h =>
    cases List.prefix_nil.mp hcut
    exact .openString h
  | openEscape h =>
    cases List.prefix_nil.mp hcut
    exact .openEscape h
  | unknown hc hmark =>
    exact .unknown hc fun more kind hmem hmore => hmark more kind hmem (hmore.trans hcut)

theorem Front.spells {l : Lexeme} {rest : List Char} (h : Front l rest)
    (hkind : l.kind ≠ .unknown) : Spells l.text rest l.kind l.value := by
  cases h with
  | mark h => exact .mark h
  | @word c more _ hc hmore _ =>
    by_cases hkey : ∃ k, (String.ofList (c :: more), k) ∈ Kind.keywords
    · obtain ⟨k, hk⟩ := hkey
      have hspells : Spells _ rest k _ := .keyword hk
      rw [String.toList_ofList] at hspells
      rw [ofWord_of_mem hk]
      exact hspells
    · rw [not_exists] at hkey
      rw [ofWord_of_not_mem hkey]
      exact .name hc hmore hkey
  | int h _ _ => exact .int h rfl
  | float hwhole hplaces _ => exact .float hwhole hplaces rfl
  | string h => exact .string h
  | openString h => exact .openString h
  | openEscape h => exact .openEscape h
  | unknown _ _ => exact absurd rfl hkind

theorem startsLexeme_eq_false_iff {c : Char} : startsLexeme c = false ↔
    mark? c = none ∧ c ≠ '"' ∧ startsWord c = false ∧ c.isDigit = false := by
  simp [startsLexeme, and_assoc]

theorem scan_unknown {c : Char} {rest : List Char} (hc : startsLexeme c = false)
    (hmark : ∀ more kind, (c :: more, kind) ∈ marks → ¬ more <+: rest) :
    scan c rest = (⟨.unknown, [c], none, some (.unexpectedChar c)⟩, rest) := by
  obtain ⟨hmark?, hquote, hword, hdigit⟩ := startsLexeme_eq_false_iff.mp hc
  unfold scan
  rw [hmark?]
  dsimp only
  rw [if_neg hquote, hword, hdigit]
  simp only [Bool.false_eq_true, if_false]
  split
  · exact absurd (List.prefix_append ['='] _) (hmark ['='] .colonEq (by decide))
  · exact absurd (List.prefix_append ['='] _) (hmark ['='] .questionEq (by decide))
  · rfl

/-- A text whose front is known is scanned as that front. -/
theorem Front.scan_eq {l : Lexeme} {rest : List Char} (h : Front l rest) {c : Char}
    {cs : List Char} (hcs : l.text ++ rest = c :: cs) : scan c cs = (l, rest) := by
  cases h with
  | @mark text _ kind h =>
    simp only [marks, List.mem_cons, Prod.mk.injEq, List.not_mem_nil, or_false] at h
    rcases h with ⟨rfl, rfl⟩ | ⟨rfl, rfl⟩ | ⟨rfl, rfl⟩ | ⟨rfl, rfl⟩ | ⟨rfl, rfl⟩ | ⟨rfl, rfl⟩ |
      ⟨rfl, rfl⟩ | ⟨rfl, rfl⟩ | ⟨rfl, rfl⟩ | ⟨rfl, rfl⟩ | ⟨rfl, rfl⟩ | ⟨rfl, rfl⟩ <;>
      cases hcs <;> rfl
  | @word c more _ hc hmore hrest =>
    rw [text_ofWord, List.cons_append] at hcs
    obtain ⟨rfl, rfl⟩ := List.cons.inj hcs
    obtain ⟨htake, hdrop⟩ := takeWhile_run hmore hrest
    rw [scan_word hc, htake, hdrop]
  | @int digits _ h hrest hpoint =>
    cases digits with
    | nil => exact absurd rfl h.1
    | cons d digits =>
      rw [text_ofDigits, List.cons_append] at hcs
      obtain ⟨rfl, rfl⟩ := List.cons.inj hcs
      rw [scan_digit (h.2 d (by simp)), ← List.cons_append, scanNumber_digits h hrest hpoint]
  | @float whole places _ hwhole hplaces hrest =>
    cases whole with
    | nil => exact absurd rfl hwhole.1
    | cons d whole =>
      rw [text_ofFraction, List.append_assoc, List.cons_append, List.cons_append] at hcs
      obtain ⟨rfl, rfl⟩ := List.cons.inj hcs
      rw [scan_digit (hwhole.2 d (by simp)), ← List.cons_append,
        scanNumber_fraction hwhole hplaces hrest]
  | string h =>
    rw [List.cons_append, List.append_assoc] at hcs
    cases hcs
    rw [scan_quote, scanString, scanBody_append h]
    simp [scanBody]
  | openString h =>
    rw [List.append_nil] at hcs
    cases hcs
    have hbody := scanBody_append h []
    rw [List.append_nil] at hbody
    rw [scan_quote, scanString, hbody]
    simp [scanBody]
  | openEscape h =>
    rw [List.append_nil] at hcs
    cases hcs
    rw [scan_quote, scanString, scanBody_append h]
    simp [scanBody]
  | unknown hc hmark =>
    cases hcs
    exact scan_unknown hc hmark

theorem front_scanNumber {c : Char} (hc : c.isDigit = true) (cs : List Char) :
    Front (scanNumber (c :: cs)).1 (scanNumber (c :: cs)).2 := by
  have hwhole : IsDigits ((c :: cs).takeWhile Char.isDigit) :=
    ⟨by simp [hc], fun d hd => List.mem_takeWhile_imp hd⟩
  have hrest := head?_dropWhile Char.isDigit (c :: cs)
  unfold scanNumber
  dsimp only
  split
  · rename_i d rest hpoint
    split
    · rename_i hd
      refine .float hwhole ⟨by simp [hd], fun e he => List.mem_takeWhile_imp he⟩ ?_
      exact head?_dropWhile Char.isDigit (d :: rest)
    · rename_i hd
      rw [hpoint] at hrest
      refine .int hwhole hrest ?_
      rintro e rest' ⟨rfl, rfl⟩
      exact Bool.eq_false_iff.mpr hd
  · rename_i hpoint
    refine .int hwhole hrest ?_
    intro d rest' h
    exact absurd h (hpoint d rest')

theorem front_scan (c : Char) (cs : List Char) : Front (scan c cs).1 (scan c cs).2 := by
  cases hmark : mark? c with
  | some k =>
    rw [scan_mark hmark]
    exact .mark (mark?_eq_some_iff.mp hmark)
  | none =>
    by_cases hquote : c = '"'
    · subst hquote
      rw [scan_quote, scanString]
      obtain ⟨text, value, h, ⟨rest, hb⟩ | hb | hb⟩ := scanBody_cases cs
      · rw [hb]
        exact .string h
      · rw [hb]
        exact .openString h
      · rw [hb]
        exact .openEscape h
    · by_cases hword : startsWord c = true
      · rw [scan_word hword]
        exact .word hword (fun d hd => List.mem_takeWhile_imp hd)
          (head?_dropWhile continuesWord cs)
      · by_cases hdigit : c.isDigit = true
        · rw [scan_digit hdigit]
          exact front_scanNumber hdigit cs
        · have hc : startsLexeme c = false := startsLexeme_eq_false_iff.mpr
            ⟨hmark, hquote, Bool.eq_false_iff.mpr hword, Bool.eq_false_iff.mpr hdigit⟩
          by_cases htwo : ∃ more kind, (c :: more, kind) ∈ marks ∧ more <+: cs
          · obtain ⟨more, kind, hmem, rest, rfl⟩ := htwo
            have hfront : Front ⟨kind, c :: more, none, none⟩ rest := .mark hmem
            have hscan : scan c (more ++ rest) = _ := hfront.scan_eq rfl
            rw [hscan]
            exact hfront
          · rw [scan_unknown hc fun more kind hmem hmore => htwo ⟨more, kind, hmem, hmore⟩]
            exact .unknown hc fun more kind hmem hmore => htwo ⟨more, kind, hmem, hmore⟩

theorem exists_run (p : Char → Bool) (cs : List Char) :
    ∃ run rest, cs = run ++ rest ∧ (∀ c ∈ run, p c = true) ∧ NotAhead p rest :=
  ⟨cs.takeWhile p, cs.dropWhile p, List.takeWhile_append_dropWhile.symm,
    fun _ hc => List.mem_takeWhile_imp hc, head?_dropWhile p cs⟩

theorem continuesWord_of_startsWord {c : Char} (h : startsWord c = true) :
    continuesWord c = true := by
  simp only [startsWord, continuesWord, Char.isAlphanum, Bool.or_eq_true] at h ⊢
  exact h.imp_left .inl

/-- Keywords are words. -/
theorem exists_word_of_mem {word : String} {k : Kind} (h : (word, k) ∈ Kind.keywords) :
    ∃ c more, word.toList = c :: more ∧ startsWord c = true ∧
      ∀ d ∈ more, continuesWord d = true := by
  have hall : ∀ p ∈ Kind.keywords, p.1.toList.head?.any startsWord = true ∧
      p.1.toList.tail.all continuesWord = true := by decide +kernel
  obtain ⟨hhead, htail⟩ := hall _ h
  cases hword : word.toList with
  | nil => simp [hword] at hhead
  | cons c more =>
    rw [hword] at hhead htail
    exact ⟨c, more, rfl, by simpa using hhead, by simpa using htail⟩

theorem Spells.kind_ne {text rest : List Char} {kind : Kind} {value : Option Literal}
    (h : Spells text rest kind value) : kind ≠ .eof ∧ kind ≠ .unknown := by
  cases h with
  | keyword h =>
    have hall : ∀ p ∈ Kind.keywords, p.2 ≠ .eof ∧ p.2 ≠ .unknown := by decide
    exact hall _ h
  | mark h =>
    have hall : ∀ p ∈ marks, p.2 ≠ .eof ∧ p.2 ≠ .unknown := by decide
    exact hall _ h
  | name | int | float | string | openString | openEscape => decide

theorem Front.kind_ne_eof {l : Lexeme} {rest : List Char} (h : Front l rest) : l.kind ≠ .eof := by
  by_cases hkind : l.kind = .unknown
  · rw [hkind]
    decide
  · exact (h.spells hkind).kind_ne.1

theorem Spells.text_ne_nil {text rest : List Char} {kind : Kind} {value : Option Literal}
    (h : Spells text rest kind value) : text ≠ [] := by
  cases h with
  | keyword h =>
    obtain ⟨c, more, hword, -, -⟩ := exists_word_of_mem h
    simp [hword]
  | mark h =>
    have hall : ∀ p ∈ marks, p.1 ≠ [] := by decide
    exact hall _ h
  | int h => exact h.1
  | name | float | string | openString | openEscape => simp

/-- A spelled token lies in the front: nothing is spelled beyond it, and only the front itself has
the same text. -/
structure Within (text : List Char) (kind : Kind) (value : Option Literal) (l : Lexeme) : Prop where
  known : l.kind ≠ .unknown
  length_le : text.length ≤ l.text.length
  agrees : text = l.text → kind = l.kind ∧ value = l.value

/-- What holds of the kinds of all keywords and of names holds of the kinds of words. -/
theorem kind_ofWord {P : Kind → Prop} (hkeywords : ∀ p ∈ Kind.keywords, P p.2)
    (hname : P .identifier) (word : List Char) : P (ofWord word).kind := by
  by_cases hkey : ∃ k, (String.ofList word, k) ∈ Kind.keywords
  · obtain ⟨k, hk⟩ := hkey
    rw [ofWord_of_mem hk]
    exact hkeywords _ hk
  · rw [ofWord_of_not_mem (not_exists.mp hkey)]
    exact hname

theorem kind_ofWord_not_mem (word : List Char) : (ofWord word).kind ∉ [.string, .unknown] :=
  kind_ofWord (P := (· ∉ [.string, .unknown])) (by decide) (by decide) word

theorem kind_ofWord_ne (word : List Char) : (ofWord word).kind ≠ .unknown :=
  fun h => kind_ofWord_not_mem word (by simp [h])

/-- Every text that starts with a word has a front that starts with it. -/
theorem exists_front_of_word {c : Char} {more : List Char} (hc : startsWord c = true)
    (hmore : ∀ d ∈ more, continuesWord d = true) (rest : List Char) :
    ∃ l rest', Front l rest' ∧ l.text ++ rest' = (c :: more) ++ rest ∧
      Within (c :: more) (ofWord (c :: more)).kind (ofWord (c :: more)).value l := by
  obtain ⟨run, rest', rfl, hrun, hrest'⟩ := exists_run continuesWord rest
  have hall : ∀ d ∈ more ++ run, continuesWord d = true := List.forall_mem_append.mpr ⟨hmore, hrun⟩
  refine ⟨_, rest', .word hc hall hrest', by simp, kind_ofWord_ne _, by simp, ?_⟩
  intro htext
  rw [text_ofWord] at htext
  rw [← htext]
  exact ⟨rfl, rfl⟩

theorem exists_front_of_digits {digits rest : List Char} (h : IsDigits digits) :
    ∃ l rest', Front l rest' ∧ l.text ++ rest' = digits ++ rest ∧
      Within digits .int (ofDigits digits).value l := by
  obtain ⟨run, after, rfl, hrun, hafter⟩ := exists_run Char.isDigit rest
  have hall : IsDigits (digits ++ run) :=
    ⟨by simp [h.1], List.forall_mem_append.mpr ⟨h.2, hrun⟩⟩
  by_cases hpoint : NoFraction after
  · refine ⟨_, after, .int hall hafter hpoint, by simp, by simp [ofDigits], by simp, ?_⟩
    intro htext
    rw [text_ofDigits] at htext
    rw [← htext]
    exact ⟨rfl, rfl⟩
  · simp only [NoFraction, not_forall, Bool.not_eq_false] at hpoint
    obtain ⟨d, tail, rfl, hd⟩ := hpoint
    obtain ⟨places, rest', hsplit, hplaces, hrest'⟩ := exists_run Char.isDigit (d :: tail)
    have hne : places ≠ [] := by
      rintro rfl
      rw [List.nil_append] at hsplit
      have := hrest' d (by rw [← hsplit]; rfl)
      rw [hd] at this
      cases this
    refine ⟨_, rest', .float hall ⟨hne, hplaces⟩ hrest', by simp [hsplit], by simp [ofFraction],
      by simp, ?_⟩
    intro htext
    have hlength := congrArg List.length htext
    simp only [text_ofFraction, List.length_append, List.length_cons] at hlength
    omega

theorem exists_front_of_fraction {whole places rest : List Char} (hwhole : IsDigits whole)
    (hplaces : IsDigits places) :
    ∃ l rest', Front l rest' ∧ l.text ++ rest' = (whole ++ '.' :: places) ++ rest ∧
      Within (whole ++ '.' :: places) .float (ofFraction whole places).value l := by
  obtain ⟨run, rest', rfl, hrun, hrest'⟩ := exists_run Char.isDigit rest
  have hall : IsDigits (places ++ run) :=
    ⟨by simp [hplaces.1], List.forall_mem_append.mpr ⟨hplaces.2, hrun⟩⟩
  refine ⟨_, rest', .float hwhole hall hrest', by simp, by simp [ofFraction], by simp, ?_⟩
  intro htext
  have hrunNil : run = [] := by simpa using htext
  rw [hrunNil, List.append_nil]
  exact ⟨rfl, rfl⟩

/-- Every text that starts with a token has a front that starts with it. -/
theorem Spells.exists_front {text rest : List Char} {kind : Kind} {value : Option Literal}
    (h : Spells text rest kind value) :
    ∃ l rest', Front l rest' ∧ l.text ++ rest' = text ++ rest ∧ Within text kind value l := by
  -- A front with just this text.
  have hself : ∀ {error}, Front ⟨kind, text, value, error⟩ rest → kind ≠ .unknown →
      ∃ l rest', Front l rest' ∧ l.text ++ rest' = text ++ rest ∧ Within text kind value l :=
    fun hfront hkind => ⟨_, rest, hfront, rfl, hkind, Nat.le_refl _, fun _ => ⟨rfl, rfl⟩⟩
  cases h with
  | @keyword word _ _ h =>
    obtain ⟨c, more, hword, hc, hmore⟩ := exists_word_of_mem h
    rw [← String.ofList_toList (s := word), hword] at h
    have hfront := exists_front_of_word hc hmore rest
    rw [ofWord_of_mem h] at hfront
    rw [hword]
    exact hfront
  | name hc hmore hkey =>
    have hfront := exists_front_of_word hc hmore rest
    rw [ofWord_of_not_mem hkey] at hfront
    exact hfront
  | int h hn =>
    subst hn
    exact exists_front_of_digits h
  | float hwhole hplaces hx =>
    subst hx
    exact exists_front_of_fraction hwhole hplaces
  | string h => exact hself (.string h) (by decide)
  | openString h => exact hself (.openString h) (by decide)
  | openEscape h => exact hself (.openEscape h) (by decide)
  | mark h =>
    have hmark : Spells text rest kind none := .mark h
    exact hself (.mark h) hmark.kind_ne.2

theorem Front.eq_unknown {l : Lexeme} {rest : List Char} (h : Front l rest)
    (hkind : l.kind = .unknown) : ∃ c, l = ⟨.unknown, [c], none, some (.unexpectedChar c)⟩ := by
  cases h with
  | mark h =>
    have hall : ∀ p ∈ marks, p.2 ≠ .unknown := by decide
    exact absurd hkind (hall _ h)
  | word => exact absurd hkind (kind_ofWord_ne _)
  | unknown => exact ⟨_, rfl⟩
  | int | float | string | openString | openEscape => cases hkind

theorem Front.text_ne_nil {l : Lexeme} {rest : List Char} (h : Front l rest) : l.text ≠ [] := by
  by_cases hkind : l.kind = .unknown
  · obtain ⟨c, rfl⟩ := h.eq_unknown hkind
    simp
  · exact (h.spells hkind).text_ne_nil

theorem Front.exists_cons {l : Lexeme} {rest : List Char} (h : Front l rest) :
    ∃ c cs, l.text ++ rest = c :: cs :=
  List.exists_cons_of_ne_nil (List.append_ne_nil_of_left_ne_nil h.text_ne_nil rest)

/-- Two fronts of one text are the same. -/
theorem Front.unique {l l' : Lexeme} {rest rest' : List Char} (h : Front l rest)
    (h' : Front l' rest') (htext : l'.text ++ rest' = l.text ++ rest) : l' = l ∧ rest' = rest := by
  obtain ⟨c, cs, hcs⟩ := h.exists_cons
  have hscan := h.scan_eq hcs
  rw [h'.scan_eq (htext.trans hcs)] at hscan
  exact Prod.mk.inj hscan

/-- The front of a text is the longest token at its start. -/
theorem Front.within {l : Lexeme} {rest text rest' : List Char} {kind : Kind}
    {value : Option Literal} (h : Front l rest) (hspells : Spells text rest' kind value)
    (htext : text ++ rest' = l.text ++ rest) : Within text kind value l := by
  obtain ⟨l', after, hfront, hsplit, hwithin⟩ := hspells.exists_front
  obtain ⟨rfl, -⟩ := h.unique hfront (hsplit.trans htext)
  exact hwithin

/-- The longest token at the start of a text is its front. -/
theorem Spells.front {text rest : List Char} {kind : Kind} {value : Option Literal}
    (h : Spells text rest kind value) (hlongest : Longest text rest) :
    ∃ error, Front ⟨kind, text, value, error⟩ rest := by
  obtain ⟨l, rest', hfront, hsplit, hwithin⟩ := h.exists_front
  have hle := hlongest l.text rest' hsplit (.token (hfront.spells hwithin.known))
  obtain ⟨htext, rfl⟩ := List.append_inj hsplit (Nat.le_antisymm hle hwithin.length_le)
  obtain ⟨rfl, rfl⟩ := hwithin.agrees htext.symm
  subst htext
  exact ⟨l.error, hfront⟩

end Lexeme
end HumanScript
