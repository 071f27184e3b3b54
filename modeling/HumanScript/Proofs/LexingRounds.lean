import HumanScript.Proofs.MaximalMunch

/-! A text read in loops that nothing but the text brings to an end: over the characters of a run,
over blanks and comments, over the inside of a string, from token to token. Each loop comes with a
limit on its rounds, and to nothing if it is cut off there. None is, since every round takes
characters, and what the loops find are the tokens of the text. -/
namespace HumanScript

section Loops
variable {σ : Type} {more : σ → Bool} {round : σ → Option σ} {rounds : Nat} {s : σ}

/-- Goes round as long as `more` says so, so many times at most. A loop that is cut off there comes
to nothing. -/
def loop (more : σ → Bool) (round : σ → Option σ) : (rounds : Nat) → σ → Option σ
  | 0, s => if more s then none else some s
  | rounds + 1, s => if more s then (round s).bind (loop more round rounds) else some s

/-- A loop whose rounds keep a property and make a measure smaller ends, with no more rounds than
the measure says. -/
theorem loop_ends (inv : σ → Prop) (measure : σ → Nat)
    (hround : ∀ s, inv s → more s = true →
      ∃ s', round s = some s' ∧ inv s' ∧ measure s' < measure s)
    (hs : inv s) (hrounds : measure s ≤ rounds) :
    ∃ s', loop more round rounds s = some s' ∧ inv s' ∧ more s' = false := by
  induction rounds generalizing s with
  | zero =>
    cases hmore : more s with
    | false => exact ⟨s, by simp [loop, hmore], hs, hmore⟩
    | true =>
      obtain ⟨s', -, -, hless⟩ := hround s hs hmore
      omega
  | succ rounds ih =>
    cases hmore : more s with
    | false => exact ⟨s, by simp [loop, hmore], hs, hmore⟩
    | true =>
      obtain ⟨s', hs', hinv, hless⟩ := hround s hs hmore
      obtain ⟨s'', hloop, hrest⟩ := ih hinv (by omega)
      refine ⟨s'', ?_, hrest⟩
      rw [loop, if_pos hmore, hs']
      exact hloop

/-- A loop finds what all its rounds leave as it is. -/
theorem loop_eq (result : σ → σ) (measure : σ → Nat)
    (hround : ∀ s, more s = true →
      ∃ s', round s = some s' ∧ result s' = result s ∧ measure s' < measure s)
    (hdone : ∀ s, more s = false → result s = s) (hrounds : measure s ≤ rounds) :
    loop more round rounds s = some (result s) := by
  have hkeep : ∀ s', result s' = result s → more s' = true →
      ∃ s'', round s' = some s'' ∧ result s'' = result s ∧ measure s'' < measure s' := by
    intro s' hs' hmore
    obtain ⟨s'', hs'', hsame, hless⟩ := hround s' hmore
    exact ⟨s'', hs'', hsame.trans hs', hless⟩
  obtain ⟨s', hloop, hresult, hmore⟩ := loop_ends _ measure hkeep rfl hrounds
  rw [hloop, ← hresult, hdone s' hmore]

end Loops

namespace Text

/-- How far a text has been read: the bytes passed, and the characters still to come. -/
@[ext] structure Cursor where
  offset : Nat
  rest : List Char

namespace Cursor

/-- Takes the next character, if there is one. -/
def advance (s : Cursor) : Cursor :=
  match s.rest with
  | [] => s
  | c :: cs => ⟨s.offset + c.utf8Size, cs⟩

/-- From the first place to the second one takes these characters. -/
structure Passes (s : Cursor) (taken : List Char) (s' : Cursor) : Prop where
  rest : s.rest = taken ++ s'.rest
  offset : s'.offset = s.offset + byteLength taken

theorem Passes.refl (s : Cursor) : s.Passes [] s := ⟨rfl, rfl⟩

theorem Passes.trans {s s' s'' : Cursor} {taken more : List Char} (h : s.Passes taken s')
    (h' : s'.Passes more s'') : s.Passes (taken ++ more) s'' := by
  refine ⟨?_, ?_⟩
  · rw [h.rest, h'.rest, List.append_assoc]
  · rw [h'.offset, h.offset, byteLength_append, Nat.add_assoc]

theorem Passes.length_lt {s s' : Cursor} {taken : List Char} (h : s.Passes taken s')
    (htaken : taken ≠ []) : s'.rest.length < s.rest.length := by
  have hpos := List.length_pos_iff.mpr htaken
  rw [h.rest, List.length_append]
  omega

/-- Passes over a run of characters, one a round. -/
def passWhile (p : Char → Bool) (s : Cursor) : Option Cursor :=
  loop (fun s => s.rest.head?.any p) (fun s => some s.advance) s.rest.length s

/-- Where a run of characters ends. -/
def runEnd (p : Char → Bool) (s : Cursor) : Cursor :=
  ⟨s.offset + byteLength (s.rest.takeWhile p), s.rest.dropWhile p⟩

theorem passes_runEnd (p : Char → Bool) (s : Cursor) :
    s.Passes (s.rest.takeWhile p) (s.runEnd p) :=
  ⟨List.takeWhile_append_dropWhile.symm, rfl⟩

theorem passWhile_eq (p : Char → Bool) (s : Cursor) : s.passWhile p = some (s.runEnd p) := by
  refine loop_eq (runEnd p) (fun s => s.rest.length) ?_ ?_ (Nat.le_refl _)
  · rintro ⟨offset, rest⟩ hmore
    cases rest with
    | nil => cases hmore
    | cons c cs =>
      have hc : p c = true := hmore
      refine ⟨_, rfl, ?_, Nat.lt_add_one cs.length⟩
      simp [runEnd, advance, hc, Nat.add_assoc]
  · rintro ⟨offset, rest⟩ hmore
    cases rest with
    | nil => rfl
    | cons c cs =>
      have hc : p c = false := hmore
      simp [runEnd, hc]

end Cursor
end Text

namespace Lexeme
open Text (Cursor)

/-- Two slashes are ahead. -/
def commentAhead (cs : List Char) : Bool := cs.take 2 = ['/', '/']

/-- A blank or a comment is ahead. -/
def triviaAhead (cs : List Char) : Bool := cs.head?.any isBlank || commentAhead cs

/-- One round over what stands between tokens: a blank, or a comment with a round for each character
of it. -/
def triviaRound (s : Cursor) : Option Cursor :=
  if s.rest.head?.any isBlank then some s.advance else s.passWhile (· ≠ '\n')

def passTrivia (s : Cursor) : Option Cursor :=
  loop (fun s => triviaAhead s.rest) triviaRound s.rest.length s

/-- One round of reading: past blanks and comments to the next token, or to the end. -/
def nextToken (s : Cursor) : Option (Token × List (Spanned LexError) × Cursor) :=
  (passTrivia s).map fun s =>
    match s.rest with
    | [] => (.eof s.offset, [], s)
    | c :: cs =>
      let lexeme := (scan c cs).1
      (lexeme.token s.offset, lexeme.errors s.offset, ⟨lexeme.stop s.offset, (scan c cs).2⟩)

theorem commentAhead_iff {cs : List Char} :
    commentAhead cs = true ↔ ∃ rest, cs = '/' :: '/' :: rest := by
  rw [commentAhead, decide_eq_true_eq]
  constructor
  · intro h
    exact ⟨cs.drop 2, by rw [← List.take_append_drop 2 cs, h]; rfl⟩
  · rintro ⟨rest, rfl⟩
    rfl

/-- Each round takes characters, and no token. -/
theorem triviaRound_ends {s : Cursor} (h : triviaAhead s.rest = true) :
    ∃ s' taken, triviaRound s = some s' ∧ s.Passes taken s' ∧ taken ≠ [] ∧
      Lexed.ofChars s'.offset s'.rest = Lexed.ofChars s.offset s.rest := by
  obtain ⟨offset, rest⟩ := s
  unfold triviaRound
  cases hblank : rest.head?.any isBlank with
  | true =>
    cases rest with
    | nil => cases hblank
    | cons c cs =>
      have hc : c ∈ blanks := isBlank_iff.mp hblank
      refine ⟨_, [c], rfl, ⟨rfl, rfl⟩, List.cons_ne_nil c [], ?_⟩
      exact (Lexed.ofChars_blank hc offset cs).symm
  | false =>
    have hcomment : commentAhead rest = true := by simpa [triviaAhead, hblank] using h
    obtain ⟨cs, rfl⟩ := commentAhead_iff.mp hcomment
    refine ⟨_, _, Cursor.passWhile_eq _ _, Cursor.passes_runEnd _ _, List.cons_ne_nil _ _, ?_⟩
    have hstop : offset + Text.byteLength (('/' :: '/' :: cs).takeWhile (· ≠ '\n')) =
        offset + 2 + Text.byteLength (cs.takeWhile (· ≠ '\n')) := by
      change offset + (1 + (1 + Text.byteLength (cs.takeWhile (· ≠ '\n')))) = _
      omega
    rw [Lexed.ofChars, ← hstop]
    rfl

/-- There are no tokens between the first place and the second. -/
structure Gap (s s' : Cursor) : Prop where
  passes : ∃ taken, s.Passes taken s'
  same : Lexed.ofChars s'.offset s'.rest = Lexed.ofChars s.offset s.rest

theorem passTrivia_ends (s : Cursor) :
    ∃ s', passTrivia s = some s' ∧ Gap s s' ∧ triviaAhead s'.rest = false := by
  refine loop_ends (Gap s) (fun s => s.rest.length) ?_ ⟨⟨[], .refl s⟩, rfl⟩ (Nat.le_refl _)
  rintro s' ⟨⟨taken, hpasses⟩, hsame⟩ hahead
  obtain ⟨s'', more, hround, hmore, hne, hsame'⟩ := triviaRound_ends hahead
  have hgap : Gap s s'' := ⟨⟨taken ++ more, hpasses.trans hmore⟩, hsame'.trans hsame⟩
  exact ⟨s'', hround, hgap, hmore.length_lt hne⟩

/-- Where no blank and no comment is ahead, the next token is scanned. -/
theorem ofChars_of_not_triviaAhead {offset : Nat} {c : Char} {cs : List Char}
    (h : triviaAhead (c :: cs) = false) :
    Lexed.ofChars offset (c :: cs) =
      let lexeme := (scan c cs).1
      let more := Lexed.ofChars (lexeme.stop offset) (scan c cs).2
      if lexeme.kind = .unknown then
        ⟨[lexeme.token offset], lexeme.stop offset, lexeme.errors offset⟩
      else
        ⟨lexeme.token offset :: more.tokens, more.stop, lexeme.errors offset ++ more.errors⟩ := by
  rw [triviaAhead, Bool.or_eq_false_iff] at h
  have hblank : isBlank c = false := h.1
  rw [Lexed.ofChars]
  · rw [if_neg (by simp [hblank])]
  · rintro rest rfl rfl
    exact absurd h.2 (by simp [commentAhead])

/-- What a round of reading finds: the end, an unknown character, which is the last thing found, or
a token with more to come. -/
inductive Finds (s : Cursor) : Token → List (Spanned LexError) → Cursor → Prop where
  | nothing {s' : Cursor} (h : Lexed.ofChars s.offset s.rest = ⟨[], s'.offset, []⟩) :
      Finds s (.eof s'.offset) [] s'
  | unknown {t : Token} {errors : List (Spanned LexError)} {s' : Cursor} (hkind : t.kind = .unknown)
      (h : Lexed.ofChars s.offset s.rest = ⟨[t], s'.offset, errors⟩) : Finds s t errors s'
  | token {t : Token} {errors : List (Spanned LexError)} {s' : Cursor} {more : Lexed}
      (heof : t.kind ≠ .eof) (hkind : t.kind ≠ .unknown)
      (hmore : Lexed.ofChars s'.offset s'.rest = more)
      (h : Lexed.ofChars s.offset s.rest = ⟨t :: more.tokens, more.stop, errors ++ more.errors⟩) :
      Finds s t errors s'

/-- A round that finds a token takes characters. -/
theorem nextToken_ends (s : Cursor) :
    ∃ t errors s' taken, nextToken s = some (t, errors, s') ∧ s.Passes taken s' ∧
      (t.kind ≠ .eof → taken ≠ []) ∧ Finds s t errors s' := by
  obtain ⟨⟨offset, rest⟩, hskip, ⟨⟨taken, hpasses⟩, hsame⟩, hahead⟩ := passTrivia_ends s
  rw [nextToken, hskip]
  cases rest with
  | nil =>
    rw [Lexed.ofChars] at hsame
    exact ⟨_, _, _, taken, rfl, hpasses, fun h => absurd rfl h, .nothing hsame.symm⟩
  | cons c cs =>
    have hscan : Cursor.Passes ⟨offset, c :: cs⟩ (scan c cs).1.text
        ⟨(scan c cs).1.stop offset, (scan c cs).2⟩ := ⟨(text_append_scan c cs).symm, rfl⟩
    refine ⟨_, _, _, _, rfl, hpasses.trans hscan, fun _ => ?_, ?_⟩
    · exact List.append_ne_nil_of_right_ne_nil _ (text_scan_ne_nil c cs)
    · rw [ofChars_of_not_triviaAhead hahead] at hsame
      dsimp only at hsame
      split at hsame
      · rename_i hkind
        exact .unknown hkind hsame.symm
      · rename_i hkind
        exact .token (front_scan c cs).kind_ne_eof hkind rfl hsame.symm

/-- A string on the way: what has been read of its inside, and whether that is all. -/
structure Quoting where
  body : Body
  finished : Bool

namespace Quoting

/-- One round: a character, or a backslash with the character that it takes with it. -/
def round (q : Quoting) : Quoting :=
  match q.body.rest with
  | [] => ⟨⟨q.body.text, q.body.value, false, []⟩, true⟩
  | '"' :: cs => ⟨⟨q.body.text ++ ['"'], q.body.value, true, cs⟩, true⟩
  | ['\\'] => ⟨⟨q.body.text ++ ['\\'], q.body.value, false, []⟩, true⟩
  | '\\' :: c :: cs => ⟨⟨q.body.text ++ ['\\', c], q.body.value ++ [unescape c], false, cs⟩, false⟩
  | c :: cs => ⟨⟨q.body.text ++ [c], q.body.value ++ [c], false, cs⟩, false⟩

def run (cs : List Char) : Option Quoting :=
  loop (fun q => !q.finished) (fun q => some q.round) (cs.length + 1) ⟨⟨[], [], false, cs⟩, false⟩

/-- The whole inside, once the rest of it is read. -/
def result (q : Quoting) : Quoting :=
  if q.finished then q
  else
    let b := scanBody q.body.rest
    ⟨⟨q.body.text ++ b.text, q.body.value ++ b.value, b.closed, b.rest⟩, true⟩

theorem run_eq (cs : List Char) : run cs = some ⟨scanBody cs, true⟩ := by
  refine loop_eq result (fun q => if q.finished then 0 else q.body.rest.length + 1) ?_ ?_ (by simp)
  · rintro ⟨⟨text, value, closed, rest⟩, done⟩ hmore
    obtain rfl : done = false := by simpa using hmore
    refine ⟨_, rfl, ?_⟩
    unfold round
    dsimp only
    split <;> simp [result, scanBody]
  · rintro q hfinished
    exact if_pos (by simpa using hfinished)

end Quoting
end Lexeme

/-- A text on the way: how far it has been read, and what has been found so far. -/
structure Lexing where
  cursor : Text.Cursor
  tokens : List Token
  errors : List (Spanned LexError)

namespace Lexing

/-- The end has been found. -/
def finished (s : Lexing) : Bool := s.tokens.getLast?.any (·.kind = .eof)

/-- One round: the next token. After an unknown character the reading is at its end. -/
def round (s : Lexing) : Option Lexing :=
  (Lexeme.nextToken s.cursor).map fun (t, errors, cursor) =>
    { cursor
      tokens := s.tokens ++ if t.kind = .unknown then [t, .eof cursor.offset] else [t]
      errors := s.errors ++ errors }

def run (src : String) : Option Lexing :=
  loop (fun s => !s.finished) round (src.length + 1) ⟨⟨0, src.toList⟩, [], []⟩

/-- With what is still ahead, what has been found makes up `l`. -/
structure Towards (l : Lexed) (s : Lexing) : Prop where
  ahead : s.finished = false →
    s.tokens ++ (Lexed.ofChars s.cursor.offset s.cursor.rest).all = l.all ∧
      s.errors ++ (Lexed.ofChars s.cursor.offset s.cursor.rest).errors = l.errors
  done : s.finished = true → s.tokens = l.all ∧ s.errors = l.errors

/-- How many more rounds there are at most. -/
def left (s : Lexing) : Nat := if s.finished then 0 else s.cursor.rest.length + 1

theorem Towards.of_finished {l : Lexed} {s : Lexing} (hs : s.finished = true)
    (htokens : s.tokens = l.all) (herrors : s.errors = l.errors) : Towards l s := by
  refine ⟨fun h => ?_, fun _ => ⟨htokens, herrors⟩⟩
  rw [hs] at h
  cases h

theorem round_ends {l : Lexed} {s : Lexing} (hs : Towards l s) (hfinished : s.finished = false) :
    ∃ s', s.round = some s' ∧ Towards l s' ∧ s'.left < s.left := by
  obtain ⟨htokens, herrors⟩ := hs.ahead hfinished
  obtain ⟨t, errors, cursor, taken, hnext, hpasses, htaken, hfinds⟩ :=
    Lexeme.nextToken_ends s.cursor
  have hround : s.round = some ⟨cursor, s.tokens ++
      if t.kind = .unknown then [t, .eof cursor.offset] else [t], s.errors ++ errors⟩ := by
    rw [round, hnext]
    rfl
  have hleft : s.left = s.cursor.rest.length + 1 := if_neg (by simp [hfinished])
  have hend : ∀ s' : Lexing, s'.finished = true → s'.left < s.left := by
    intro s' hs'
    rw [left, if_pos hs', hleft]
    exact Nat.succ_pos _
  refine ⟨_, hround, ?_⟩
  cases hfinds with
  | nothing h =>
    rw [h] at htokens herrors
    have hdone : finished ⟨cursor, s.tokens ++ [.eof cursor.offset], s.errors ++ []⟩ = true := by
      simp [finished, Token.eof]
    exact ⟨.of_finished hdone htokens herrors, hend _ hdone⟩
  | unknown hkind h =>
    rw [h] at htokens herrors
    have hdone : finished ⟨cursor, s.tokens ++ [t, .eof cursor.offset], s.errors ++ errors⟩ =
        true := by simp [finished, Token.eof]
    rw [if_pos hkind]
    exact ⟨.of_finished hdone htokens herrors, hend _ hdone⟩
  | @token _ _ _ more heof hkind hmore h =>
    rw [h] at htokens herrors
    have hgoes : finished ⟨cursor, s.tokens ++ [t], s.errors ++ errors⟩ = false := by
      simp [finished, heof]
    rw [if_neg hkind]
    refine ⟨⟨fun _ => ?_, fun hdone => ?_⟩, ?_⟩
    · rw [hmore]
      exact ⟨by simpa [Lexed.all] using htokens, by simpa using herrors⟩
    · rw [hgoes] at hdone
      cases hdone
    · rw [left, hgoes, hleft]
      have hless := hpasses.length_lt (htaken heof)
      simpa using hless

theorem run_ends (src : String) :
    ∃ s, run src = some s ∧ s.tokens = (Lexed.ofSource src).all ∧
      s.errors = (Lexed.ofSource src).errors := by
  have hstart : Towards (.ofSource src) ⟨⟨0, src.toList⟩, [], []⟩ :=
    ⟨fun _ => ⟨rfl, rfl⟩, fun h => by cases h⟩
  have hkeep : ∀ s, Towards (.ofSource src) s → (!s.finished) = true →
      ∃ s', s.round = some s' ∧ Towards (.ofSource src) s' ∧ s'.left < s.left :=
    fun s hs hmore => round_ends hs (by simpa using hmore)
  obtain ⟨s, hrun, hs, hfinished⟩ := loop_ends _ left hkeep hstart (Nat.le_refl _)
  exact ⟨s, hrun, hs.done (by simpa using hfinished)⟩

end Lexing

end HumanScript
