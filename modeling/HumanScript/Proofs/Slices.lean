import HumanScript.Proofs.MaximalMunch
import HumanScript.Proofs.Parsing.Programs

/-! The text at the place of a node of a program is read as that node. Tokens next to each other are
the tokens of the text from the first to the last of them, since no token looks past its own end
for more than what cannot continue it. -/
namespace HumanScript

/-- The range seen from byte `n` on. -/
def Span.moveLeft (n : Nat) (s : Span) : Span := ⟨s.lo - n, s.len, s.len_le⟩

/-- The range `n` bytes further on. -/
def Span.moveRight (n : Nat) (s : Span) : Span := ⟨s.lo + n, s.len, s.len_le⟩

/-- The same value at another place. -/
def Spanned.move {α : Type} (place : Span → Span) (s : Spanned α) : Spanned α :=
  ⟨place s.span, s.value⟩

@[simp] theorem Span.moveLeft_moveRight (n : Nat) (s : Span) : (s.moveRight n).moveLeft n = s := by
  ext
  · simp [moveLeft, moveRight]
  · rfl

theorem Span.keepsJoins_moveLeft (n : Nat) :
    Grammar.KeepsJoins (fun s => n ≤ s.lo) (Span.moveLeft n) := by
  refine ⟨?_, ?_⟩
  · intro a b ha hb
    simp only [Span.join, Span.lo_ofBounds]
    omega
  · intro a b ha hb
    ext
    · simp only [Span.join, Span.moveLeft, Span.lo_ofBounds]
      omega
    · simp only [Span.join, Span.moveLeft, Span.len_ofBounds, Span.hi]
      omega

/-- A range with these ends in a text cuts out what is between them. -/
theorem Span.slice?_eq {s : Span} {src : String} {before text after : List Char}
    (hsrc : src.toList = before ++ (text ++ after)) (hlo : s.lo = Text.byteLength before)
    (hhi : s.hi = Text.byteLength before + Text.byteLength text) :
    s.slice? src = some (String.ofList text) := by
  have hlen : s.len = Text.byteLength text := by
    rw [Span.hi] at hhi
    omega
  rw [slice?, hsrc, hlo, hlen, Text.splitAt?_byteLength_append]
  simp [Text.splitAt?_byteLength_append]

namespace Lexeme

theorem hi_token {l : Lexeme} {lo : Nat} (h : l.stop lo ≤ maxSpanLength) :
    (l.token lo).span.hi = l.stop lo := Lexed.hi_ofBounds_of_le (Nat.le_add_right _ _) h

theorem NoTrivia.cut {cs cs' : List Char} (h : NoTrivia cs) (hcut : cs' <+: cs) : NoTrivia cs' := by
  obtain ⟨more, rfl⟩ := hcut
  refine ⟨fun c hc => h.1 c ?_, ?_⟩
  · rw [List.head?_append, Option.mem_def.mp hc]
    rfl
  · rintro rest rfl
    exact h.2 (rest ++ more) rfl

/-- Only the next character tells whether a comment is over, and a newline always ends it. -/
theorem Trivia.congr {gap rest rest' : List Char} (h : Trivia gap rest)
    (hrest : ∀ c ∈ rest'.head?, c ∈ rest.head? ∨ c = '\n') : Trivia gap rest' := by
  induction h with
  | nil => exact .nil
  | blank hc _ ih => exact .blank hc (ih hrest)
  | @comment text more rest htext _ ih =>
    refine .comment ?_ (ih hrest)
    cases htext with
    | mk hbody hnext =>
      refine .mk hbody fun c hc => ?_
      cases more with
      | nil => exact (hrest c hc).elim (hnext c) id
      | cons d more => exact hnext c hc

/-- After blanks and comments the next token of a text is ahead. -/
structure Ahead (gap : List Char) (l : Lexeme) (rest : List Char) : Prop where
  trivia : Trivia gap (l.text ++ rest)
  noTrivia : NoTrivia (l.text ++ rest)
  front : Front l rest

/-- What comes after the next token may be cut short. -/
theorem Ahead.cut {gap : List Char} {l : Lexeme} {rest rest' : List Char} (h : Ahead gap l rest)
    (hcut : rest' <+: rest) : Ahead gap l rest' := by
  obtain ⟨more, rfl⟩ := hcut
  obtain ⟨c, text, htext⟩ := List.exists_cons_of_ne_nil h.front.text_ne_nil
  refine ⟨h.trivia.congr ?_, h.noTrivia.cut ?_, h.front.cut (List.prefix_append _ _)⟩
  · rw [htext]
    exact fun c hc => .inl hc
  · exact (List.prefix_append_right_inj _).mpr (List.prefix_append _ _)

theorem exists_ahead (cs : List Char) :
    (∃ gap l rest, cs = gap ++ (l.text ++ rest) ∧ Ahead gap l rest) ∨ Trivia cs [] := by
  obtain ⟨gap, rest, rfl, hgap, htrivia⟩ := exists_trivia cs
  cases rest with
  | nil => exact .inr (by rwa [List.append_nil])
  | cons c rest =>
    have hsplit := text_append_scan c rest
    rw [← hsplit] at hgap htrivia ⊢
    exact .inl ⟨gap, _, _, rfl, hgap, htrivia, front_scan c rest⟩

/-- Texts taken token by token: what holds of blanks and comments, and of a text if it holds of what
comes after its next token, holds of every text. -/
theorem ahead_induction {motive : List Char → Prop} (done : ∀ gap, Trivia gap [] → motive gap)
    (next : ∀ gap l rest, Ahead gap l rest → motive rest → motive (gap ++ (l.text ++ rest)))
    (cs : List Char) : motive cs := by
  obtain ⟨k, hk⟩ : ∃ k, cs.length = k := ⟨_, rfl⟩
  induction k using Nat.strongRecOn generalizing cs with
  | _ k ih =>
    rcases exists_ahead cs with ⟨gap, l, rest, rfl, hahead⟩ | htrivia
    · have hpos := List.length_pos_iff.mpr hahead.front.text_ne_nil
      simp only [List.length_append] at hk
      exact next gap l rest hahead (ih rest.length (by omega) rest rfl)
    · exact done cs htrivia

/-- What is read of a single lexeme. -/
def lexed (l : Lexeme) (lo : Nat) : Lexed := ⟨[l.token lo], l.stop lo, l.errors lo⟩

end Lexeme

namespace Lexed
open Lexeme (Trivia NoTrivia Ahead)
open Grammar (Covers Ordered Within PlacedExpr PlacedStmt PlacedImport PlacedProgram)

/-- What is read first, and what is read after it. -/
def followedBy (l m : Lexed) : Lexed := ⟨l.tokens ++ m.tokens, m.stop, l.errors ++ m.errors⟩

theorem followedBy_assoc (l m n : Lexed) :
    (l.followedBy m).followedBy n = l.followedBy (m.followedBy n) := by
  simp [followedBy]

/-- The same tokens and errors, `n` bytes further on. -/
def moveRight (n : Nat) (l : Lexed) : Lexed :=
  ⟨l.tokens.map (Token.move (.moveRight n)), l.stop + n, l.errors.map (Spanned.move (.moveRight n))⟩

theorem moveRight_followedBy (n : Nat) (l m : Lexed) :
    (l.followedBy m).moveRight n = (l.moveRight n).followedBy (m.moveRight n) := by
  simp [followedBy, moveRight]

theorem moveRight_lexed (n : Nat) (l : Lexeme) (lo : Nat) :
    (l.lexed lo).moveRight n = l.lexed (lo + n) := by
  have hspan : (l.span lo).moveRight n = l.span (lo + n) := by
    ext
    · rfl
    · simp only [Lexeme.span, Lexeme.stop, Span.moveRight, Span.len_ofBounds]
      omega
  simp only [moveRight, Lexeme.lexed, Lexeme.token, Lexeme.errors, Token.move, Spanned.move,
    List.map_cons, List.map_nil, List.map_map, Function.comp_def, hspan, Lexeme.stop, mk.injEq,
    true_and, and_true]
  omega

theorem ofChars_ahead {gap : List Char} {l : Lexeme} {rest : List Char} (h : Ahead gap l rest)
    (lo : Nat) : ofChars lo (gap ++ (l.text ++ rest)) =
      if l.kind = .unknown then l.lexed (lo + Text.byteLength gap)
      else (l.lexed (lo + Text.byteLength gap)).followedBy
        (ofChars (l.stop (lo + Text.byteLength gap)) rest) := by
  rw [ofChars_trivia h.trivia, ofChars_front h.front h.noTrivia]
  rfl

theorem ofChars_of_trivia {gap : List Char} (h : Trivia gap []) (lo : Nat) :
    ofChars lo gap = ⟨[], lo + Text.byteLength gap, []⟩ := by
  have hskip := ofChars_trivia h lo
  rw [List.append_nil] at hskip
  rw [hskip, ofChars]

theorem tokens_ahead {gap : List Char} {l : Lexeme} {rest : List Char} (h : Ahead gap l rest)
    (lo : Nat) : (ofChars lo (gap ++ (l.text ++ rest))).tokens =
      l.token (lo + Text.byteLength gap) ::
        if l.kind = .unknown then []
        else (ofChars (l.stop (lo + Text.byteLength gap)) rest).tokens := by
  rw [ofChars_ahead h]
  split <;> rfl

theorem tokens_trivia {gap : List Char} (h : Trivia gap []) (lo : Nat) :
    (ofChars lo gap).tokens = [] := by
  rw [ofChars_of_trivia h]

/-- A text that has tokens has a next one, and then the others. -/
theorem exists_ahead_of_tokens {lo : Nat} {cs : List Char} {t : Token} {ts : List Token}
    (h : (ofChars lo cs).tokens = t :: ts) :
    ∃ gap l rest, cs = gap ++ (l.text ++ rest) ∧ Ahead gap l rest ∧
      l.token (lo + Text.byteLength gap) = t ∧
      (if l.kind = .unknown then []
        else (ofChars (l.stop (lo + Text.byteLength gap)) rest).tokens) = ts := by
  rcases Lexeme.exists_ahead cs with ⟨gap, l, rest, rfl, hahead⟩ | htrivia
  · rw [tokens_ahead hahead] at h
    obtain ⟨ht, hts⟩ := List.cons.inj h
    exact ⟨gap, l, rest, rfl, hahead, ht, hts⟩
  · rw [tokens_trivia htrivia] at h
    cases h

/-- The same text somewhere else has the same tokens and errors there. -/
theorem ofChars_add (n lo : Nat) (cs : List Char) :
    ofChars (lo + n) cs = (ofChars lo cs).moveRight n := by
  induction cs using Lexeme.ahead_induction generalizing lo with
  | done gap hgap =>
    rw [ofChars_of_trivia hgap, ofChars_of_trivia hgap, Nat.add_right_comm]
    rfl
  | next gap l rest hahead ih =>
    have hstop : l.stop (lo + Text.byteLength gap + n) = l.stop (lo + Text.byteLength gap) + n :=
      Nat.add_right_comm _ _ _
    rw [ofChars_ahead hahead, ofChars_ahead hahead, Nat.add_right_comm lo n]
    split
    · exact (moveRight_lexed n l _).symm
    · rw [moveRight_followedBy, moveRight_lexed, hstop, ih]

theorem tokens_moveLeft (n lo : Nat) (cs : List Char) :
    (ofChars lo cs).tokens =
      (ofChars (n + lo) cs).tokens.map (Token.move (Span.moveLeft n)) := by
  rw [Nat.add_comm n, ofChars_add]
  simp [moveRight, Function.comp_def, Token.move]

/-- The first tokens of a text are those of its front up to the last of them. -/
theorem exists_front {lo : Nat} {cs : List Char} {us post : List Token}
    (h : (ofChars lo cs).tokens = us ++ post) (hne : us ≠ [])
    (hsize : lo + Text.byteLength cs ≤ maxSpanLength) :
    ∃ front rest, cs = front ++ rest ∧ (ofChars lo front).tokens = us ∧
      ∃ t ∈ us.getLast?, t.span.hi = lo + Text.byteLength front := by
  induction us generalizing lo cs with
  | nil => exact absurd rfl hne
  | cons t us ih =>
    obtain ⟨gap, l, rest, rfl, hahead, rfl, hmore⟩ := exists_ahead_of_tokens h
    simp only [Text.byteLength_append] at hsize
    cases us with
    | nil =>
      have hlast : Ahead gap l [] := hahead.cut List.nil_prefix
      have hstop : l.stop (lo + Text.byteLength gap) ≤ maxSpanLength := by
        simp only [Lexeme.stop]
        omega
      refine ⟨gap ++ (l.text ++ []), rest, by simp, ?_, l.token (lo + Text.byteLength gap), rfl, ?_⟩
      · rw [tokens_ahead hlast, ofChars]
        split <;> rfl
      · rw [Lexeme.hi_token hstop, Lexeme.stop]
        simp only [Text.byteLength_append, Text.byteLength_nil]
        omega
    | cons u us =>
      have hkind : l.kind ≠ .unknown := by
        intro hkind
        rw [if_pos hkind] at hmore
        cases hmore
      rw [if_neg hkind] at hmore
      obtain ⟨front, rest, rfl, hfront, v, hv, hhi⟩ :=
        ih hmore (by simp) (by simp only [Lexeme.stop]; omega)
      refine ⟨gap ++ (l.text ++ front), rest, by simp, ?_, v, hv, ?_⟩
      · rw [tokens_ahead (hahead.cut (List.prefix_append _ _)), if_neg hkind, hfront]
      · rw [hhi, Lexeme.stop]
        simp only [Text.byteLength_append]
        omega

/-- The last tokens of a text are those of the text from the first of them on. -/
theorem exists_back {lo : Nat} {cs : List Char} {pre us : List Token}
    (h : (ofChars lo cs).tokens = pre ++ us) (hne : us ≠ []) :
    ∃ before back, cs = before ++ back ∧ NoTrivia back ∧
      (ofChars (lo + Text.byteLength before) back).tokens = us := by
  induction pre generalizing lo cs with
  | nil =>
    obtain ⟨gap, rest, rfl, hgap, htrivia⟩ := Lexeme.exists_trivia cs
    exact ⟨gap, rest, rfl, htrivia, by rw [← ofChars_trivia hgap, h, List.nil_append]⟩
  | cons t pre ih =>
    obtain ⟨gap, l, rest, rfl, -, -, hmore⟩ := exists_ahead_of_tokens h
    have hkind : l.kind ≠ .unknown := by
      intro hkind
      rw [if_pos hkind] at hmore
      exact hne (List.append_eq_nil_iff.mp hmore.symm).2
    rw [if_neg hkind] at hmore
    obtain ⟨before, back, rfl, htrivia, hback⟩ := ih hmore
    refine ⟨gap ++ (l.text ++ before), back, by simp, htrivia, ?_⟩
    simpa [Lexeme.stop, Nat.add_assoc] using hback

theorem lo_of_noTrivia {lo : Nat} {cs : List Char} {t : Token} {ts : List Token}
    (hcs : NoTrivia cs) (h : (ofChars lo cs).tokens = t :: ts) : t.span.lo = lo := by
  cases cs with
  | nil =>
    rw [tokens_trivia .nil] at h
    cases h
  | cons c rest =>
    rw [← Lexeme.text_append_scan c rest] at hcs h
    have hahead : Ahead [] _ _ := ⟨.nil, hcs, Lexeme.front_scan c rest⟩
    have htokens := tokens_ahead hahead lo
    rw [List.nil_append, h] at htokens
    rw [(List.cons.inj htokens).1]
    rfl

/-- Tokens next to each other are those of the text from the first to the last of them. -/
theorem exists_cut {cs : List Char} {us : List Token} (hus : us <:+: (ofChars 0 cs).tokens)
    (hne : us ≠ []) (hsize : Text.byteLength cs ≤ maxSpanLength) :
    ∃ before text after, cs = before ++ (text ++ after) ∧
      (ofChars (Text.byteLength before) text).tokens = us ∧
      Covers us (.ofBounds (Text.byteLength before)
        (Text.byteLength before + Text.byteLength text)) := by
  obtain ⟨pre, post, hsplit⟩ := hus
  rw [List.append_assoc] at hsplit
  obtain ⟨before, back, rfl, htrivia, hback⟩ := exists_back hsplit.symm (by simp [hne])
  rw [Text.byteLength_append] at hsize
  obtain ⟨text, after, rfl, htext, u, hu, hhi⟩ := exists_front hback hne (by omega)
  rw [Nat.zero_add] at htext hhi
  rw [Text.byteLength_append] at hsize
  obtain ⟨t, ts, rfl⟩ := List.exists_cons_of_ne_nil hne
  have hlo := lo_of_noTrivia (htrivia.cut (List.prefix_append _ _)) htext
  have hend := hi_ofBounds_of_le (Nat.le_add_right (Text.byteLength before) (Text.byteLength text))
    (by omega)
  exact ⟨before, text, after, rfl, htext, ⟨t, rfl, hlo.symm⟩, ⟨u, hu, hend.trans hhi.symm⟩⟩

theorem StandsIn.hi_le {src : List Char} {t : Token} (h : StandsIn src t) :
    t.span.hi ≤ Text.byteLength src := by
  cases h with
  | token hsrc hstart =>
    subst hsrc hstart
    simp only [Span.hi, Span.lo_ofBounds, Span.len_ofBounds, Text.byteLength_append]
    omega
  | unknown hsrc hstart =>
    subst hsrc hstart
    simp only [Span.hi, Span.lo_ofBounds, Span.len_ofBounds, Text.byteLength_append,
      Text.byteLength_cons]
    omega

theorem ordered_all {src : String} (hsize : Text.byteLength src.toList ≤ maxSpanLength) :
    Ordered (ofSource src).all := by
  have hlayout := (tokenizes_ofChars 0 src.toList).layout hsize
  obtain ⟨front, stop, hall, hstops, hfront⟩ := hlayout.ends
  have hhi : ∀ t ∈ front, t.span.hi ≤ maxSpanLength := fun t ht =>
    Nat.le_trans (hfront t ht).2.2.hi_le hsize
  have hstop : stop ≤ maxSpanLength := by
    cases hstops with
    | done => exact hsize
    | unknown => exact hhi _ (by simp)
  refine ⟨hlayout.ordered, ?_⟩
  rw [ofSource, hall]
  refine List.forall_mem_append.mpr ⟨hhi, List.forall_mem_singleton.mpr ?_⟩
  exact (hi_ofBounds_of_le (Nat.le_refl stop) hstop).trans_le hstop

theorem ordered_ofSource {src : String} (hsize : Text.byteLength src.toList ≤ maxSpanLength) :
    Ordered (ofSource src).tokens := (ordered_all hsize).sublist (List.sublist_append_left _ _)

/-- The text from the first to the last of some tokens next to each other has just these tokens. -/
theorem exists_slice {src : String} (hsize : Text.byteLength src.toList ≤ maxSpanLength)
    {us : List Token} (hus : us <:+: (ofSource src).tokens) {s : Span} (hs : Covers us s) :
    ∃ text, s.slice? src = some text ∧
      (ofSource text).tokens = us.map (Token.move (Span.moveLeft s.lo)) := by
  have hne : us ≠ [] := by
    rintro rfl
    obtain ⟨_, ht, _⟩ := hs.first
    cases ht
  obtain ⟨before, text, after, hsrc, htext, hcovers⟩ := exists_cut hus hne hsize
  have hend := hi_ofBounds_of_le (Nat.le_add_right (Text.byteLength before) (Text.byteLength text))
    (by rw [hsrc] at hsize; simp only [Text.byteLength_append] at hsize; omega)
  obtain rfl := hs.unique hcovers
  refine ⟨String.ofList text, Span.slice?_eq hsrc rfl hend, ?_⟩
  rw [ofSource, String.toList_ofList, tokens_moveLeft (Text.byteLength before), Nat.add_zero, htext]
  rfl

/-- The tokens of a node, and the text at its place. -/
theorem exists_slice_of_within {β : Type} {R : List Token → β → Prop} {x : β} {s : Span}
    {src : String} (hsize : Text.byteLength src.toList ≤ maxSpanLength)
    (hx : Within R (ofSource src).tokens x) (hcovers : ∀ us, R us x → Ordered us → Covers us s) :
    ∃ us text, R us x ∧ (∀ t ∈ us, s.lo ≤ t.span.lo) ∧ s.slice? src = some text ∧
      (ofSource text).tokens = us.map (Token.move (Span.moveLeft s.lo)) := by
  obtain ⟨us, hus, hx⟩ := hx
  have hordered : Ordered us := (ordered_ofSource hsize).sublist hus.sublist
  have hs := hcovers us hx hordered
  obtain ⟨text, hslice, htokens⟩ := exists_slice hsize hus hs
  exact ⟨us, text, hx, hs.lo_le hordered, hslice, htokens⟩

/-- The place of a node is exactly the text that is read as it: alone, and with all places counted
from its start. -/
theorem program_nodes_reread (src : String) (hsize : src.utf8ByteSize < Nat.pow 2 32)
    (p : Program Unit) (h : (ofSource src).program = .ok p) :
    (∀ e ∈ Stmt.exprsAll p.body, ∃ text, e.span.slice? src = some text ∧
      (ofSource text).expr = .ok (e.map (.moveLeft e.span.lo) id)) ∧
    (∀ s ∈ Stmt.partsAll p.body, ∃ text, s.span.slice? src = some text ∧
      (ofSource text).program = .ok ⟨[], [s.map (.moveLeft s.span.lo) id]⟩) ∧
    ∀ i ∈ p.imports, ∃ text, i.span.slice? src = some text ∧
      (ofSource text).program = .ok ⟨[i.map (.moveLeft i.span.lo)], []⟩ := by
  have hsize : Text.byteLength src.toList ≤ maxSpanLength := by
    rw [Text.byteLength_toList]
    exact Nat.le_of_lt_succ hsize
  obtain ⟨hplaced, hnear⟩ := placed_of_program (fun t ht => valueFits_of_mem ht) h
  obtain ⟨himports, hparts, hexprs⟩ := hplaced.nodes_within
  refine ⟨?_, ?_, ?_⟩
  · intro e he
    obtain ⟨us, text, hus, hlo, hslice, htokens⟩ :=
      exists_slice_of_within hsize (hexprs e he) fun us hus => hus.covers
    obtain ⟨-, hmoved⟩ := hus.move (Span.keepsJoins_moveLeft e.span.lo) hlo
    rw [← htokens] at hmoved
    exact ⟨text, hslice, expr_of_placed hmoved⟩
  · intro s hs
    obtain ⟨us, text, hus, hlo, hslice, htokens⟩ :=
      exists_slice_of_within hsize (hparts s hs) fun us hus => hus.covers
    obtain ⟨-, hmoved⟩ := hus.move (Span.keepsJoins_moveLeft s.span.lo) hlo
    rw [← htokens] at hmoved
    have hnear' : (s.map (.moveLeft s.span.lo) id).ElseNearest := (hnear.parts s hs).map _ _
    exact ⟨text, hslice, program_of_placed hmoved.program (List.forall_mem_singleton.mpr hnear')⟩
  · intro i hi
    obtain ⟨us, text, hus, hlo, hslice, htokens⟩ :=
      exists_slice_of_within hsize (himports i hi) fun us hus => hus.covers
    have hmoved := hus.move (Span.keepsJoins_moveLeft i.span.lo) hlo
    rw [← htokens] at hmoved
    exact ⟨text, hslice, program_of_placed hmoved.program fun s hs => absurd hs List.not_mem_nil⟩

theorem program_nodes_reread_nested :
    ∃ src p, src = "use <io>; if (1 ?= (2 + 3)) \x7b says 4; \x7d else says 5; // end" ∧
      src.utf8ByteSize < Nat.pow 2 32 ∧ (ofSource src).program = .ok p ∧
      (Stmt.exprsAll p.body).length = 7 ∧ (Stmt.partsAll p.body).length = 4 ∧
      p.imports.length = 1 ∧
      (∀ e ∈ Stmt.exprsAll p.body, ∃ text, e.span.slice? src = some text ∧
        (ofSource text).expr = .ok (e.map (.moveLeft e.span.lo) id)) ∧
      (∀ s ∈ Stmt.partsAll p.body, ∃ text, s.span.slice? src = some text ∧
        (ofSource text).program = .ok ⟨[], [s.map (.moveLeft s.span.lo) id]⟩) ∧
      ∀ i ∈ p.imports, ∃ text, i.span.slice? src = some text ∧
        (ofSource text).program = .ok ⟨[i.map (.moveLeft i.span.lo)], []⟩ := by
  have hrun : ((ofSource
      "use <io>; if (1 ?= (2 + 3)) \x7b says 4; \x7d else says 5; // end").program
      |>.toOption.map fun p => ((Stmt.exprsAll p.body).length, (Stmt.partsAll p.body).length,
        p.imports.length)) = some (7, 4, 1) := by
    decide +kernel
  simp only [Option.map_eq_some_iff, Except.toOption_eq_some_iff, Prod.mk.injEq] at hrun
  obtain ⟨p, hp, hexprs, hparts, himports⟩ := hrun
  exact ⟨_, p, rfl, by decide, hp, hexprs, hparts, himports,
    program_nodes_reread _ (by decide) p hp⟩

end Lexed
end HumanScript
