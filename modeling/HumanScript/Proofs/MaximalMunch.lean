import HumanScript.Proofs.Scanning
import Mathlib.Data.List.Chain

/-! Lexing finds the one way to cut a text into tokens that are each as long as they can be. -/
namespace HumanScript

namespace Lexeme
open Token (Kind)

theorem isBlank_iff {c : Char} : isBlank c = true ↔ c ∈ blanks := by
  simp [isBlank, blanks, or_assoc]

/-- Neither a blank nor a comment is ahead. -/
def NoTrivia (cs : List Char) : Prop :=
  (∀ c ∈ cs.head?, c ∉ blanks) ∧ ∀ rest, cs ≠ '/' :: '/' :: rest

theorem isComment_run (cs : List Char) :
    IsComment ('/' :: '/' :: cs.takeWhile (· ≠ '\n')) (cs.dropWhile (· ≠ '\n')) := by
  refine .mk ?_ ?_
  · intro h
    simpa using List.mem_takeWhile_imp h
  · intro c hc
    simpa using head?_dropWhile (· ≠ '\n') cs c hc

theorem IsComment.eq_run {text rest : List Char} (h : IsComment text rest) :
    ∃ cs, text ++ rest = '/' :: '/' :: cs ∧ text = '/' :: '/' :: cs.takeWhile (· ≠ '\n') ∧
      rest = cs.dropWhile (· ≠ '\n') := by
  cases h with
  | @mk body rest hbody hrest =>
    have hrun : ∀ c ∈ body, decide (c ≠ '\n') = true := by
      intro c hc
      simpa using ne_of_mem_of_not_mem hc hbody
    have hstop : ∀ c ∈ rest.head?, decide (c ≠ '\n') = false := by
      intro c hc
      simpa using hrest c hc
    obtain ⟨htake, hdrop⟩ := takeWhile_run hrun hstop
    exact ⟨body ++ rest, by simp, by rw [htake], by rw [hdrop]⟩

/-- Every text is blanks and comments, and then a text that starts with neither. -/
theorem exists_trivia (cs : List Char) :
    ∃ gap rest, cs = gap ++ rest ∧ Trivia gap rest ∧ NoTrivia rest := by
  obtain ⟨n, hn⟩ : ∃ n, cs.length = n := ⟨_, rfl⟩
  induction n using Nat.strongRecOn generalizing cs with
  | _ n ih =>
    by_cases hblank : ∃ c rest, cs = c :: rest ∧ c ∈ blanks
    · obtain ⟨c, more, rfl, hc⟩ := hblank
      rw [List.length_cons] at hn
      obtain ⟨gap, rest, rfl, hgap, hrest⟩ := ih more.length (by omega) more rfl
      exact ⟨c :: gap, rest, rfl, .blank hc hgap, hrest⟩
    · by_cases hslashes : ∃ more, cs = '/' :: '/' :: more
      · obtain ⟨more, rfl⟩ := hslashes
        have hcomment := isComment_run more
        have hlength := congrArg List.length
          (List.takeWhile_append_dropWhile (p := (· ≠ '\n')) (l := more))
        rw [List.length_append] at hlength
        simp only [List.length_cons] at hn
        obtain ⟨gap, rest, hsplit, hgap, hrest⟩ := ih _ (by omega) (more.dropWhile (· ≠ '\n')) rfl
        rw [hsplit] at hcomment
        refine ⟨_, rest, ?_, .comment hcomment hgap, hrest⟩
        rw [List.append_assoc, ← hsplit]
        simp
      · refine ⟨[], cs, rfl, .nil, ?_, fun rest h => hslashes ⟨rest, h⟩⟩
        intro c hc hmem
        cases cs with
        | nil => cases hc
        | cons d more =>
          cases hc
          exact hblank ⟨c, more, rfl, hmem⟩

theorem StartsNothing.noTrivia {cs : List Char} (h : StartsNothing cs) : NoTrivia cs := by
  refine ⟨?_, ?_⟩
  · intro c hc hblank
    cases cs with
    | nil => cases hc
    | cons d cs =>
      cases hc
      exact h [c] cs rfl (.blank hblank)
  · rintro rest rfl
    exact h _ _ (by simp) (.comment (isComment_run rest))

theorem kind_scan_blank {c : Char} (hc : c ∈ blanks) (cs : List Char) :
    (scan c cs).1.kind = .unknown := by
  simp only [blanks, List.mem_cons, List.not_mem_nil, or_false] at hc
  rcases hc with rfl | rfl | rfl | rfl | rfl <;> rfl

/-- The longest token at the start of a text is neither a blank nor in a comment. -/
theorem Front.noTrivia {l : Lexeme} {rest : List Char} (h : Front l rest)
    (hkind : l.kind ≠ .unknown) (hlongest : Longest l.text rest) : NoTrivia (l.text ++ rest) := by
  obtain ⟨c, cs, hcs⟩ := h.exists_cons
  have hscan := h.scan_eq hcs
  rw [hcs]
  refine ⟨?_, ?_⟩
  · rintro d ⟨rfl⟩ hblank
    have hunknown := kind_scan_blank hblank cs
    rw [hscan] at hunknown
    exact hkind hunknown
  · rintro after ⟨rfl, rfl⟩
    rw [scan_mark rfl] at hscan
    obtain ⟨rfl, rfl⟩ := Prod.mk.inj hscan
    have hle := hlongest _ _ (by simp) (.comment (isComment_run after))
    simp at hle

theorem Front.longest {l : Lexeme} {rest : List Char} (h : Front l rest)
    (htrivia : NoTrivia (l.text ++ rest)) : Longest l.text rest := by
  intro text rest' htext hpiece
  cases hpiece with
  | token hspells => exact (h.within hspells htext).length_le
  | comment hcomment =>
    obtain ⟨cs, hcs, -, -⟩ := hcomment.eq_run
    exact absurd (htext.symm.trans hcs) (htrivia.2 cs)
  | @blank c _ hc => exact absurd hc (htrivia.1 c (by rw [← htext]; rfl))

theorem Front.startsNothing {l : Lexeme} {rest : List Char} (h : Front l rest)
    (htrivia : NoTrivia (l.text ++ rest)) (hkind : l.kind = .unknown) :
    StartsNothing (l.text ++ rest) := by
  intro text rest' htext hpiece
  cases hpiece with
  | token hspells => exact (h.within hspells htext).known hkind
  | comment hcomment =>
    obtain ⟨cs, hcs, -, -⟩ := hcomment.eq_run
    exact htrivia.2 cs (htext.symm.trans hcs)
  | @blank c _ hc => exact htrivia.1 c (by rw [← htext]; rfl) hc

end Lexeme

namespace Lexed
open Lexeme (blanks Trivia NoTrivia Front)

theorem ofChars_blank {c : Char} (hc : c ∈ blanks) (lo : Nat) (cs : List Char) :
    ofChars lo (c :: cs) = ofChars (lo + c.utf8Size) cs := by
  have hslash : c ≠ '/' := by
    rintro rfl
    revert hc
    decide
  rw [ofChars]
  · rw [if_pos (Lexeme.isBlank_iff.mpr hc)]
  · intro _ h
    exact absurd h hslash

/-- Blanks and comments are passed over. -/
theorem ofChars_trivia {gap rest : List Char} (h : Trivia gap rest) (lo : Nat) :
    ofChars lo (gap ++ rest) = ofChars (lo + Text.byteLength gap) rest := by
  induction h generalizing lo with
  | nil => rfl
  | blank hc _ ih =>
    rw [List.cons_append, ofChars_blank hc, ih, Text.byteLength_cons, Nat.add_assoc]
  | @comment text more rest htext _ ih =>
    obtain ⟨cs, hcs, htext, hrest⟩ := htext.eq_run
    have hlength : Text.byteLength text = 2 + Text.byteLength (cs.takeWhile (· ≠ '\n')) := by
      rw [htext, Text.byteLength_cons, Text.byteLength_cons, ← Nat.add_assoc]
      rfl
    rw [List.append_assoc, hcs, ofChars, ← hrest, ih, Text.byteLength_append, hlength]
    congr 1
    omega

/-- Where no blank or comment is ahead, the front of the text is the next token. -/
theorem ofChars_front {l : Lexeme} {rest : List Char} (h : Front l rest)
    (htrivia : NoTrivia (l.text ++ rest)) (lo : Nat) :
    ofChars lo (l.text ++ rest) =
      if l.kind = .unknown then ⟨[l.token lo], l.stop lo, l.errors lo⟩
      else ⟨l.token lo :: (ofChars (l.stop lo) rest).tokens, (ofChars (l.stop lo) rest).stop,
        l.errors lo ++ (ofChars (l.stop lo) rest).errors⟩ := by
  obtain ⟨c, cs, hcs⟩ := h.exists_cons
  have hscan := h.scan_eq hcs
  rw [hcs] at htrivia ⊢
  have hblank : Lexeme.isBlank c = false := by
    rw [Bool.eq_false_iff, ne_eq, Lexeme.isBlank_iff]
    exact htrivia.1 c rfl
  rw [ofChars]
  · simp only [hblank, Bool.false_eq_true, if_false, hscan]
  · rintro ds rfl rfl
    exact htrivia.2 ds rfl

theorem tokenizes_ofChars (lo : Nat) (cs : List Char) : Tokenizes lo cs (ofChars lo cs).all := by
  obtain ⟨n, hn⟩ : ∃ n, cs.length = n := ⟨_, rfl⟩
  induction n using Nat.strongRecOn generalizing lo cs with
  | _ n ih =>
    obtain ⟨gap, rest, rfl, hgap, htrivia⟩ := Lexeme.exists_trivia cs
    rw [ofChars_trivia hgap]
    cases rest with
    | nil =>
      rw [List.append_nil, ofChars]
      exact .done hgap
    | cons c rest =>
      have hfront := Lexeme.front_scan c rest
      have hsplit := Lexeme.text_append_scan c rest
      rw [← hsplit] at hgap htrivia hn ⊢
      rw [ofChars_front hfront htrivia]
      split
      · rename_i hkind
        have hnothing := hfront.startsNothing htrivia hkind
        obtain ⟨d, hd⟩ := hfront.eq_unknown hkind
        rw [hd] at hgap hnothing ⊢
        exact .unknown hgap rfl hnothing
      · rename_i hkind
        have hpos := List.length_pos_iff.mpr (Lexeme.text_scan_ne_nil c rest)
        rw [List.length_append, List.length_append] at hn
        exact .token hgap rfl rfl (hfront.spells hkind) (hfront.longest htrivia)
          (ih _ (by omega) _ _ rfl)

theorem Tokenizes.eq_ofChars {lo : Nat} {cs : List Char} {ts : List Token}
    (h : Tokenizes lo cs ts) : ts = (ofChars lo cs).all := by
  induction h with
  | @done lo gap hgap =>
    have hskip := ofChars_trivia hgap lo
    rw [List.append_nil] at hskip
    rw [hskip, ofChars]
    rfl
  | @unknown lo start gap rest c hgap hstart hc =>
    have hfront := Lexeme.front_scan c rest
    have hsplit := Lexeme.text_append_scan c rest
    have hkind : (Lexeme.scan c rest).1.kind = .unknown := by
      by_contra hkind
      exact hc _ _ hsplit (.token (hfront.spells hkind))
    obtain ⟨d, hd⟩ := hfront.eq_unknown hkind
    rw [hd] at hsplit hfront
    obtain ⟨rfl, hrest⟩ := List.cons.inj hsplit
    have hrest : (Lexeme.scan d rest).2 = rest := hrest
    rw [hrest] at hfront
    rw [ofChars_trivia hgap, ← hstart]
    exact (congrArg all (ofChars_front hfront hc.noTrivia start)).symm
  | @token lo start stop gap text rest kind value ts hgap hstart hstop hspells hlongest _ ih =>
    obtain ⟨error, hfront⟩ := hspells.front hlongest
    have hkind : kind ≠ .unknown := hspells.kind_ne.2
    have hnext := ofChars_front hfront (hfront.noTrivia hkind hlongest) start
    rw [if_neg hkind] at hnext
    rw [ofChars_trivia hgap, ← hstart, ih, hstop]
    exact (congrArg all hnext).symm

section Layout
variable {src cs before : List Char} {lo : Nat} {ts : List Token}

theorem hi_ofBounds_of_le {start stop : Nat} (h : start ≤ stop) (hstop : stop ≤ maxSpanLength) :
    (Span.ofBounds start stop).hi = stop := Span.hi_ofBounds h (by omega)

theorem Tokenizes.gaps (h : Tokenizes lo cs ts) (hsrc : src = before ++ cs)
    (hlo : Text.byteLength before = lo) (hsize : Text.byteLength src ≤ maxSpanLength) {a : Span}
    (ha : a.hi = lo) :
    (a :: ts.map Token.span).IsChain fun a b => OnlyTrivia src a.hi b.lo := by
  induction h generalizing before a with
  | @done lo gap hgap =>
    have hgap' : OnlyTrivia src a.hi (lo + Text.byteLength gap) :=
      ⟨before, gap, [], by simp [hsrc], by rw [hlo, ha], by rw [ha], hgap⟩
    exact .cons_cons hgap' (.singleton _)
  | @unknown lo start gap rest c hgap hstart _ =>
    have hstop : start + c.utf8Size ≤ maxSpanLength := by
      simp only [hsrc, Text.byteLength_append, Text.byteLength_cons] at hsize
      omega
    have hhi := hi_ofBounds_of_le (Nat.le_add_right start c.utf8Size) hstop
    have hgap' : OnlyTrivia src a.hi start :=
      ⟨before, gap, c :: rest, hsrc, by rw [hlo, ha], by rw [ha, hstart], hgap⟩
    have hnone : OnlyTrivia src (start + c.utf8Size) (start + c.utf8Size) := by
      refine ⟨before ++ gap ++ [c], [], rest, by simp [hsrc], ?_, rfl, .nil⟩
      simp only [Text.byteLength_append, Text.byteLength_cons, Text.byteLength_nil, hlo, hstart]
      omega
    exact .cons_cons hgap' (.cons_cons (by rwa [hhi]) (.singleton _))
  | @token lo start stop gap text rest kind value ts hgap hstart hstop _ _ _ ih =>
    have hstop' : stop ≤ maxSpanLength := by
      simp only [hsrc, Text.byteLength_append] at hsize
      omega
    have hgap' : OnlyTrivia src a.hi start :=
      ⟨before, gap, text ++ rest, hsrc, by rw [hlo, ha], by rw [ha, hstart], hgap⟩
    have hbefore : Text.byteLength (before ++ gap ++ text) = stop := by
      simp only [Text.byteLength_append, hlo, hstart, hstop]
    exact .cons_cons hgap' (ih (by simp [hsrc]) hbefore (hi_ofBounds_of_le (by omega) hstop'))

theorem OnlyTrivia.le {lo hi : Nat} (h : OnlyTrivia src lo hi) : lo ≤ hi := by
  obtain ⟨_, gap, _, _, _, hhi, _⟩ := h
  omega

theorem Tokenizes.stands (h : Tokenizes lo cs ts) (hsrc : src = before ++ cs)
    (hlo : Text.byteLength before = lo) : ∀ t ∈ ts, t.kind = .eof ∨ StandsIn src t := by
  induction h generalizing before with
  | done => exact List.forall_mem_singleton.mpr (.inl rfl)
  | @unknown lo start gap rest c _ hstart hc =>
    refine List.forall_mem_cons.mpr ⟨.inr ?_, List.forall_mem_singleton.mpr (.inl rfl)⟩
    have hsplit : src = (before ++ gap) ++ c :: rest := by simp [hsrc]
    exact .unknown hsplit (by rw [Text.byteLength_append, hlo, hstart]) hc
  | @token lo start stop gap text rest kind value ts _ hstart hstop hspells hlongest _ ih =>
    subst hstop
    have hbefore : start = Text.byteLength (before ++ gap) := by
      rw [Text.byteLength_append, hlo, hstart]
    have hsplit : src = (before ++ gap ++ text) ++ rest := by simp [hsrc]
    refine List.forall_mem_cons.mpr ⟨.inr ?_, ih hsplit ?_⟩
    · exact .token (by simp [hsrc]) hbefore hspells hlongest
    · rw [Text.byteLength_append, hbefore]

theorem StandsIn.len_pos {t : Token} (h : StandsIn src t) : 0 < t.span.len := by
  have hlen : ∀ start size : Nat, 0 < size → 0 < (Span.ofBounds start (start + size)).len := by
    intro start size hsize
    rw [Span.len_ofBounds, maxSpanLength]
    omega
  cases h with
  | token _ _ hspells _ =>
    obtain ⟨c, more, rfl⟩ := List.exists_cons_of_ne_nil hspells.text_ne_nil
    have hpos := c.utf8Size_pos
    exact hlen _ _ (by rw [Text.byteLength_cons]; omega)
  | unknown => exact hlen _ _ (Char.utf8Size_pos _)

theorem Tokenizes.ends (h : Tokenizes lo cs ts) (hsize : lo + Text.byteLength cs ≤ maxSpanLength) :
    ∃ front stop, ts = front ++ [.eof stop] ∧ StopsAt (lo + Text.byteLength cs) front stop ∧
      ∀ t ∈ front, t.kind ≠ .eof := by
  induction h with
  | done => exact ⟨[], _, rfl, .done (by simp), by simp⟩
  | @unknown lo start gap rest c _ hstart _ =>
    simp only [Text.byteLength_append, Text.byteLength_cons] at hsize
    have hhi := hi_ofBounds_of_le (Nat.le_add_right start c.utf8Size) (by omega)
    let u : Token := ⟨.unknown, String.ofList [c], none, .ofBounds start (start + c.utf8Size)⟩
    have hstops : StopsAt (lo + Text.byteLength (gap ++ c :: rest)) ([] ++ [u]) u.span.hi :=
      .unknown (by simp) rfl
    exact ⟨[u], u.span.hi, by rw [hhi]; rfl, hstops, List.forall_mem_singleton.mpr (by simp [u])⟩
  | @token lo start stop gap text rest kind value ts _ hstart hstop hspells _ _ ih =>
    simp only [Text.byteLength_append] at hsize
    have hlast : stop + Text.byteLength rest = lo + Text.byteLength (gap ++ (text ++ rest)) := by
      simp only [Text.byteLength_append]
      omega
    obtain ⟨front, last, rfl, hstops, hfront⟩ := ih (by omega)
    rw [hlast] at hstops
    obtain ⟨heof, hunknown⟩ := hspells.kind_ne
    refine ⟨_ :: front, last, rfl, ?_, List.forall_mem_cons.mpr ⟨heof, hfront⟩⟩
    cases hstops with
    | done h => exact .done (List.forall_mem_cons.mpr ⟨hunknown, h⟩)
    | @unknown ts u h hu =>
      rw [← List.cons_append]
      exact .unknown (List.forall_mem_cons.mpr ⟨hunknown, h⟩) hu

theorem Tokenizes.layout {src : List Char} (h : Tokenizes 0 src ts)
    (hsize : Text.byteLength src ≤ maxSpanLength) : Layout src ts := by
  have hsrc : src = [] ++ src := rfl
  have hgaps := h.gaps hsrc rfl hsize (a := .empty) rfl
  have hchain : (Span.empty :: ts.map Token.span).IsChain Span.Before :=
    hgaps.imp fun _ _ => OnlyTrivia.le
  have hordered := List.pairwise_cons.mp hchain.pairwise
  obtain ⟨front, stop, rfl, hstops, hkinds⟩ := h.ends (by omega)
  rw [Nat.zero_add] at hstops
  have hstands := h.stands hsrc rfl
  refine ⟨hordered.2, hgaps, front, stop, rfl, hstops, ?_⟩
  intro t ht
  have hstand : StandsIn src t := (hstands t (by simp [ht])).resolve_left (hkinds t ht)
  exact ⟨hkinds t ht, hstand.len_pos, hstand⟩

end Layout

/-- Lexing cuts a text into tokens in the one way in which each of them is as long as it can be.
The tokens lie in the text in order, with nothing but blanks and comments between them, up to its
end or to its first character that starts nothing. -/
theorem ofSource_maximal_munch (src : String) (hsize : src.utf8ByteSize < Nat.pow 2 32) :
    (∀ ts, Tokenizes 0 src.toList ts ↔ ts = (ofSource src).all) ∧
      Layout src.toList (ofSource src).all := by
  have htokens : Tokenizes 0 src.toList (ofSource src).all := tokenizes_ofChars 0 src.toList
  refine ⟨fun ts => ⟨Tokenizes.eq_ofChars, ?_⟩, htokens.layout ?_⟩
  · rintro rfl
    exact htokens
  · rw [Text.byteLength_toList]
    exact Nat.le_of_lt_succ hsize

theorem ofSource_maximal_munch_number :
    "1.5x // ?=\n: \"".utf8ByteSize < Nat.pow 2 32 ∧
      (∀ ts, Tokenizes 0 "1.5x // ?=\n: \"".toList ts ↔ ts = (ofSource "1.5x // ?=\n: \"").all) ∧
      Layout "1.5x // ?=\n: \"".toList (ofSource "1.5x // ?=\n: \"").all :=
  ⟨by decide, ofSource_maximal_munch _ (by decide)⟩

end Lexed
end HumanScript
