import HumanScript.Proofs.ByteCursor
import Mathlib.Data.List.DropRight

/-! Lines and columns. What comes later in a text is on a later line, or further right on the same
one, so a line and a column tell the byte they were worked out from. -/
namespace HumanScript

/-- The text has a character that starts at this byte, or ends there. -/
def IsBoundary (src : String) (n : Nat) : Prop := ∃ rest, RestAt src n rest

namespace Text

/-- The text up to its `n`-th newline, this included, and the text after it. -/
def splitLines : Nat → List Char → List Char × List Char
  | 0, cs => ([], cs)
  | _ + 1, [] => ([], [])
  | n + 1, c :: cs =>
    let lines := splitLines (if c = '\n' then n else n + 1) cs
    (c :: lines.1, lines.2)

theorem splitLines_newline (cs rest : List Char) :
    splitLines (cs.count '\n' + 1) (cs ++ '\n' :: rest) = (cs ++ ['\n'], rest) := by
  induction cs with
  | nil => simp [splitLines]
  | cons c cs ih =>
    by_cases hc : c = '\n'
    · subst hc
      rw [List.count_cons_self, List.cons_append, splitLines, if_pos rfl, ih]
      rfl
    · rw [List.count_cons_of_ne hc, List.cons_append, splitLines, if_neg hc, ih]
      rfl

/-- After as many newlines as a text has, what remains of it is its last line. -/
theorem splitLines_count (cs rest : List Char) :
    splitLines (cs.count '\n') (cs ++ rest) =
      (cs.rdropWhile (· ≠ '\n'), cs.rtakeWhile (· ≠ '\n') ++ rest) := by
  induction cs using List.reverseRecOn generalizing rest with
  | nil => simp [splitLines]
  | append_singleton cs c ih =>
    rw [List.append_assoc, List.singleton_append]
    by_cases hc : c = '\n'
    · subst hc
      rw [List.count_append, List.count_singleton_self, splitLines_newline,
        List.rdropWhile_concat_neg _ _ _ (by simp), List.rtakeWhile_concat_neg _ _ _ (by simp)]
      rfl
    · have hcount : (cs ++ [c]).count '\n' = cs.count '\n' := by
        rw [List.count_append, List.count_cons_of_ne hc, List.count_nil, Nat.add_zero]
      rw [hcount, ih, List.rdropWhile_concat_pos _ _ _ (by simpa using hc),
        List.rtakeWhile_concat_pos _ _ _ (by simpa using hc), List.append_assoc,
        List.singleton_append]

end Text

namespace Location

/-- On an earlier line, or further left on the same one. -/
def Before (l m : Location) : Prop := l.line < m.line ∨ l.line = m.line ∧ l.column < m.column

theorem Before.trans {l m n : Location} (h : l.Before m) (h' : m.Before n) : l.Before n := by
  unfold Before at *
  omega

theorem not_before_self (l : Location) : ¬ l.Before l := by
  unfold Before
  omega

theorem before_advance (l : Location) (c : Char) : l.Before (l.advance c) := by
  unfold advance
  split
  · exact .inl (Nat.lt_succ_self _)
  · exact .inr ⟨rfl, Nat.lt_succ_self _⟩

/-- Any text leads further on, if it is not empty. -/
theorem before_foldl (l : Location) (c : Char) (cs : List Char) :
    l.Before ((c :: cs).foldl advance l) := by
  induction cs generalizing l c with
  | nil => exact l.before_advance c
  | cons d cs ih => exact (l.before_advance c).trans (ih (l.advance c) d)

/-- The line is one more than the newlines passed, and the column one more than the characters after
the last of them. -/
theorem after_eq (cs : List Char) :
    after cs = ⟨cs.count '\n' + 1, (cs.rtakeWhile (· ≠ '\n')).length + 1⟩ := by
  induction cs using List.reverseRecOn with
  | nil => rfl
  | append_singleton cs c ih =>
    unfold after at ih ⊢
    rw [List.foldl_append, ih, List.foldl_cons, List.foldl_nil, advance]
    by_cases hc : c = '\n'
    · subst hc
      rw [if_pos rfl, List.count_append, List.count_singleton_self,
        List.rtakeWhile_concat_neg _ _ _ (by simp)]
      rfl
    · rw [if_neg hc, List.count_append, List.count_cons_of_ne hc, List.count_nil, Nat.add_zero,
        List.rtakeWhile_concat_pos _ _ _ (by simpa using hc), List.length_append]
      rfl

/-- The byte of a text that is at a line and a column: the lines before it, and on its own line the
characters before it. -/
def offset (l : Location) (cs : List Char) : Nat :=
  let lines := Text.splitLines (l.line - 1) cs
  Text.byteLength lines.1 +
    Text.byteLength ((lines.2.takeWhile (· ≠ '\n')).take (l.column - 1))

theorem offset_after (before rest : List Char) :
    (after before).offset (before ++ rest) = Text.byteLength before := by
  have hline : ∀ c ∈ before.rtakeWhile (· ≠ '\n'), decide (c ≠ '\n') = true := fun _ hc =>
    List.mem_rtakeWhile_imp (p := (· ≠ '\n')) hc
  rw [after_eq, offset]
  dsimp only
  rw [Nat.add_sub_cancel, Nat.add_sub_cancel, Text.splitLines_count]
  dsimp only
  rw [List.takeWhile_append_of_pos hline, List.take_left, ← Text.byteLength_append,
    List.rdropWhile_append_rtakeWhile]

end Location

/-- A place further on in a text has a later location. -/
theorem Span.location_before {a b : Span} {src : String} (ha : IsBoundary src a.lo)
    (hb : IsBoundary src b.lo) (hlt : a.lo < b.lo) :
    (a.location src).Before (b.location src) := by
  obtain ⟨rest, before, hsrc, hlo⟩ := ha
  obtain ⟨rest', before', hsrc', hlo'⟩ := hb
  rw [location_of_append hsrc hlo, location_of_append hsrc' hlo']
  rcases List.append_eq_append_iff.mp (hsrc.symm.trans hsrc') with ⟨more, rfl, -⟩ | ⟨more, rfl, -⟩
  · cases more with
    | nil =>
      rw [List.append_nil] at hlo'
      omega
    | cons c more =>
      rw [Location.after, Location.after, List.foldl_append]
      exact Location.before_foldl _ c more
  · rw [Text.byteLength_append] at hlo
    omega

/-- Lines and columns are in the order of the bytes they stand for, and tell them: of two places in
a text the one further on has the later location, no two places have the same one, and a place is as
many bytes from the start as there are before its line and before its column on that line. All these
places are in the text, so that they have a location in the first place. -/
theorem location_ordered_and_tells_offset (src : String) :
    (∀ a b : Span, IsBoundary src a.lo → IsBoundary src b.lo → a.lo < b.lo →
      (a.location src).Before (b.location src)) ∧
    (∀ a b : Span, IsBoundary src a.lo → IsBoundary src b.lo →
      a.location src = b.location src → a.lo = b.lo) ∧
    ∀ a : Span, IsBoundary src a.lo →
      (a.location src).offset src.toList = a.lo ∧ a.location? src = some (a.location src) := by
  refine ⟨fun a b => Span.location_before, ?_, ?_⟩
  · intro a b ha hb hsame
    have hne : ∀ {a b : Span}, IsBoundary src a.lo → IsBoundary src b.lo →
        a.location src = b.location src → ¬ a.lo < b.lo := by
      intro a b ha hb hsame hlt
      have hbefore := Span.location_before ha hb hlt
      rw [hsame] at hbefore
      exact Location.not_before_self _ hbefore
    exact Nat.le_antisymm (Nat.le_of_not_lt (hne hb ha hsame.symm))
      (Nat.le_of_not_lt (hne ha hb hsame))
  · rintro a ⟨rest, before, hsrc, hlo⟩
    refine ⟨?_, Span.location?_of_append hsrc hlo⟩
    rw [Span.location_of_append hsrc hlo, hsrc, Location.offset_after, hlo]

theorem location_ordered_and_tells_offset_umlaut :
    IsBoundary "é\n\nß" 3 ∧ IsBoundary "é\n\nß" 6 ∧
      (Span.ofBounds 3 4).location "é\n\nß" = ⟨2, 1⟩ ∧
      (Span.ofBounds 6 6).location "é\n\nß" = ⟨3, 2⟩ ∧
      ((Span.ofBounds 3 4).location "é\n\nß").Before ((Span.ofBounds 6 6).location "é\n\nß") ∧
      Location.offset ⟨3, 2⟩ "é\n\nß".toList = 6 := by
  have hline : IsBoundary "é\n\nß" 3 := ⟨['\n', 'ß'], ['é', '\n'], by decide, by decide⟩
  have hend : IsBoundary "é\n\nß" 6 := ⟨[], ['é', '\n', '\n', 'ß'], by decide, by decide⟩
  have hlocation : (Span.ofBounds 6 6).location "é\n\nß" = ⟨3, 2⟩ := by decide
  obtain ⟨hordered, -, htells⟩ := location_ordered_and_tells_offset "é\n\nß"
  have hoffset := (htells (.ofBounds 6 6) hend).1
  rw [hlocation] at hoffset
  exact ⟨hline, hend, by decide, hlocation, hordered _ _ hline hend (by decide), hoffset⟩

end HumanScript
