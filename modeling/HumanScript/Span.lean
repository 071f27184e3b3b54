import HumanScript.Text.Bytes

/-! Byte ranges of a source text, and the line and column where they start. -/
namespace HumanScript

/-- The longest range on record; longer ones are cut off there. -/
def maxSpanLength : Nat := 4294967295

/-- A range of bytes of a source text. -/
@[ext] structure Span where
  lo : Nat
  len : Nat
  len_le : len ≤ maxSpanLength
deriving DecidableEq

/-- A line and a column, both from one; a column counts characters. -/
@[ext] structure Location where
  line : Nat
  column : Nat
deriving DecidableEq

namespace Location

def start : Location := ⟨1, 1⟩

/-- The place after one more character. Only a newline ends a line. -/
def advance (l : Location) (c : Char) : Location :=
  if c = '\n' then ⟨l.line + 1, 1⟩ else ⟨l.line, l.column + 1⟩

/-- The place after a whole text. -/
def after (cs : List Char) : Location := cs.foldl advance start

/-- The place after the characters that lie wholly in the next `n` bytes. -/
def seek (l : Location) : Nat → List Char → Location
  | _, [] => l
  | n, c :: cs => if c.utf8Size ≤ n then (l.advance c).seek (n - c.utf8Size) cs else l

/-- Written `line:column`. -/
def render (l : Location) : String := s!"{l.line}:{l.column}"

theorem seek_of_splitAt? {n : Nat} {cs before after : List Char} (l : Location)
    (h : Text.splitAt? n cs = some (before, after)) : l.seek n cs = before.foldl advance l := by
  induction cs generalizing n l before after with
  | nil =>
    cases n with
    | zero => simp_all [Text.splitAt?, seek]
    | succ n => simp [Text.splitAt?] at h
  | cons c cs ih =>
    cases n with
    | zero =>
      have := c.utf8Size_pos
      simp only [Text.splitAt?, Option.some.injEq, Prod.mk.injEq] at h
      simp only [seek, ← h.1, List.foldl_nil]
      exact if_neg (by omega)
    | succ n =>
      simp only [Text.splitAt?] at h
      split at h
      · rename_i hle
        obtain ⟨⟨b, a⟩, hs, he⟩ := Option.map_eq_some_iff.mp h
        simp only [Prod.mk.injEq] at he
        simp [seek, hle, ih _ hs, ← he.1]
      · simp at h

end Location

namespace Span

/-- The range from `lo` to `hi`. -/
def ofBounds (lo hi : Nat) : Span := ⟨lo, min (hi - lo) maxSpanLength, Nat.min_le_right _ _⟩

def empty : Span := ofBounds 0 0

def hi (s : Span) : Nat := s.lo + s.len

/-- The least range that covers both. -/
def join (a b : Span) : Span := ofBounds (min a.lo b.lo) (max a.hi b.hi)

/-- Written `lo..hi`. -/
def render (s : Span) : String := s!"{s.lo}..{s.hi}"

/-- Written with its length, for inspection. -/
def describe (s : Span) : String := s!"Span({s.render}, len: {s.len})"

/-- The text a range covers; `none` if an end is out of range or inside a character. -/
def slice? (s : Span) (src : String) : Option String := do
  let (_, rest) ← Text.splitAt? s.lo src.toList
  let (covered, _) ← Text.splitAt? s.len rest
  return String.ofList covered

/-- Where a range of a text starts. A start past the end counts as the end. -/
def locationIn (s : Span) (cs : List Char) : Location := Location.start.seek s.lo cs

def location (s : Span) (src : String) : Location := s.locationIn src.toList

/-- Where a range starts; `none` if that is inside a character. -/
def location? (s : Span) (src : String) : Option Location :=
  (Text.splitAt? (min s.lo (Text.byteLength src.toList)) src.toList).map fun (before, _) =>
    .after before

theorem location_of_append {s : Span} {src : String} {before rest : List Char}
    (hsrc : src.toList = before ++ rest) (hlo : Text.byteLength before = s.lo) :
    s.location src = .after before := by
  have hsplit : Text.splitAt? s.lo src.toList = some (before, rest) := by
    rw [hsrc, ← hlo, Text.splitAt?_byteLength_append]
  exact Location.seek_of_splitAt? _ hsplit

/-- A range that starts between two characters, or at the end, starts somewhere. -/
theorem location?_of_append {s : Span} {src : String} {before rest : List Char}
    (hsrc : src.toList = before ++ rest) (hlo : Text.byteLength before = s.lo) :
    s.location? src = some (s.location src) := by
  have hin : min s.lo (Text.byteLength src.toList) = Text.byteLength before := by
    rw [hsrc, Text.byteLength_append]
    omega
  rw [location_of_append hsrc hlo, location?, hin, hsrc, Text.splitAt?_byteLength_append]
  rfl

@[simp] theorem lo_ofBounds (lo hi : Nat) : (ofBounds lo hi).lo = lo := rfl

@[simp] theorem len_ofBounds (lo hi : Nat) :
    (ofBounds lo hi).len = min (hi - lo) maxSpanLength := rfl

theorem hi_ofBounds {lo hi : Nat} (h : lo ≤ hi) (hl : hi - lo ≤ maxSpanLength) :
    (ofBounds lo hi).hi = hi := by
  simp only [Span.hi, lo_ofBounds, len_ofBounds]
  omega

end Span

/-- A value with the range of text it stands for. -/
structure Spanned (α : Type) where
  span : Span
  value : α
deriving DecidableEq

/-- The text of the value behind its range. -/
def Spanned.render {α : Type} (message : α → String) (s : Spanned α) : String :=
  s.span.render ++ ": " ++ message s.value

end HumanScript
