import HumanScript.Cpp.Basic
import Mathlib.Tactic.Common

/-! String literals as C++ reads them. What is written for a string is read as that string, whatever
comes after it. -/
namespace HumanScript.Cpp

def isOctal (c : Char) : Bool := '0' ≤ c && c ≤ '7'

/-- The octal digits at the front: as many as there are, but no more than three. -/
def octalFront (cs : List Char) : List Char := (cs.take 3).takeWhile isOctal

/-- The character that a backslash and one more character stand for, unless that is a digit. -/
def simpleEscape? : Char → Option Char
  | '"' => some '"'
  | '\\' => some '\\'
  | 'n' => some '\n'
  | 'r' => some '\r'
  | 't' => some '\t'
  | _ => none

/-- What stands behind a backslash: a character, by its octal number or otherwise, and how many
characters it is written with. -/
def readEscape (cs : List Char) : Option (Char × Nat) :=
  match octalFront cs with
  | [] => (cs.head?.bind simpleEscape?).map (·, 1)
  | digits => some (Char.ofNat (Nat.ofDigitChars 8 digits 0), digits.length)

/-- Reads from an opening quote on: the characters up to the first quote that stands behind no
backslash, and what comes after it. A literal ends on the line it starts on. -/
def readInside : List Char → Option (List Char × List Char)
  | [] => none
  | '"' :: rest => some ([], rest)
  | '\n' :: _ => none
  | '\\' :: cs => do
    let (c, taken) ← readEscape cs
    let (value, rest) ← readInside (cs.drop taken)
    return (c :: value, rest)
  | c :: cs => do
    let (value, rest) ← readInside cs
    return (c :: value, rest)
termination_by cs => cs.length
decreasing_by
  · simp only [List.length_drop, List.length_cons]
    omega
  · exact Nat.lt_add_one _

/-- The string that a literal at the front of a text stands for, and the text after it. -/
def readLiteral (text : String) : Option (String × String) :=
  match text.toList with
  | '"' :: cs => do
    let (value, rest) ← readInside cs
    return (String.ofList value, String.ofList rest)
  | _ => none

theorem readEscape_simple {c d : Char} (hoctal : isOctal d = false)
    (h : simpleEscape? d = some c) (cs : List Char) : readEscape (d :: cs) = some (c, 1) := by
  have hfront : octalFront (d :: cs) = [] := by simp [octalFront, hoctal]
  simp [readEscape, hfront, h]

theorem readInside_backslash {c : Char} {taken : Nat} {cs : List Char}
    (h : readEscape cs = some (c, taken)) :
    readInside ('\\' :: cs) = (readInside (cs.drop taken)).map fun r => (c :: r.1, r.2) := by
  rw [readInside, h, Option.bind_eq_bind, Option.bind_some]
  dsimp only
  cases readInside (cs.drop taken) <;> rfl

theorem readInside_plain {c : Char} (hquote : c ≠ '"') (hslash : c ≠ '\\') (hnewline : c ≠ '\n')
    (cs : List Char) : readInside (c :: cs) = (readInside cs).map fun r => (c :: r.1, r.2) := by
  rw [readInside]
  · cases readInside cs <;> rfl
  all_goals simp_all

/-- What is written for a character is read as that character. -/
theorem readInside_escape (c : Char) (cs : List Char) :
    readInside (escape c ++ cs) = (readInside cs).map fun r => (c :: r.1, r.2) := by
  have hsimple : ∀ d, isOctal d = false → simpleEscape? d = some c →
      readInside ('\\' :: d :: cs) = (readInside cs).map fun r => (c :: r.1, r.2) :=
    fun d hoctal hd => readInside_backslash (readEscape_simple hoctal hd cs)
  by_cases hquote : c = '"'
  · subst hquote
    exact hsimple '"' rfl rfl
  by_cases hslash : c = '\\'
  · subst hslash
    exact hsimple '\\' rfl rfl
  by_cases hnewline : c = '\n'
  · subst hnewline
    exact hsimple 'n' rfl rfl
  by_cases hreturn : c = '\r'
  · subst hreturn
    exact hsimple 'r' rfl rfl
  by_cases htab : c = '\t'
  · subst htab
    exact hsimple 't' rfl rfl
  by_cases hnul : c = '\x00'
  · subst hnul
    -- Three digits are as many as an escape takes, so a digit that follows is not taken with them.
    have hoctal : readEscape ('0' :: '0' :: '0' :: cs) = some ('\x00', 3) := rfl
    exact readInside_backslash hoctal
  have hplain : escape c = [c] := by
    simp [escape, hquote, hslash, hnewline, hreturn, htab, hnul]
  rw [hplain]
  exact readInside_plain hquote hslash hnewline cs

theorem readInside_escaped (value rest : List Char) :
    readInside (value.flatMap escape ++ '"' :: rest) = some (value, rest) := by
  induction value with
  | nil => rw [List.flatMap_nil, List.nil_append, readInside]
  | cons c value ih =>
    rw [List.flatMap_cons, List.append_assoc, readInside_escape, ih]
    rfl

theorem toList_stringLiteral (s : String) (rest : List Char) :
    (stringLiteral s).toList ++ rest = '"' :: (s.toList.flatMap escape ++ '"' :: rest) := by
  simp [stringLiteral]

theorem readLiteral_append (s rest : String) :
    readLiteral (stringLiteral s ++ rest) = some (s, rest) := by
  rw [readLiteral, String.toList_append, toList_stringLiteral]
  simp [readInside_escaped]

/-- A character is written as itself, if it may stand in a literal, or with a backslash. -/
theorem escape_cases (c : Char) :
    escape c = [c] ∧ c ≠ '\n' ∧ c ≠ '\r' ∧ c ≠ '\x00' ∨
      escape c ∈ [['\\', '"'], ['\\', '\\'], ['\\', 'n'], ['\\', 'r'], ['\\', 't'],
        ['\\', '0', '0', '0']] := by
  unfold escape
  split_ifs with hquote hslash hnewline hreturn htab hnul
  · exact .inr (by decide)
  · exact .inr (by decide)
  · exact .inr (by decide)
  · exact .inr (by decide)
  · exact .inr (by decide)
  · exact .inr (by decide)
  · exact .inl ⟨rfl, hnewline, hreturn, hnul⟩

theorem not_mem_escape {c : Char} (h : c ∈ ['\n', '\r', '\x00']) (d : Char) : c ∉ escape d := by
  simp only [List.mem_cons, List.not_mem_nil, or_false] at h
  rcases escape_cases d with ⟨hplain, hnewline, hreturn, hnul⟩ | hslash
  · rw [hplain, List.mem_singleton]
    rcases h with rfl | rfl | rfl
    · exact hnewline.symm
    · exact hreturn.symm
    · exact hnul.symm
  · have hnone : ∀ text ∈ [['\\', '"'], ['\\', '\\'], ['\\', 'n'], ['\\', 'r'], ['\\', 't'],
        ['\\', '0', '0', '0']], '\n' ∉ text ∧ '\r' ∉ text ∧ '\x00' ∉ text := by decide
    have hd := hnone _ hslash
    rcases h with rfl | rfl | rfl
    · exact hd.1
    · exact hd.2.1
    · exact hd.2.2

theorem not_mem_stringLiteral {c : Char} (h : c ∈ ['\n', '\r', '\x00']) (s : String) :
    c ∉ (stringLiteral s).toList := by
  have hquote : c ≠ '"' := by
    rintro rfl
    revert h
    decide
  have hinside : c ∉ s.toList.flatMap escape := by
    intro hc
    obtain ⟨d, -, hd⟩ := List.mem_flatMap.mp hc
    exact not_mem_escape h d hd
  simp [stringLiteral, hinside, hquote]

/-- A literal cannot be left early and loses nothing: C++ reads the string it was written for, and
goes on with what was written after it. No line ends inside. -/
theorem stringLiteral_read_back (s rest : String) :
    readLiteral (stringLiteral s ++ rest) = some (s, rest) ∧
      '\n' ∉ (stringLiteral s).toList ∧ '\r' ∉ (stringLiteral s).toList ∧
      '\x00' ∉ (stringLiteral s).toList := by
  have hcontrol : ∀ c ∈ ['\n', '\r', '\x00'], c ∉ (stringLiteral s).toList := fun _ hc =>
    not_mem_stringLiteral hc s
  simp only [List.forall_mem_cons] at hcontrol
  exact ⟨readLiteral_append s rest, hcontrol.1, hcontrol.2.1, hcontrol.2.2.1⟩

/-- A digit after a NUL stays a digit, and a quote or a backslash inside ends nothing. -/
example : stringLiteral "a\x001\\\"" = "\"a\\0001\\\\\\\"\"" ∧
    readLiteral "\"a\\0001\\\\\\\"\";" = some ("a\x001\\\"", ";") := by
  decide +kernel

end HumanScript.Cpp
