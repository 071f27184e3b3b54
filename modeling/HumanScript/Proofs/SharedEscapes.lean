import HumanScript.Proofs.MaximalMunch
import HumanScript.Proofs.StringLiterals

/-! String literals of C++ as source text. Both notations write a quote, a backslash, a newline and
a tab with the same escapes. A return and a NUL have an escape in C++ only: in a source text it
stands for the letter or the digits behind its backslash. -/
namespace HumanScript.Cpp
open Lexeme (Unescapes Front NoTrivia)

/-- What the lexer reads where a character is written in a literal of C++. -/
def reread (c : Char) : List Char :=
  if c = '\r' then ['r'] else if c = '\x00' then ['0', '0', '0'] else [c]

theorem unescapes_escape (c : Char) {text value : List Char} (h : Unescapes text value) :
    Unescapes (escape c ++ text) (reread c ++ value) := by
  by_cases hquote : c = '"'
  · subst hquote
    exact .other (by decide) (by decide) h
  by_cases hslash : c = '\\'
  · subst hslash
    exact .other (by decide) (by decide) h
  by_cases hnewline : c = '\n'
  · subst hnewline
    exact .newline h
  by_cases hreturn : c = '\r'
  · subst hreturn
    exact .other (by decide) (by decide) h
  by_cases htab : c = '\t'
  · subst htab
    exact .tab h
  by_cases hnul : c = '\x00'
  · subst hnul
    -- Only the first digit belongs to the backslash, the others stand for themselves.
    have hzero : ∀ {text value}, Unescapes text value → Unescapes ('0' :: text) ('0' :: value) :=
      fun h => .plain (by decide) (by decide) h
    exact .other (by decide) (by decide) (hzero (hzero h))
  have hplain : escape c = [c] := by
    simp [escape, hquote, hslash, hnewline, hreturn, htab, hnul]
  have hsame : reread c = [c] := by simp [reread, hreturn, hnul]
  rw [hplain, hsame]
  exact .plain hquote hslash h

theorem unescapes_escaped (cs : List Char) :
    Unescapes (cs.flatMap escape) (cs.flatMap reread) := by
  induction cs with
  | nil => exact .nil
  | cons c cs ih =>
    rw [List.flatMap_cons, List.flatMap_cons]
    exact unescapes_escape c ih

theorem not_mem_reread {c : Char} (h : c ∈ ['\r', '\x00']) (d : Char) : c ∉ reread d := by
  simp only [List.mem_cons, List.not_mem_nil, or_false] at h
  unfold reread
  split_ifs with hreturn hnul
  · rcases h with rfl | rfl <;> decide
  · rcases h with rfl | rfl <;> decide
  · rw [List.mem_singleton]
    rcases h with rfl | rfl
    · exact Ne.symm hreturn
    · exact Ne.symm hnul

/-- A text is read back exactly if it has no character that only C++ can escape: such a character
never comes back. -/
theorem flatMap_reread_eq_self_iff {cs : List Char} :
    cs.flatMap reread = cs ↔ '\r' ∉ cs ∧ '\x00' ∉ cs := by
  constructor
  · intro h
    have hnone : ∀ c ∈ ['\r', '\x00'], c ∉ cs := by
      intro c hc hmem
      rw [← h] at hmem
      obtain ⟨d, -, hd⟩ := List.mem_flatMap.mp hmem
      exact not_mem_reread hc d hd
    exact ⟨hnone _ (by simp), hnone _ (by simp)⟩
  · rintro ⟨hreturn, hnul⟩
    have hsame : ∀ c ∈ cs, reread c = [c] := by
      intro c hc
      have hr : c ≠ '\r' := fun heq => hreturn (heq ▸ hc)
      have hz : c ≠ '\x00' := fun heq => hnul (heq ▸ hc)
      simp [reread, hr, hz]
    rw [List.flatMap_congr hsame, List.flatMap_singleton']

theorem ofSource_stringLiteral (s : String) :
    Lexed.ofSource (stringLiteral s) =
      ⟨[⟨.string, stringLiteral s, some (.string (String.ofList (s.toList.flatMap reread))),
          .ofBounds 0 (stringLiteral s).utf8ByteSize⟩], (stringLiteral s).utf8ByteSize, []⟩ := by
  let l : Lexeme := ⟨.string, '"' :: (s.toList.flatMap escape ++ ['"']),
    some (.string (String.ofList (s.toList.flatMap reread))), none⟩
  have htext : (stringLiteral s).toList = l.text ++ [] := by simp [stringLiteral, l]
  have hfront : Front l [] := .string (unescapes_escaped s.toList)
  have htrivia : NoTrivia (l.text ++ []) := by
    refine ⟨?_, ?_⟩
    · rintro c ⟨⟩
      decide
    · rintro rest ⟨⟩
  have hknown : l.kind ≠ .unknown := by simp [l]
  have hread := Lexed.ofChars_front hfront htrivia 0
  rw [if_neg hknown, Lexed.ofChars] at hread
  have hsize : l.stop 0 = (stringLiteral s).utf8ByteSize := by
    rw [← Text.byteLength_toList, htext, List.append_nil, Lexeme.stop, Nat.zero_add]
  have hname : String.ofList l.text = stringLiteral s := by
    rw [← String.toList_inj, String.toList_ofList, htext, List.append_nil]
  rw [Lexed.ofSource, htext, hread, Lexeme.token, Lexeme.span, hsize, hname]
  rfl

/-- The two notations for strings agree away from returns and NULs. What is written for a string in
C++ is in a source text one string from end to end, and nothing is wrong with it; it stands for the
string exactly if this has neither a return nor a NUL in it. -/
theorem stringLiteral_as_source (s : String)
    (hsize : (stringLiteral s).utf8ByteSize < Nat.pow 2 32) :
    ∃ t value, (Lexed.ofSource (stringLiteral s)).all =
        [t, .eof (stringLiteral s).utf8ByteSize] ∧
      (Lexed.ofSource (stringLiteral s)).errors = [] ∧
      t.kind = .string ∧ t.text = stringLiteral s ∧
      t.span.lo = 0 ∧ t.span.hi = (stringLiteral s).utf8ByteSize ∧
      t.value = some (.string value) ∧ (value = s ↔ '\r' ∉ s.toList ∧ '\x00' ∉ s.toList) := by
  have hhi := Lexed.hi_ofBounds_of_le (Nat.zero_le _) (Nat.le_of_lt_succ hsize)
  rw [ofSource_stringLiteral]
  refine ⟨_, _, rfl, rfl, rfl, rfl, rfl, hhi, rfl, ?_⟩
  rw [← String.toList_inj, String.toList_ofList]
  exact flatMap_reread_eq_self_iff

theorem stringLiteral_as_source_escapes :
    (stringLiteral "\t\\\"\r0").utf8ByteSize < Nat.pow 2 32 ∧
      ∃ t value, (Lexed.ofSource (stringLiteral "\t\\\"\r0")).all = [t, .eof 11] ∧
        t.kind = .string ∧ t.value = some (.string value) ∧ value ≠ "\t\\\"\r0" := by
  obtain ⟨t, value, hall, -, hkind, -, -, -, hvalue, hsame⟩ :=
    stringLiteral_as_source "\t\\\"\r0" (by decide)
  refine ⟨by decide, t, value, hall, hkind, hvalue, fun heq => ?_⟩
  exact (hsame.mp heq).1 (by decide)

end HumanScript.Cpp
