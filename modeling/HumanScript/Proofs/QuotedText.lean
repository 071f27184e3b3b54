import HumanScript.Proofs.UniqueLines

/-! Texts between quotes are read in one way. Each character is written so that what is written for
another is neither the same nor goes on from it, and none is written with a quote of its own or a
newline. -/
namespace HumanScript.Text

section Hexadecimal

theorem exists_digitChar {n : Nat} {c : Char} (h : c ∈ Nat.toDigits 16 n) :
    ∃ k < 16, c = Nat.digitChar k := by
  induction n using Nat.strongRecOn with
  | ind n ih =>
    by_cases hsmall : n < 16
    · rw [Nat.toDigits_of_lt_base hsmall, List.mem_singleton] at h
      exact ⟨n, hsmall, h⟩
    · rw [Nat.toDigits_of_base_le (by omega) (by omega), List.mem_append, List.mem_singleton] at h
      rcases h with h | h
      · exact ih (n / 16) (by omega) h
      · exact ⟨n % 16, by omega, h⟩

theorem not_mem_toDigits {c : Char} (hc : c ∈ ['\x7d', '\n']) (n : Nat) :
    c ∉ Nat.toDigits 16 n := by
  have hnone : ∀ k < 16, Nat.digitChar k ∉ ['\x7d', '\n'] := by decide
  intro hmem
  obtain ⟨k, hk, rfl⟩ := exists_digitChar hmem
  exact hnone k hk hc

theorem toDigits_injective {m n : Nat} (h : Nat.toDigits 16 m = Nat.toDigits 16 n) : m = n := by
  have hdigit : ∀ j < 16, ∀ k < 16, Nat.digitChar j = Nat.digitChar k → j = k := by decide
  induction m using Nat.strongRecOn generalizing n with
  | ind m ih =>
    have hlong : ∀ k, 16 ≤ k → 1 < (Nat.toDigits 16 k).length := fun k hk => by
      have hpos := List.length_pos_iff.mpr (@Nat.toDigits_ne_nil (k / 16) 16)
      rw [Nat.toDigits_of_base_le (by omega) hk, List.length_append, List.length_singleton]
      omega
    rcases Nat.lt_or_ge m 16 with hm | hm <;> rcases Nat.lt_or_ge n 16 with hn | hn
    · rw [Nat.toDigits_of_lt_base hm, Nat.toDigits_of_lt_base hn] at h
      exact hdigit m hm n hn (List.singleton_inj.mp h)
    · have hlength := hlong n hn
      rw [← h, Nat.toDigits_of_lt_base hm] at hlength
      simp at hlength
    · have hlength := hlong m hm
      rw [h, Nat.toDigits_of_lt_base hn] at hlength
      simp at hlength
    · rw [Nat.toDigits_of_base_le (by omega) hm, Nat.toDigits_of_base_le (by omega) hn] at h
      obtain ⟨hfront, hlast⟩ := List.append_inj' h rfl
      have hquotient := ih (m / 16) (by omega) hfront
      have hremainder := hdigit _ (Nat.mod_lt m (by omega)) _ (Nat.mod_lt n (by omega))
        (List.singleton_inj.mp hlast)
      omega

end Hexadecimal

/-- Characters that a backslash and one more character stand for, and that character. -/
def shortEscapes : List (Char × Char) :=
  [('\x00', '0'), ('\t', 't'), ('\r', 'r'), ('\n', 'n'), ('\\', '\\'), ('"', '"')]

/-- How a character is written between quotes. -/
inductive Escapes : Char → List Char → Prop where
  | plain {c : Char} (hquote : c ≠ '"') (hslash : c ≠ '\\') (hnewline : c ≠ '\n') : Escapes c [c]
  | short {c d : Char} (h : (c, d) ∈ shortEscapes) : Escapes c ['\\', d]
  | codePoint (c : Char) : Escapes c (codePointEscape c)

theorem escapes_escape (c : Char) : Escapes c (escape '"' c) := by
  unfold escape
  split_ifs with hnul htab hreturn hnewline hmark hplain
  · exact .short (by rw [hnul]; decide)
  · exact .short (by rw [htab]; decide)
  · exact .short (by rw [hreturn]; decide)
  · exact .short (by rw [hnewline]; decide)
  · rcases hmark with rfl | rfl
    · exact .short (by decide)
    · exact .short (by decide)
  · rw [not_or] at hmark
    exact .plain hmark.2 hmark.1 hnewline
  · exact .codePoint c

/-- No text starts with what is written for two characters. -/
theorem Escapes.unique {c c' : Char} {text text' rest rest' : List Char} (h : Escapes c text)
    (h' : Escapes c' text') (heq : text ++ rest = text' ++ rest') : c = c' ∧ rest = rest' := by
  have hshort : ∀ p ∈ shortEscapes, p.2 ≠ 'u' := by decide
  cases h with
  | plain _ hslash =>
    cases h' with
    | plain => exact List.cons.inj heq
    | short | codePoint => exact absurd (List.head_eq_of_cons_eq heq) hslash
  | @short d hmem =>
    cases h' with
    | plain _ hslash => exact absurd (List.head_eq_of_cons_eq heq).symm hslash
    | @short d' hmem' =>
      have hsame : ∀ p ∈ shortEscapes, ∀ q ∈ shortEscapes, p.2 = q.2 → p.1 = q.1 := by decide
      obtain ⟨hd, hrest⟩ := List.cons.inj (List.tail_eq_of_cons_eq heq)
      exact ⟨hsame _ hmem _ hmem' hd, hrest⟩
    | codePoint =>
      have hd : d = 'u' := List.head_eq_of_cons_eq (List.tail_eq_of_cons_eq heq)
      exact absurd hd (hshort _ hmem)
  | codePoint =>
    cases h' with
    | plain _ hslash => exact absurd (List.head_eq_of_cons_eq heq).symm hslash
    | @short d' hmem' =>
      have hd : 'u' = d' := List.head_eq_of_cons_eq (List.tail_eq_of_cons_eq heq)
      exact absurd hd.symm (hshort _ hmem')
    | codePoint =>
      -- The brace after the digits shows where they end.
      have hdigits : Nat.toDigits 16 c.toNat ++ '\x7d' :: rest =
          Nat.toDigits 16 c'.toNat ++ '\x7d' :: rest' := by
        simpa [codePointEscape] using heq
      obtain ⟨hnumber, hrest⟩ := append_mark_inj (not_mem_toDigits (by decide) _)
        (not_mem_toDigits (by decide) _) hdigits
      exact ⟨Char.toNat_inj.mp (toDigits_injective hnumber), hrest⟩

theorem Escapes.ne_quote {c : Char} {text : List Char} (h : Escapes c text)
    (rest rest' : List Char) : text ++ rest ≠ '"' :: rest' := by
  intro heq
  cases h with
  | plain hquote => exact hquote (List.head_eq_of_cons_eq heq)
  | short | codePoint => cases List.head_eq_of_cons_eq heq

theorem Escapes.newline_not_mem {c : Char} {text : List Char} (h : Escapes c text) :
    '\n' ∉ text := by
  cases h with
  | plain _ _ hnewline => simpa using hnewline.symm
  | @short d hmem =>
    have hnone : ∀ p ∈ shortEscapes, '\n' ∉ ['\\', p.2] := by decide
    exact hnone _ hmem
  | codePoint => simp [codePointEscape, not_mem_toDigits]

theorem escaped_unique {value value' rest rest' : List Char}
    (h : value.flatMap (escape '"') ++ '"' :: rest = value'.flatMap (escape '"') ++ '"' :: rest') :
    value = value' ∧ rest = rest' := by
  induction value generalizing value' with
  | nil =>
    cases value' with
    | nil => exact ⟨rfl, List.tail_eq_of_cons_eq h⟩
    | cons d value' =>
      rw [List.flatMap_cons, List.append_assoc] at h
      exact absurd h.symm ((escapes_escape d).ne_quote _ _)
  | cons c value ih =>
    cases value' with
    | nil =>
      rw [List.flatMap_cons, List.append_assoc] at h
      exact absurd h ((escapes_escape c).ne_quote _ _)
    | cons d value' =>
      rw [List.flatMap_cons, List.flatMap_cons, List.append_assoc, List.append_assoc] at h
      obtain ⟨rfl, hmore⟩ := (escapes_escape c).unique (escapes_escape d) h
      obtain ⟨rfl, hrest⟩ := ih hmore
      exact ⟨rfl, hrest⟩

/-- A quoted text shows what is quoted and where it ends. -/
theorem quotedString_unique {s t : String} {rest rest' : List Char}
    (h : (quotedString s).toList ++ rest = (quotedString t).toList ++ rest') :
    s = t ∧ rest = rest' := by
  simp only [quotedString, String.toList_ofList, List.cons_append, List.append_assoc,
    List.nil_append] at h
  obtain ⟨hvalue, hrest⟩ := escaped_unique (List.tail_eq_of_cons_eq h)
  exact ⟨String.toList_inj.mp hvalue, hrest⟩

theorem newline_not_mem_quotedString (s : String) : '\n' ∉ (quotedString s).toList := by
  have hinside : '\n' ∉ s.toList.flatMap (escape '"') := by
    intro hmem
    obtain ⟨c, -, hc⟩ := List.mem_flatMap.mp hmem
    exact (escapes_escape c).newline_not_mem hc
  simp [quotedString, hinside]

end HumanScript.Text
