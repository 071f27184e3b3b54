import HumanScript.Lexed
import HumanScript.Proofs.Derivation

/-! What holds of every token of a text. -/
namespace HumanScript

theorem Token.Kind.mem_of_ofKeyword? {word : String} {k : Token.Kind}
    (h : ofKeyword? word = some k) :
    k ∈ keywords.map Prod.snd := by
  obtain ⟨before, after, hsplit, _⟩ := List.lookup_eq_some_iff.mp h
  rw [hsplit]
  simp

namespace Lexeme

/-- A lexeme of a literal has a value of its kind. -/
def ValueFits (l : Lexeme) : Prop :=
  l.kind ∈ Grammar.literalKinds → ∃ v, l.value = some v ∧ l.kind = v.kind

theorem valueFits_of_not_mem {kind : Token.Kind} {text : List Char} {value : Option Literal}
    {error : Option LexError} (h : kind ∉ Grammar.literalKinds) :
    ValueFits ⟨kind, text, value, error⟩ := fun hk => absurd hk h

theorem not_mem_literalKinds_of_mark? {c : Char} {k : Token.Kind} (h : mark? c = some k) :
    k ∉ Grammar.literalKinds := by
  unfold mark? at h
  split at h <;> cases h <;> decide

theorem valueFits_ofWord (word : List Char) : (ofWord word).ValueFits := by
  unfold ofWord
  split
  · exact fun _ => ⟨_, rfl, rfl⟩
  · exact fun _ => ⟨_, rfl, rfl⟩
  · rename_i k htrue hfalse h
    intro hk
    -- Only two keywords are literals, and both have their own case.
    have hmem : k ∈ Token.Kind.keywords.map Prod.snd := Token.Kind.mem_of_ofKeyword? h
    have hcases : ∀ k ∈ Token.Kind.keywords.map Prod.snd, k ∈ Grammar.literalKinds →
        k = .trueKw ∨ k = .falseKw := by decide
    rcases hcases k hmem hk with rfl | rfl
    · exact absurd rfl htrue
    · exact absurd rfl hfalse
  · exact valueFits_of_not_mem (by decide)

theorem valueFits_scanNumber (cs : List Char) : (scanNumber cs).1.ValueFits := by
  unfold scanNumber
  dsimp only
  split
  · split
    · exact fun _ => ⟨_, rfl, rfl⟩
    · exact fun _ => ⟨_, rfl, rfl⟩
  · exact fun _ => ⟨_, rfl, rfl⟩

theorem valueFits_scan (c : Char) (cs : List Char) : (scan c cs).1.ValueFits := by
  unfold scan
  split
  · rename_i k h
    exact valueFits_of_not_mem (not_mem_literalKinds_of_mark? h)
  · split
    · exact fun _ => ⟨_, rfl, rfl⟩
    · split
      · exact valueFits_ofWord _
      · split
        · exact valueFits_scanNumber _
        · split <;> exact valueFits_of_not_mem (by decide)

end Lexeme

namespace Lexed

/-- Every token is the front of a part of the text. -/
theorem exists_scan_of_mem_ofChars {offset : Nat} {cs : List Char} {t : Token}
    (h : t ∈ (ofChars offset cs).tokens) : ∃ c more lo, t = (Lexeme.scan c more).1.token lo := by
  fun_induction ofChars offset cs with
  | case1 => simp at h
  | case2 _ _ _ ih => exact ih h
  | case3 _ _ _ _ _ ih => exact ih h
  | case4 offset c cs _ _ front lexeme _ => exact ⟨c, cs, offset, List.mem_singleton.mp h⟩
  | case5 offset c cs _ _ front lexeme _ more ih =>
    rcases List.mem_cons.mp h with rfl | h
    · exact ⟨c, cs, offset, rfl⟩
    · exact ih h

theorem valueFits_of_mem {src : String} {t : Token} (h : t ∈ (ofSource src).tokens) :
    t.ValueFits := by
  obtain ⟨c, more, lo, rfl⟩ := exists_scan_of_mem_ofChars h
  exact Lexeme.valueFits_scan c more

end Lexed
end HumanScript
