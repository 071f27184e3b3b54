import HumanScript.Proofs.Parsing.Alike
import HumanScript.Proofs.Slices
import HumanScript.Proofs.Valued

/-! Blanks, line ends and comments do not matter. Texts with the same tokens have the same code, or
the same error at the same tokens. -/
namespace HumanScript
open Grammar (Ordered)

/-- The range from the start of token `i` to the end of token `j`. -/
def Span.FromTo (ts : List Token) (i j : Nat) (s : Span) : Prop :=
  ∃ first ∈ ts[i]?, ∃ last ∈ ts[j]?, s.lo = first.span.lo ∧ s.hi = last.span.hi

/-- Two ranges, one in each of two texts, that start and end at the same tokens. -/
def Span.SameTokens (ts us : List Token) (a b : Span) : Prop :=
  ∃ i j, i ≤ j ∧ a.FromTo ts i j ∧ b.FromTo us i j

/-- What a token is, wherever it stands. -/
def Token.spelling (t : Token) : Token.Kind × String := (t.kind, t.text)

section Ranges
variable {ts us : List Token}

theorem Grammar.Ordered.lo_le_hi_le (h : Ordered ts) {i k : Nat} (hik : i ≤ k) {t u : Token}
    (ht : t ∈ ts[i]?) (hu : u ∈ ts[k]?) :
    t.span.lo ≤ u.span.lo ∧ t.span.hi ≤ u.span.hi := by
  rcases Nat.eq_or_lt_of_le hik with rfl | hlt
  · cases ht.symm.trans hu
    exact ⟨Nat.le_refl _, Nat.le_refl _⟩
  · obtain ⟨hi, rfl⟩ := List.getElem?_eq_some_iff.mp ht
    obtain ⟨hk, rfl⟩ := List.getElem?_eq_some_iff.mp hu
    have hbefore := List.pairwise_iff_getElem.mp (List.pairwise_map.mp h.before) i k hi hk hlt
    simp only [Span.Before, Span.hi] at hbefore ⊢
    omega

/-- Tokens are in order, so two ranges together go from the first of their tokens to the last. -/
theorem Span.FromTo.join (h : Ordered ts) {i j k l : Nat} {a b : Span} (ha : a.FromTo ts i j)
    (hb : b.FromTo ts k l) : (a.join b).FromTo ts (min i k) (max j l) := by
  obtain ⟨first, hfirst, last, hlast, halo, hahi⟩ := ha
  obtain ⟨first', hfirst', last', hlast', hblo, hbhi⟩ := hb
  have hlo : ∃ t ∈ ts[min i k]?, (a.join b).lo = t.span.lo := by
    simp only [Span.join, Span.lo_ofBounds]
    rcases Nat.le_total i k with hik | hki
    · have hle := (h.lo_le_hi_le hik hfirst hfirst').1
      exact ⟨first, by rwa [Nat.min_eq_left hik], by omega⟩
    · have hle := (h.lo_le_hi_le hki hfirst' hfirst).1
      exact ⟨first', by rwa [Nat.min_eq_right hki], by omega⟩
  have hhi : ∃ t ∈ ts[max j l]?, max a.hi b.hi = t.span.hi := by
    rcases Nat.le_total j l with hjl | hlj
    · have hle := (h.lo_le_hi_le hjl hlast hlast').2
      exact ⟨last', by rwa [Nat.max_eq_right hjl], by omega⟩
    · have hle := (h.lo_le_hi_le hlj hlast' hlast).2
      exact ⟨last, by rwa [Nat.max_eq_left hlj], by omega⟩
  obtain ⟨t, ht, hlo⟩ := hlo
  obtain ⟨u, hu, hhi⟩ := hhi
  -- No range is cut off, since all tokens end early enough.
  have hbound : max a.hi b.hi ≤ maxSpanLength := hhi ▸ h.bound u (List.mem_of_getElem? hu)
  have hle : min a.lo b.lo ≤ max a.hi b.hi := by
    simp only [Span.hi]
    omega
  exact ⟨t, ht, u, hu, hlo, (Lexed.hi_ofBounds_of_le hle hbound).trans hhi⟩

theorem Span.SameTokens.join (hts : Ordered ts) (hus : Ordered us) {a a' b b' : Span}
    (ha : SameTokens ts us a a') (hb : SameTokens ts us b b') :
    SameTokens ts us (a.join b) (a'.join b') := by
  obtain ⟨i, j, hij, ha, ha'⟩ := ha
  obtain ⟨k, l, hkl, hb, hb'⟩ := hb
  exact ⟨min i k, max j l, by omega, ha.join hts hb, ha'.join hus hb'⟩

theorem Span.SameTokens.single {i : Nat} {t u : Token} (ht : t ∈ ts[i]?) (hu : u ∈ us[i]?) :
    SameTokens ts us t.span u.span :=
  ⟨i, i, Nat.le_refl i, ⟨t, ht, t, ht, rfl, rfl⟩, ⟨u, hu, u, hu, rfl, rfl⟩⟩

end Ranges

namespace Lexed

/-- What a token is follows from its text. -/
theorem value_eq_of_text_eq {src src' : String} {t u : Token} (ht : t ∈ (ofSource src).tokens)
    (hu : u ∈ (ofSource src').tokens) (h : t.text = u.text) : t.value = u.value := by
  obtain ⟨c, cs, lo, rfl⟩ := exists_scan_of_mem_ofChars ht
  obtain ⟨d, ds, lo', rfl⟩ := exists_scan_of_mem_ofChars hu
  have htext : (Lexeme.scan c cs).1.text = (Lexeme.scan d ds).1.text := String.ofList_injective h
  have hfront := (Lexeme.front_scan c cs).cut List.nil_prefix
  have hfront' := (Lexeme.front_scan d ds).cut List.nil_prefix
  obtain ⟨hsame, -⟩ := hfront'.unique hfront (by rw [htext])
  exact congrArg Lexeme.value hsame

/-- Texts with the same tokens are read alike. -/
theorem alike_of_spelling {src src' : String}
    (hsize : Text.byteLength src.toList ≤ maxSpanLength)
    (hsize' : Text.byteLength src'.toList ≤ maxSpanLength)
    (h : (ofSource src).all.map Token.spelling = (ofSource src').all.map Token.spelling) :
    (ofSource src).Alike (Span.SameTokens (ofSource src).all (ofSource src').all)
      (ofSource src') := by
  have hlength : (ofSource src).tokens.length = (ofSource src').tokens.length := by
    simpa [all] using congrArg List.length h
  refine ⟨⟨?_, ?_⟩, List.forall₂_iff_get.mpr ⟨hlength, ?_⟩⟩
  · have ht : .eof (ofSource src).stop ∈ (ofSource src).all[(ofSource src).tokens.length]? := by
      simp [all]
    have hu : .eof (ofSource src').stop ∈ (ofSource src').all[(ofSource src).tokens.length]? := by
      simp [all, hlength]
    exact Span.SameTokens.single ht hu
  · exact fun ha hb => ha.join (ordered_all hsize) (ordered_all hsize') hb
  · intro i hi hi'
    have ht : (ofSource src).tokens.get ⟨i, hi⟩ ∈ (ofSource src).all[i]? := by
      simp [all, List.getElem?_append_left hi]
    have hu : (ofSource src').tokens.get ⟨i, hi'⟩ ∈ (ofSource src').all[i]? := by
      simp [all, List.getElem?_append_left hi']
    have hsame := congrArg (·[i]?) h
    simp only [List.getElem?_map, Option.mem_def.mp ht, Option.mem_def.mp hu, Option.map_some,
      Option.some.injEq] at hsame
    obtain ⟨hkind, htext⟩ := Prod.mk.inj hsame
    exact ⟨hkind, htext, value_eq_of_text_eq (List.get_mem _ _) (List.get_mem _ _) htext,
      .single ht hu⟩

end Lexed

/-- Compiling is reading, checking, lowering and writing. -/
theorem compile_result (src : String) :
    (compile src).result =
      (Lexed.ofSource src).program.mapError .parse >>= fun p =>
        p.check.mapError .check >>= fun c =>
          c.value.toCpp.mapError .emit >>= fun q => .ok q.render := by
  simp [compile, check, parse, Report.result_bind, bind_assoc]

/-- Layout is no part of the meaning: two texts with the same tokens either have the same code, or
the same error, whose places start and end at the same tokens. -/
theorem compile_of_same_tokens (src src' : String) (hsize : src.utf8ByteSize < Nat.pow 2 32)
    (hsize' : src'.utf8ByteSize < Nat.pow 2 32)
    (h : (Lexed.ofSource src).all.map Token.spelling =
      (Lexed.ofSource src').all.map Token.spelling) :
    (∃ code, (compile src).result = .ok code ∧ (compile src').result = .ok code) ∨
      ∃ e e', (compile src).result = .error e ∧ (compile src').result = .error e' ∧
        e.Alike (Span.SameTokens (Lexed.ofSource src).all (Lexed.ofSource src').all) e' := by
  have hlexed := Lexed.alike_of_spelling (Text.byteLength_toList src ▸ Nat.le_of_lt_succ hsize)
    (Text.byteLength_toList src' ▸ Nat.le_of_lt_succ hsize') h
  generalize Span.SameTokens (Lexed.ofSource src).all (Lexed.ofSource src').all = R at hlexed ⊢
  have hresult : Except.Rel (CompileError.Alike R) Eq (compile src).result
      (compile src').result := by
    rw [compile_result, compile_result]
    refine (hlexed.program.mapError fun _ _ => .parse).bind fun p p' _ hp => ?_
    refine (hp.check.mapError fun _ _ => .check).bind fun c c' _ hc => ?_
    rw [hc.value.toCpp]
    cases c'.value.toCpp with
    | error e => exact .error .emit
    | ok q => exact .ok rfl
  generalize (compile src).result = result at hresult ⊢
  generalize (compile src').result = result' at hresult ⊢
  cases hresult with
  | ok hsame => exact .inl ⟨_, rfl, hsame ▸ rfl⟩
  | error hsame => exact .inr ⟨_, _, rfl, rfl, hsame⟩

theorem compile_of_same_tokens_redeclared :
    let src := "text a := \"é\"; number a := 1;"
    let src' := "text a:=\"é\" ; // ünused\n\tnumber\na := 1 ;"
    src.utf8ByteSize < Nat.pow 2 32 ∧ src'.utf8ByteSize < Nat.pow 2 32 ∧
      (Lexed.ofSource src).all.map Token.spelling =
        (Lexed.ofSource src').all.map Token.spelling ∧
      ∃ e e', (compile src).result = .error e ∧ (compile src').result = .error e' ∧
        e.Alike (Span.SameTokens (Lexed.ofSource src).all (Lexed.ofSource src').all) e' := by
  intro src src'
  have hsame : (Lexed.ofSource src).all.map Token.spelling =
      (Lexed.ofSource src').all.map Token.spelling := by decide +kernel
  have hfails : (compile src).result.toOption = none := by decide +kernel
  refine ⟨by decide, by decide, hsame, ?_⟩
  refine (compile_of_same_tokens src src' (by decide) (by decide) hsame).resolve_left ?_
  rintro ⟨code, hcode, -⟩
  rw [hcode] at hfails
  cases hfails

end HumanScript
