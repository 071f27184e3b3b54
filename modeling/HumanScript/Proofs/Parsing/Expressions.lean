import HumanScript.Proofs.Reading
import HumanScript.Proofs.Derivation
import HumanScript.Proofs.Places

/-! Reading an expression takes the longest front of the tokens that spells one. -/
namespace HumanScript

namespace Token

theorem literal?_of_kind {t : Token} {v : Literal} (hk : t.kind = v.kind) (hv : t.value = some v) :
    t.literal? = some v := by
  rcases v with _ | _ | _ | _ | _ <;> simp_all [literal?, Literal.kind]

theorem literal?_eq_some_iff {t : Token} {v : Literal} (hfit : t.ValueFits) :
    t.literal? = some v ↔ t.kind = v.kind ∧ t.value = some v := by
  constructor
  · intro h
    have hmem : t.kind ∈ Grammar.literalKinds := by
      unfold literal? at h
      split at h <;> simp_all [Grammar.literalKinds]
    obtain ⟨w, hw, hk⟩ := hfit hmem
    have hvw : v = w := Option.some.inj (h.symm.trans (literal?_of_kind hk hw))
    exact ⟨hvw ▸ hk, hvw ▸ hw⟩
  · rintro ⟨hk, hv⟩
    exact literal?_of_kind hk hv

end Token

namespace Reading
open Grammar (SpellsExpr PlacedExpr Layer)
variable (stop : Span)

theorem binaryOp?_eq_none {k : Token.Kind} (hplus : k ≠ .plus) (heq : k ≠ .questionEq) :
    k.binaryOp? = none := by
  cases k <;> simp_all [Token.Kind.binaryOp?]

/-- An expression ends where no operator follows. -/
theorem run_operators_done {power : Nat} {e : Expr Unit} {rest : List Token}
    (hplus : NotNext .plus rest) (heq : NotNext .questionEq rest) :
    run (operators stop power e rest) = .ok (e, rest) := by
  cases rest with
  | nil => simp
  | cons t ts =>
    rw [run_operators_cons, binaryOp?_eq_none (notNext_cons.mp hplus) (notNext_cons.mp heq)]

/-- A sum ends where no `+` follows. -/
theorem run_operators_sum_done {e : Expr Unit} {rest : List Token} (h : NotNext .plus rest) :
    run (operators stop BinaryOp.eq.rightPower e rest) = .ok (e, rest) := by
  cases rest with
  | nil => simp
  | cons t ts => rw [run_operators_sum, if_neg (notNext_cons.mp h)]

/-- What reading does on tokens that spell an expression of a layer, whatever follows them. The
loops stand where they would after the last operand, ready for an operator of their own. -/
def ReadsAs : Layer → List Token → Expr Unit → Prop
  | .factor, ts, e => ∀ rest, run (operand stop (ts ++ rest)) = .ok (e, rest)
  | .sum, ts, e => ∀ rest, run (expr stop BinaryOp.eq.rightPower (ts ++ rest)) =
      run (operators stop BinaryOp.eq.rightPower e rest)
  | .comparison, ts, e => ∀ rest, NotNext .plus rest →
      run (expr stop 0 (ts ++ rest)) = run (operators stop 0 e rest)

theorem readsAs_of_placed {layer : Layer} {ts : List Token} {e : Expr Unit}
    (h : PlacedExpr layer ts e) : ReadsAs stop layer ts e := by
  induction h with
  | ofSum _ hread =>
    intro rest hplus
    rw [run_expr_comparison, hread rest, run_operators_sum_done stop hplus]
    rfl
  | @compare ls rs t l r _ ht _ hl hr =>
    intro rest hplus
    have hnext : t.kind ≠ .plus := by simp [ht]
    rw [List.append_assoc, List.cons_append, hl _ (notNext_cons.mpr hnext),
      run_operators_comparison stop l _ hnext, if_pos ht, hr rest,
      run_operators_sum_done stop hplus]
    rfl
  | ofFactor _ hread =>
    intro rest
    rw [run_expr, hread rest]
    rfl
  | add _ ht _ hl hr =>
    intro rest
    rw [List.append_assoc, List.cons_append, hl, run_operators_sum, if_pos ht, hr]
    rfl
  | @literal t v hk hv =>
    intro rest
    rw [List.singleton_append, run_operand_cons, Token.literal?_of_kind hk hv]
  | @name t ht =>
    intro rest
    have hnone : t.literal? = none := by simp [Token.literal?, ht]
    rw [List.singleton_append, run_operand_cons, hnone]
    exact if_pos ht
  | @group t u ts e ht _ hu hread =>
    intro rest
    have hnone : t.literal? = none := by simp [Token.literal?, ht]
    have hinner : run (expr stop 0 (ts ++ u :: rest)) = .ok (e, u :: rest) := by
      rw [hread _ (by simp [hu]), run_operators_done stop (by simp [hu]) (by simp [hu])]
    rw [List.cons_append, List.append_assoc, List.singleton_append, run_operand_cons, hnone]
    simp [ht, hinner, hu]

/-- Tokens that spell an expression are read as that expression, up to a token that is no
operator. -/
theorem run_expr_of_placed {ts : List Token} {e : Expr Unit} (h : PlacedExpr .comparison ts e)
    {rest : List Token} (hplus : NotNext .plus rest) (heq : NotNext .questionEq rest) :
    run (expr stop 0 (ts ++ rest)) = .ok (e, rest) := by
  have hread := readsAs_of_placed stop h rest hplus
  rw [hread, run_operators_done stop hplus heq]

/-- Operands of up to `n` tokens spell factors. Loops over operands rest on this. -/
def FactorsSpelled (n : Nat) : Prop :=
  ∀ ⦃ts rest : List Token⦄ ⦃e : Expr Unit⦄, ts.length ≤ n → (∀ t ∈ ts, t.ValueFits) →
    run (operand stop ts) = .ok (e, rest) →
      ∃ used, ts = used ++ rest ∧ SpellsExpr .factor used e.unplaced

variable {stop} {n : Nat}

/-- One round adds a factor to the sum at hand; the loop ends before anything but a `+`. -/
theorem spells_of_run_operators_sum (hfactors : FactorsSpelled stop n) {lhs e : Expr Unit}
    {before ts rest : List Token} (hlen : ts.length ≤ n) (hfit : ∀ t ∈ ts, t.ValueFits)
    (hlhs : SpellsExpr .sum before lhs.unplaced)
    (h : run (operators stop BinaryOp.eq.rightPower lhs ts) = .ok (e, rest)) :
    ∃ used, ts = used ++ rest ∧ SpellsExpr .sum (before ++ used) e.unplaced ∧
      NotNext .plus rest := by
  obtain ⟨k, hk⟩ : ∃ k, ts.length = k := ⟨_, rfl⟩
  induction k using Nat.strongRecOn generalizing lhs before ts with
  | _ k ih =>
    have hdone : ∀ {ts : List Token}, NotNext .plus ts →
        .ok (lhs, ts) = (.ok (e, rest) : Except (Spanned ParseError) _) →
        ∃ used, ts = used ++ rest ∧ SpellsExpr .sum (before ++ used) e.unplaced ∧
          NotNext .plus rest := by
      intro ts hplus hok
      simp only [Except.ok.injEq, Prod.mk.injEq] at hok
      obtain ⟨rfl, rfl⟩ := hok
      exact ⟨[], rfl, by rwa [List.append_nil], hplus⟩
    cases ts with
    | nil =>
      rw [run_operators_nil] at h
      exact hdone (notNext_nil _) h
    | cons t ts =>
      rw [run_operators_sum] at h
      by_cases hplus : t.kind = .plus
      · rw [if_pos hplus] at h
        obtain ⟨⟨rhs, mid⟩, hop, hmore⟩ := Except.bind_eq_ok_iff.mp h
        rw [List.length_cons] at hlen hk
        simp only [List.mem_cons] at hfit
        obtain ⟨us, rfl, hrhs⟩ := hfactors (by omega) (fun u hu => hfit u (.inr hu)) hop
        rw [List.length_append] at hlen hk
        simp only [List.mem_append] at hfit
        obtain ⟨vs, rfl, he, hnext⟩ := ih mid.length (by omega) (by omega)
          (fun u hu => hfit u (.inr (.inr hu))) (.add hlhs hplus hrhs) hmore rfl
        exact ⟨t :: (us ++ vs), by simp, by simpa using he, hnext⟩
      · rw [if_neg hplus] at h
        exact hdone (notNext_cons.mpr hplus) h

theorem spells_of_run_sum (hfactors : FactorsSpelled stop n) {e : Expr Unit}
    {ts rest : List Token} (hlen : ts.length ≤ n) (hfit : ∀ t ∈ ts, t.ValueFits)
    (h : run (expr stop BinaryOp.eq.rightPower ts) = .ok (e, rest)) :
    ∃ used, ts = used ++ rest ∧ SpellsExpr .sum used e.unplaced ∧ NotNext .plus rest := by
  rw [run_expr] at h
  obtain ⟨⟨lhs, mid⟩, hop, hmore⟩ := Except.bind_eq_ok_iff.mp h
  obtain ⟨us, rfl, hlhs⟩ := hfactors hlen hfit hop
  rw [List.length_append] at hlen
  simp only [List.mem_append] at hfit
  obtain ⟨vs, rfl, he, hnext⟩ := spells_of_run_operators_sum hfactors (by omega)
    (fun u hu => hfit u (.inr hu)) (.ofFactor hlhs) hmore
  exact ⟨us ++ vs, by simp, he, hnext⟩

/-- One round adds a sum to the comparison at hand. It never starts at a `+`, since the sum before
it would have taken that. -/
theorem spells_of_run_operators (hfactors : FactorsSpelled stop n) {lhs e : Expr Unit}
    {before ts rest : List Token} (hlen : ts.length ≤ n) (hfit : ∀ t ∈ ts, t.ValueFits)
    (hlhs : SpellsExpr .comparison before lhs.unplaced) (hplus : NotNext .plus ts)
    (h : run (operators stop 0 lhs ts) = .ok (e, rest)) :
    ∃ used, ts = used ++ rest ∧ SpellsExpr .comparison (before ++ used) e.unplaced := by
  obtain ⟨k, hk⟩ : ∃ k, ts.length = k := ⟨_, rfl⟩
  induction k using Nat.strongRecOn generalizing lhs before ts with
  | _ k ih =>
    have hdone : ∀ {ts : List Token},
        .ok (lhs, ts) = (.ok (e, rest) : Except (Spanned ParseError) _) →
        ∃ used, ts = used ++ rest ∧ SpellsExpr .comparison (before ++ used) e.unplaced := by
      intro ts hok
      simp only [Except.ok.injEq, Prod.mk.injEq] at hok
      obtain ⟨rfl, rfl⟩ := hok
      exact ⟨[], rfl, by rwa [List.append_nil]⟩
    cases ts with
    | nil =>
      rw [run_operators_nil] at h
      exact hdone h
    | cons t ts =>
      rw [run_operators_comparison stop lhs ts (notNext_cons.mp hplus)] at h
      by_cases heq : t.kind = .questionEq
      · rw [if_pos heq] at h
        obtain ⟨⟨rhs, mid⟩, hsum, hmore⟩ := Except.bind_eq_ok_iff.mp h
        rw [List.length_cons] at hlen hk
        simp only [List.mem_cons] at hfit
        obtain ⟨us, rfl, hrhs, hnext⟩ :=
          spells_of_run_sum hfactors (by omega) (fun u hu => hfit u (.inr hu)) hsum
        rw [List.length_append] at hlen hk
        simp only [List.mem_append] at hfit
        obtain ⟨vs, rfl, he⟩ := ih mid.length (by omega) (by omega)
          (fun u hu => hfit u (.inr (.inr hu))) (.compare hlhs heq hrhs) hnext hmore rfl
        exact ⟨t :: (us ++ vs), by simp, by simpa using he⟩
      · rw [if_neg heq] at h
        exact hdone h

theorem spells_of_run_comparison (hfactors : FactorsSpelled stop n) {e : Expr Unit}
    {ts rest : List Token} (hlen : ts.length ≤ n) (hfit : ∀ t ∈ ts, t.ValueFits)
    (h : run (expr stop 0 ts) = .ok (e, rest)) :
    ∃ used, ts = used ++ rest ∧ SpellsExpr .comparison used e.unplaced := by
  rw [run_expr_comparison] at h
  obtain ⟨⟨lhs, mid⟩, hsum, hmore⟩ := Except.bind_eq_ok_iff.mp h
  obtain ⟨us, rfl, hlhs, hnext⟩ := spells_of_run_sum hfactors hlen hfit hsum
  rw [List.length_append] at hlen
  simp only [List.mem_append] at hfit
  obtain ⟨vs, rfl, he⟩ := spells_of_run_operators hfactors (by omega)
    (fun u hu => hfit u (.inr hu)) (.ofSum hlhs) hnext hmore
  exact ⟨us ++ vs, by simp, he⟩

/-- Parentheses hold an expression of fewer tokens: hence the induction on their number. -/
theorem factorsSpelled (stop : Span) (n : Nat) : FactorsSpelled stop n := by
  induction n with
  | zero =>
    intro ts rest e hlen _ h
    rw [List.length_eq_zero_iff.mp (Nat.le_zero.mp hlen), run_operand_nil] at h
    cases h
  | succ n ih =>
    intro ts rest e hlen hfit h
    cases ts with
    | nil =>
      rw [run_operand_nil] at h
      cases h
    | cons t ts =>
      rw [run_operand_cons] at h
      cases hlit : t.literal? with
      | some v =>
        rw [hlit] at h
        obtain ⟨hk, hv⟩ := (Token.literal?_eq_some_iff (hfit t (by simp))).mp hlit
        simp only [Except.ok.injEq, Prod.mk.injEq] at h
        obtain ⟨rfl, rfl⟩ := h
        exact ⟨[t], rfl, .literal hk hv⟩
      | none =>
        rw [hlit] at h
        dsimp only at h
        split at h
        · rename_i hk
          simp only [Except.ok.injEq, Prod.mk.injEq] at h
          obtain ⟨rfl, rfl⟩ := h
          exact ⟨[t], rfl, .name hk⟩
        · split at h
          · rename_i hk
            obtain ⟨⟨e', mid⟩, hexpr, h⟩ := Except.bind_eq_ok_iff.mp h
            obtain ⟨⟨u, after⟩, hclose, h⟩ := Except.bind_eq_ok_iff.mp h
            obtain ⟨rfl, hu⟩ := run_expect_eq_ok_iff.mp hclose
            simp only [Except.ok.injEq, Prod.mk.injEq] at h
            obtain ⟨rfl, rfl⟩ := h
            rw [List.length_cons] at hlen
            obtain ⟨us, rfl, he⟩ := spells_of_run_comparison ih (by omega)
              (fun v hv => hfit v (by simp [hv])) hexpr
            refine ⟨t :: (us ++ [u]), by simp, ?_⟩
            rw [Expr.unplaced_withSpan]
            exact .group hk he hu
          · cases h

/-- What is read as an expression spells it. -/
theorem spells_of_run_expr {ts rest : List Token} {e : Expr Unit}
    (hfit : ∀ t ∈ ts, t.ValueFits) (h : run (expr stop 0 ts) = .ok (e, rest)) :
    ∃ used, ts = used ++ rest ∧ SpellsExpr .comparison used e.unplaced :=
  spells_of_run_comparison (factorsSpelled stop ts.length) (Nat.le_refl _) hfit h

end Reading
end HumanScript
