import HumanScript.Proofs.Reading

/-! Expressions by recursive descent. The grammar of expressions has three layers, and each layer
can be read by a function of its own. Reading by the power of operators gives the same, also where
it fails: the same error, with the same tokens still to be taken. -/
namespace HumanScript

/-- Why reading stopped, and the tokens from where it stopped. -/
structure Halt where
  error : Spanned ParseError
  rest : List Token

/-- A reading that tells how far it came, also if it fails. -/
abbrev Attempt (α : Type) (bound : Nat) := Except Halt (Read α bound)

namespace Attempt

/-! How much is left after one reading, and after two in a row. -/

section Bounds
variable (t : Token) {ts rest rest' : List Token}

theorem length_lt_cons (ts : List Token) : ts.length < (t :: ts).length := by simp

theorem length_lt_succ (ts : List Token) : ts.length < ts.length + 1 := Nat.lt_add_one _

theorem group_length_lt (h : rest.length < ts.length) (h' : rest'.length < rest.length) :
    rest'.length < ts.length + 1 := by omega

theorem layer_length_lt (h : rest.length < ts.length) (h' : rest'.length < rest.length + 1) :
    rest'.length < ts.length := by omega

theorem operand_length_lt (h : rest.length < ts.length + 1)
    (h' : rest'.length < rest.length + 1) : rest'.length < (t :: ts).length := by
  rw [List.length_cons]
  omega

theorem operator_length_lt (h : rest.length < ts.length) (h' : rest'.length < rest.length + 1) :
    rest'.length < (t :: ts).length + 1 := by
  rw [List.length_cons]
  omega

end Bounds

section Definitions
variable (stop : Span)

/-- Takes one token of the wanted kind, and nothing else. -/
def expect (kind : Token.Kind) : (ts : List Token) → Attempt Token ts.length
  | [] => .error ⟨⟨stop, .unexpected .eof kind⟩, []⟩
  | t :: ts =>
    if t.kind = kind then .ok ⟨t, ts, length_lt_cons t ts⟩
    else .error ⟨t.blame (.unexpected · kind), t :: ts⟩

/-- The operand that starts with `t`; `inner` is the expression that starts after `t`, in case that
`t` opens a parenthesis. A token that starts no operand is taken all the same, except for one that
marks the end. -/
def operand (t : Token) (ts : List Token) (inner : Attempt (Expr Unit) ts.length) :
    Attempt (Expr Unit) (ts.length + 1) :=
  match t.literal? with
  | some value => .ok ⟨.literal value t.span (), ts, length_lt_succ ts⟩
  | none =>
    if t.kind = .identifier then .ok ⟨.name ⟨t.text, t.span⟩ t.span (), ts, length_lt_succ ts⟩
    else if t.kind = .lparen then do
      let ⟨e, rest, h⟩ ← inner
      let ⟨close, rest, h'⟩ ← expect stop .rparen rest
      return ⟨e.withSpan (t.span.join close.span), rest, group_length_lt h h'⟩
    else .error ⟨t.blame .unexpectedInExpr, if t.kind = .eof then t :: ts else ts⟩

mutual

/-- An expression whose operators all hold at least as strongly as `power`. -/
def byPower (power : Nat) : (ts : List Token) → Attempt (Expr Unit) ts.length
  | [] => .error ⟨⟨stop, .unexpectedInExpr .eof⟩, []⟩
  | t :: ts => do
    let ⟨lhs, rest, h⟩ ← operand stop t ts (byPower 0 ts)
    let ⟨e, rest, h'⟩ ← operators power lhs rest
    return ⟨e, rest, operand_length_lt t h h'⟩
termination_by ts => 2 * ts.length + 1
decreasing_by
  all_goals try simp only [List.length_cons] at *
  all_goals omega

def operators (power : Nat) (lhs : Expr Unit) :
    (ts : List Token) → Attempt (Expr Unit) (ts.length + 1)
  | [] => .ok ⟨lhs, [], by simp⟩
  | t :: ts =>
    match t.kind.binaryOp? with
    | none => .ok ⟨lhs, t :: ts, by simp⟩
    | some op =>
      if op.leftPower < power then .ok ⟨lhs, t :: ts, by simp⟩
      else do
        let ⟨rhs, rest, h⟩ ← byPower op.rightPower ts
        let ⟨e, rest, h'⟩ ← operators power (.binary op lhs rhs (lhs.span.join rhs.span) ()) rest
        return ⟨e, rest, operator_length_lt t h h'⟩
termination_by ts => 2 * ts.length
decreasing_by
  all_goals try simp only [List.length_cons] at *
  all_goals omega

end

mutual

/-- `comparison := sum ('?=' sum)*` -/
def comparison (ts : List Token) : Attempt (Expr Unit) ts.length := do
  let ⟨lhs, rest, h⟩ ← sum ts
  let ⟨e, rest, h'⟩ ← moreSums lhs rest
  return ⟨e, rest, layer_length_lt h h'⟩
termination_by 4 * ts.length + 3
decreasing_by all_goals omega

/-- `('?=' sum)*` after `lhs` -/
def moreSums (lhs : Expr Unit) : (ts : List Token) → Attempt (Expr Unit) (ts.length + 1)
  | [] => .ok ⟨lhs, [], by simp⟩
  | t :: ts =>
    if t.kind = .questionEq then do
      let ⟨rhs, rest, h⟩ ← sum ts
      let ⟨e, rest, h'⟩ ← moreSums (.binary .eq lhs rhs (lhs.span.join rhs.span) ()) rest
      return ⟨e, rest, operator_length_lt t h h'⟩
    else .ok ⟨lhs, t :: ts, by simp⟩
termination_by ts => 4 * ts.length
decreasing_by
  all_goals try simp only [List.length_cons] at *
  all_goals omega

/-- `sum := factor ('+' factor)*` -/
def sum (ts : List Token) : Attempt (Expr Unit) ts.length := do
  let ⟨lhs, rest, h⟩ ← factor ts
  let ⟨e, rest, h'⟩ ← moreFactors lhs rest
  return ⟨e, rest, layer_length_lt h h'⟩
termination_by 4 * ts.length + 2
decreasing_by all_goals omega

/-- `('+' factor)*` after `lhs` -/
def moreFactors (lhs : Expr Unit) : (ts : List Token) → Attempt (Expr Unit) (ts.length + 1)
  | [] => .ok ⟨lhs, [], by simp⟩
  | t :: ts =>
    if t.kind = .plus then do
      let ⟨rhs, rest, h⟩ ← factor ts
      let ⟨e, rest, h'⟩ ← moreFactors (.binary .add lhs rhs (lhs.span.join rhs.span) ()) rest
      return ⟨e, rest, operator_length_lt t h h'⟩
    else .ok ⟨lhs, t :: ts, by simp⟩
termination_by ts => 4 * ts.length
decreasing_by
  all_goals try simp only [List.length_cons] at *
  all_goals omega

/-- A literal, a name, or `'(' comparison ')'` -/
def factor : (ts : List Token) → Attempt (Expr Unit) ts.length
  | [] => .error ⟨⟨stop, .unexpectedInExpr .eof⟩, []⟩
  | t :: ts => operand stop t ts (comparison ts)
termination_by ts => 4 * ts.length + 1
decreasing_by
  all_goals try simp only [List.length_cons] at *
  all_goals omega

end

end Definitions

section Runs
variable {α β : Type} {m n : Nat}

/-- What is read and what is left, without the bound. -/
def run (r : Attempt α n) : Except Halt (α × List Token) := r.map fun x => (x.value, x.rest)

@[simp] theorem run_ok (x : Read α n) : run (.ok x) = .ok (x.value, x.rest) := rfl

@[simp] theorem run_error (e : Halt) : run (.error e : Attempt α n) = .error e := rfl

theorem run_injective {r r' : Attempt α n} (h : run r = run r') : r = r' := by
  cases r with
  | error e =>
    cases r' with
    | error e' => exact congrArg _ (Except.error.inj h)
    | ok x' => cases h
  | ok x =>
    cases r' with
    | error e' => cases h
    | ok x' =>
      obtain ⟨value, rest, hx⟩ := x
      obtain ⟨value', rest', hx'⟩ := x'
      simp only [run_ok, Except.ok.injEq, Prod.mk.injEq] at h
      obtain ⟨rfl, rfl⟩ := h
      rfl

theorem run_bind (r : Attempt α n) (f : Read α n → Attempt β m)
    (g : α × List Token → Except Halt (β × List Token))
    (h : ∀ x, run (f x) = g (x.value, x.rest)) : run (r >>= f) = run r >>= g := by
  cases r with
  | error e => rfl
  | ok x => exact h x

/-- A last step that only loosens the bound. -/
theorem run_loosen (r : Attempt α n) (h : ∀ x : Read α n, x.rest.length < m) :
    run (r >>= fun x => pure ⟨x.value, x.rest, h x⟩ : Attempt α m) = run r := by
  cases r <;> rfl

theorem length_lt_of_run {r : Attempt α n} {value : α} {rest : List Token}
    (h : run r = .ok (value, rest)) : rest.length < n := by
  cases r with
  | error e => cases h
  | ok x =>
    simp only [run_ok, Except.ok.injEq, Prod.mk.injEq] at h
    exact h.2 ▸ x.lt

variable (stop : Span)

theorem run_byPower_cons (power : Nat) (t : Token) (ts : List Token) :
    run (byPower stop power (t :: ts)) =
      run (operand stop t ts (byPower stop 0 ts)) >>= fun (lhs, rest) =>
        run (operators stop power lhs rest) := by
  rw [byPower]
  refine run_bind _ _ _ fun x => ?_
  obtain ⟨lhs, rest, h⟩ := x
  exact run_loosen _ _

@[simp] theorem run_operators_nil (power : Nat) (lhs : Expr Unit) :
    run (operators stop power lhs []) = .ok (lhs, []) := by
  rw [operators]
  rfl

theorem run_operators_cons (power : Nat) (lhs : Expr Unit) (t : Token) (ts : List Token) :
    run (operators stop power lhs (t :: ts)) =
      match t.kind.binaryOp? with
      | none => .ok (lhs, t :: ts)
      | some op =>
        if op.leftPower < power then .ok (lhs, t :: ts)
        else run (byPower stop op.rightPower ts) >>= fun (rhs, rest) =>
          run (operators stop power (.binary op lhs rhs (lhs.span.join rhs.span) ()) rest) := by
  rw [operators]
  cases t.kind.binaryOp? with
  | none => rfl
  | some op =>
    dsimp only
    split
    · rfl
    · refine run_bind _ _ _ fun x => ?_
      obtain ⟨rhs, rest, h⟩ := x
      exact run_loosen _ _

theorem run_comparison (ts : List Token) :
    run (comparison stop ts) = run (sum stop ts) >>= fun (lhs, rest) =>
      run (moreSums stop lhs rest) := by
  rw [comparison]
  refine run_bind _ _ _ fun x => ?_
  obtain ⟨lhs, rest, h⟩ := x
  exact run_loosen _ _

@[simp] theorem run_moreSums_nil (lhs : Expr Unit) :
    run (moreSums stop lhs []) = .ok (lhs, []) := by
  rw [moreSums]
  rfl

theorem run_moreSums_cons (lhs : Expr Unit) (t : Token) (ts : List Token) :
    run (moreSums stop lhs (t :: ts)) =
      if t.kind = .questionEq then
        run (sum stop ts) >>= fun (rhs, rest) =>
          run (moreSums stop (.binary .eq lhs rhs (lhs.span.join rhs.span) ()) rest)
      else .ok (lhs, t :: ts) := by
  rw [moreSums]
  split
  · refine run_bind _ _ _ fun x => ?_
    obtain ⟨rhs, rest, h⟩ := x
    exact run_loosen _ _
  · rfl

theorem run_sum (ts : List Token) :
    run (sum stop ts) = run (factor stop ts) >>= fun (lhs, rest) =>
      run (moreFactors stop lhs rest) := by
  rw [sum]
  refine run_bind _ _ _ fun x => ?_
  obtain ⟨lhs, rest, h⟩ := x
  exact run_loosen _ _

@[simp] theorem run_moreFactors_nil (lhs : Expr Unit) :
    run (moreFactors stop lhs []) = .ok (lhs, []) := by
  rw [moreFactors]
  rfl

theorem run_moreFactors_cons (lhs : Expr Unit) (t : Token) (ts : List Token) :
    run (moreFactors stop lhs (t :: ts)) =
      if t.kind = .plus then
        run (factor stop ts) >>= fun (rhs, rest) =>
          run (moreFactors stop (.binary .add lhs rhs (lhs.span.join rhs.span) ()) rest)
      else .ok (lhs, t :: ts) := by
  rw [moreFactors]
  split
  · refine run_bind _ _ _ fun x => ?_
    obtain ⟨rhs, rest, h⟩ := x
    exact run_loosen _ _
  · rfl

end Runs

section Layers
variable (stop : Span) {n : Nat}

/-- No operator holds as strongly as the right of a `+`. -/
theorem run_operators_tight (lhs : Expr Unit) (ts : List Token) :
    run (operators stop BinaryOp.add.rightPower lhs ts) = .ok (lhs, ts) := by
  cases ts with
  | nil => exact run_operators_nil stop _ lhs
  | cons t ts =>
    rw [run_operators_cons]
    cases t.kind.binaryOp? with
    | none => rfl
    | some op => cases op <;> rfl

/-- A sum is read until no `+` follows. -/
theorem notNext_of_moreFactors {lhs e : Expr Unit} {ts rest : List Token}
    (h : run (moreFactors stop lhs ts) = .ok (e, rest)) : Reading.NotNext .plus rest := by
  obtain ⟨m, hm⟩ : ∃ m, ts.length = m := ⟨_, rfl⟩
  induction m using Nat.strongRecOn generalizing lhs ts with
  | _ m ih =>
    cases ts with
    | nil =>
      cases (run_moreFactors_nil stop lhs).symm.trans h
      exact Reading.notNext_nil _
    | cons t ts =>
      rw [run_moreFactors_cons] at h
      split at h
      · obtain ⟨⟨rhs, after⟩, hfactor, hmore⟩ := Except.bind_eq_ok_iff.mp h
        have hlt := length_lt_of_run hfactor
        exact ih after.length (by rw [List.length_cons] at hm; omega) hmore rfl
      · rename_i hplus
        cases h
        exact Reading.notNext_cons.mpr hplus

theorem run_moreFactors_of_notNext {lhs : Expr Unit} {ts : List Token}
    (h : Reading.NotNext .plus ts) : run (moreFactors stop lhs ts) = .ok (lhs, ts) := by
  cases ts with
  | nil => exact run_moreFactors_nil stop lhs
  | cons t ts => rw [run_moreFactors_cons, if_neg (Reading.notNext_cons.mp h)]

/-- On fewer than `n` tokens both ways of reading an expression agree. This is what an expression
in parentheses may rely on. -/
def AgreeBelow (n : Nat) : Prop := ∀ ts : List Token, ts.length < n →
  byPower stop 0 ts = comparison stop ts

variable {stop}

theorem AgreeBelow.byPower_factor (h : AgreeBelow stop n) {ts : List Token} (hts : ts.length ≤ n) :
    byPower stop BinaryOp.add.rightPower ts = factor stop ts := by
  cases ts with
  | nil => rw [byPower, factor]
  | cons t ts =>
    apply run_injective
    rw [run_byPower_cons, factor, h ts hts]
    simp only [run_operators_tight]
    exact bind_pure _

theorem AgreeBelow.operators_sum (h : AgreeBelow stop n) (lhs : Expr Unit) {ts : List Token}
    (hts : ts.length ≤ n) :
    run (operators stop BinaryOp.eq.rightPower lhs ts) = run (moreFactors stop lhs ts) := by
  obtain ⟨m, hm⟩ : ∃ m, ts.length = m := ⟨_, rfl⟩
  induction m using Nat.strongRecOn generalizing lhs ts with
  | _ m ih =>
    cases ts with
    | nil => rw [run_operators_nil, run_moreFactors_nil]
    | cons t ts =>
      rw [List.length_cons] at hm hts
      rw [run_operators_cons, run_moreFactors_cons]
      by_cases hplus : t.kind = .plus
      · rw [if_pos hplus, hplus]
        change run (byPower stop BinaryOp.add.rightPower ts) >>= _ = _
        rw [h.byPower_factor (by omega)]
        cases hfactor : run (factor stop ts) with
        | error e => rfl
        | ok x =>
          have hlt := length_lt_of_run hfactor
          exact ih x.2.length (by omega) _ (by omega) rfl
      · rw [if_neg hplus]
        -- A comparison holds less strongly than a sum, and there is no third operator.
        cases hk : t.kind <;> first | rfl | exact absurd hk hplus

theorem AgreeBelow.byPower_sum (h : AgreeBelow stop n) {ts : List Token} (hts : ts.length ≤ n) :
    byPower stop BinaryOp.eq.rightPower ts = sum stop ts := by
  apply run_injective
  rw [run_sum]
  cases ts with
  | nil =>
    rw [byPower, factor]
    rfl
  | cons t ts =>
    rw [run_byPower_cons, factor, h ts hts]
    cases hfactor : run (operand stop t ts (comparison stop ts)) with
    | error e => rfl
    | ok x =>
      have hlt := length_lt_of_run hfactor
      rw [List.length_cons] at hts
      exact h.operators_sum x.1 (by omega)

/-- Reading on from the start is finishing the sum first, and then the comparison. -/
theorem AgreeBelow.operators_comparison (h : AgreeBelow stop n) (lhs : Expr Unit) {ts : List Token}
    (hts : ts.length ≤ n) :
    run (operators stop 0 lhs ts) = run (moreFactors stop lhs ts) >>= fun (e, rest) =>
      run (moreSums stop e rest) := by
  obtain ⟨m, hm⟩ : ∃ m, ts.length = m := ⟨_, rfl⟩
  induction m using Nat.strongRecOn generalizing lhs ts with
  | _ m ih =>
    cases ts with
    | nil =>
      rw [run_operators_nil, run_moreFactors_nil]
      exact (run_moreSums_nil stop lhs).symm
    | cons t ts =>
      rw [List.length_cons] at hm hts
      rw [run_operators_cons, run_moreFactors_cons]
      by_cases hplus : t.kind = .plus
      · rw [if_pos hplus, hplus]
        change run (byPower stop BinaryOp.add.rightPower ts) >>= _ = _
        rw [h.byPower_factor (by omega)]
        cases hfactor : run (factor stop ts) with
        | error e => rfl
        | ok x =>
          have hlt := length_lt_of_run hfactor
          exact ih x.2.length (by omega) _ (by omega) rfl
      · rw [if_neg hplus]
        change _ = run (moreSums stop lhs (t :: ts))
        rw [run_moreSums_cons]
        by_cases heq : t.kind = .questionEq
        · rw [if_pos heq, heq]
          change run (byPower stop BinaryOp.eq.rightPower ts) >>= _ = _
          rw [h.byPower_sum (by omega)]
          cases hsum : run (sum stop ts) with
          | error e => rfl
          | ok x =>
            have hlt := length_lt_of_run hsum
            have hdone : Reading.NotNext .plus x.2 := by
              rw [run_sum] at hsum
              obtain ⟨_, _, hmore⟩ := Except.bind_eq_ok_iff.mp hsum
              exact notNext_of_moreFactors stop hmore
            change run (operators stop 0 _ x.2) = run (moreSums stop _ x.2)
            rw [ih x.2.length (by omega) _ (by omega) rfl, run_moreFactors_of_notNext stop hdone]
            rfl
        · rw [if_neg heq]
          cases hk : t.kind <;> first | rfl | exact absurd hk hplus | exact absurd hk heq

theorem AgreeBelow.byPower_comparison (h : AgreeBelow stop n) {ts : List Token}
    (hts : ts.length ≤ n) : byPower stop 0 ts = comparison stop ts := by
  apply run_injective
  rw [run_comparison, run_sum]
  cases ts with
  | nil =>
    rw [byPower, factor]
    rfl
  | cons t ts =>
    rw [run_byPower_cons, factor, h ts hts]
    cases hfactor : run (operand stop t ts (comparison stop ts)) with
    | error e => rfl
    | ok x =>
      have hlt := length_lt_of_run hfactor
      rw [List.length_cons] at hts
      exact h.operators_comparison x.1 (by omega)

theorem agreeBelow (stop : Span) (n : Nat) : AgreeBelow stop n := by
  induction n with
  | zero => exact fun _ h => absurd h (Nat.not_lt_zero _)
  | succ n ih => exact fun ts h => ih.byPower_comparison (Nat.lt_succ_iff.mp h)

theorem byPower_eq_comparison (stop : Span) (ts : List Token) :
    byPower stop 0 ts = comparison stop ts :=
  agreeBelow stop (ts.length + 1) ts (Nat.lt_succ_self _)

end Layers

section Readings
variable {α β : Type} {m n : Nat}

/-- The attempt without the tokens that are left after an error. -/
def reading (r : Attempt α n) : Reading α n := r.mapError Halt.error

theorem reading_bind (r : Attempt α n) (f : Read α n → Attempt β m) :
    reading (r >>= f) = reading r >>= fun x => reading (f x) := by
  cases r <;> rfl

theorem reading_expect (stop : Span) (kind : Token.Kind) (ts : List Token) :
    reading (expect stop kind ts) = Reading.expect stop kind ts := by
  cases ts with
  | nil => rfl
  | cons t ts =>
    rw [expect, Reading.expect]
    split <;> rfl

theorem reading_operand {stop : Span} (t : Token) {ts : List Token}
    {inner : Attempt (Expr Unit) ts.length} (h : reading inner = Reading.expr stop 0 ts) :
    reading (operand stop t ts inner) = Reading.operand stop (t :: ts) := by
  rw [operand, Reading.operand]
  cases t.literal? with
  | some value => rfl
  | none =>
    dsimp only
    split
    · rfl
    · split
      · rw [reading_bind, h]
        refine bind_congr fun x => ?_
        rw [reading_bind, reading_expect]
        rfl
      · rfl

/-- Operators are read alike if their operands, which have fewer tokens, are. -/
theorem reading_operators {stop : Span}
    (h : ∀ ts : List Token, ts.length < n → ∀ power,
      reading (byPower stop power ts) = Reading.expr stop power ts)
    (power : Nat) (lhs : Expr Unit) {ts : List Token} (hts : ts.length ≤ n) :
    reading (operators stop power lhs ts) = Reading.operators stop power lhs ts := by
  obtain ⟨m, hm⟩ : ∃ m, ts.length = m := ⟨_, rfl⟩
  induction m using Nat.strongRecOn generalizing lhs ts with
  | _ m ih =>
    cases ts with
    | nil =>
      rw [operators, Reading.operators]
      rfl
    | cons t ts =>
      rw [List.length_cons] at hm hts
      rw [operators, Reading.operators]
      cases t.kind.binaryOp? with
      | none => rfl
      | some op =>
        dsimp only
        split
        · rfl
        · rw [reading_bind, h ts (by omega)]
          refine bind_congr fun x => ?_
          obtain ⟨rhs, rest, hrest⟩ := x
          dsimp only
          rw [reading_bind, ih rest.length (by omega) _ (by omega) rfl]
          rfl

/-- Telling how far reading came does not change what is read. -/
theorem reading_byPower (stop : Span) (power : Nat) (ts : List Token) :
    reading (byPower stop power ts) = Reading.expr stop power ts := by
  obtain ⟨n, hn⟩ : ∃ n, ts.length = n := ⟨_, rfl⟩
  induction n using Nat.strongRecOn generalizing power ts with
  | _ n ih =>
    cases ts with
    | nil =>
      rw [byPower, Reading.expr, Reading.operand]
      rfl
    | cons t ts =>
      rw [List.length_cons] at hn
      have hoperand := reading_operand t (ih ts.length (by omega) 0 ts rfl)
      rw [byPower, Reading.expr, reading_bind, hoperand]
      refine bind_congr fun x => ?_
      obtain ⟨lhs, rest, hrest⟩ := x
      have hoperators : reading (operators stop power lhs rest) =
          Reading.operators stop power lhs rest :=
        reading_operators (fun us hus power => ih us.length hus power us rfl) power lhs
          (by omega)
      dsimp only
      rw [reading_bind, hoperators]
      rfl

end Readings

/-- What a reader comes to from a position on: the expression or the error, and the position after
it, as many tokens further on as were taken. -/
def outcomeAt (reader : (ts : List Token) → Attempt (Expr Unit) ts.length) (ts : List Token)
    (cursor : Nat) : Except (Spanned ParseError) (Expr Unit) × Nat :=
  let left := ts.drop cursor
  match reader left with
  | .ok x => (.ok x.value, cursor + (left.length - x.rest.length))
  | .error halt => (.error halt.error, cursor + (left.length - halt.rest.length))

/-- Reading by the power of operators is recursive descent through the layers of the grammar. From
every position, in tokens that end at `stop`, both come to the same expression with the same places,
or to the same error, and to the same position. What `Reading.expr` reads is that. -/
theorem expr_eq_recursive_descent (stop : Span) (ts : List Token) (cursor : Nat) :
    (∀ left, Reading.expr stop 0 left = reading (byPower stop 0 left)) ∧
    outcomeAt (byPower stop 0) ts cursor = outcomeAt (comparison stop) ts cursor ∧
    Reading.expr stop 0 (ts.drop cursor) = reading (comparison stop (ts.drop cursor)) := by
  refine ⟨fun left => (reading_byPower stop 0 left).symm, ?_, ?_⟩
  · rw [outcomeAt, outcomeAt, byPower_eq_comparison]
  · rw [← byPower_eq_comparison, reading_byPower]

end Attempt
end HumanScript
