import HumanScript.Proofs.Parsing.Programs
import HumanScript.Proofs.Scanning

/-! Reading fails at the first token that no program has in its place: the tokens before it are the
start of a program, and with it they are not. -/
namespace HumanScript

namespace Grammar
open Token (Kind)

/-- The power with which expressions of a layer are read. -/
def Layer.power : Layer → Nat
  | comparison => 0
  | sum => BinaryOp.eq.rightPower
  | factor => BinaryOp.add.rightPower

/-- The layer of an operator's right operand. -/
def operandLayer : BinaryOp → Layer
  | .eq => .sum
  | .add => .factor

theorem rightPower_eq (op : BinaryOp) : op.rightPower = (operandLayer op).power := by
  cases op <;> rfl

theorem IsExpr.of_factor {ks : List Kind} (h : IsExpr .factor ks) (layer : Layer) :
    IsExpr layer ks := by
  have hsum : IsExpr .sum ks := isExpr_sum_iff.mpr (.single h)
  cases layer with
  | comparison => exact isExpr_comparison_iff.mpr (.single hsum)
  | sum => exact hsum
  | factor => exact h

/-- The last part of a row may grow by one more part of its own. -/
theorem Separated.extend {k : Kind} {P : List Kind → Prop} {ls rs : List Kind}
    (hl : Separated k P ls) (hgrow : ∀ s, P s → P (s ++ rs)) : Separated k P (ls ++ rs) := by
  obtain ⟨first, more, hfirst, hmore, rfl⟩ := hl
  rcases List.eq_nil_or_concat more with rfl | ⟨more, last, rfl⟩
  · exact ⟨first ++ rs, [], hgrow first hfirst, by simp, by simp⟩
  · refine ⟨first, more ++ [last ++ rs], hfirst, ?_, by simp⟩
    have hlast : P (last ++ rs) := hgrow last (hmore last (by simp))
    refine List.forall_mem_append.mpr ⟨?_, List.forall_mem_singleton.mpr hlast⟩
    exact fun s hs => hmore s (by simp [hs])

/-- An expression goes on with an operator that is not looser than its layer. -/
theorem IsExpr.extend {layer : Layer} {op : BinaryOp} {k : Kind} {ls rs : List Kind}
    (hl : IsExpr layer ls) (hk : k.binaryOp? = some op) (hpower : ¬ op.leftPower < layer.power)
    (hr : IsExpr (operandLayer op) rs) : IsExpr layer (ls ++ k :: rs) := by
  have hsum : ∀ {ls}, IsExpr .sum ls → IsExpr .factor rs → IsExpr .sum (ls ++ .plus :: rs) :=
    fun hl hr => isExpr_sum_iff.mpr ((isExpr_sum_iff.mp hl).snoc hr)
  cases op with
  | eq =>
    have hk : k = .questionEq := by cases k <;> simp_all [Kind.binaryOp?]
    subst hk
    cases layer with
    | comparison => exact isExpr_comparison_iff.mpr ((isExpr_comparison_iff.mp hl).snoc hr)
    | sum => exact absurd (by decide) hpower
    | factor => exact absurd (by decide) hpower
  | add =>
    have hk : k = .plus := by cases k <;> simp_all [Kind.binaryOp?]
    subst hk
    cases layer with
    | comparison =>
      exact isExpr_comparison_iff.mpr
        ((isExpr_comparison_iff.mp hl).extend fun s hs => hsum hs hr)
    | sum => exact hsum hl hr
    | factor => exact absurd (by decide) hpower

/-- Zero or more rows with a property, one after the other. -/
def Rows (P : List Kind → Prop) (ks : List Kind) : Prop :=
  ∃ rows : List (List Kind), (∀ r ∈ rows, P r) ∧ ks = rows.flatten

theorem Rows.nil {P : List Kind → Prop} : Rows P [] := ⟨[], by simp, rfl⟩

theorem Rows.cons {P : List Kind → Prop} {row ks : List Kind} (hrow : P row) (h : Rows P ks) :
    Rows P (row ++ ks) := by
  obtain ⟨rows, hrows, rfl⟩ := h
  exact ⟨row :: rows, List.forall_mem_cons.mpr ⟨hrow, hrows⟩, rfl⟩

/-- No program has a token that marks the end. -/
theorem IsExpr.eof_not_mem {layer : Layer} {ks : List Kind} (h : IsExpr layer ks) :
    .eof ∉ ks := by
  induction h with
  | literal hk =>
    simp only [List.mem_singleton]
    rintro rfl
    revert hk
    decide
  | name => decide
  | _ => simp_all

theorem IsStmt.eof_not_mem {ks : List Kind} (h : IsStmt ks) : .eof ∉ ks := by
  induction h with
  | @declare ty e hty he =>
    have hty' : .eof ≠ ty := by
      rintro rfl
      revert hty
      decide
    simp [hty', he.eof_not_mem]
  | print he => simp [he.eof_not_mem]
  | ifThen hc _ ih => simp [hc.eof_not_mem, ih]
  | ifElse hc _ _ iha ihb => simp [hc.eof_not_mem, iha, ihb]
  | block _ ih => simpa using ih

theorem IsProgram.eof_not_mem {ks : List Kind} (h : IsProgram ks) : .eof ∉ ks := by
  cases h with
  | mk himports hbody =>
    have himport : ∀ i, IsImport i → .eof ∉ i := by
      rintro _ ⟨_, hpath⟩
      have hmem : .eof ∉ pathKinds := by decide
      simp only [List.mem_cons, List.mem_append, reduceCtorEq, List.not_mem_nil, or_false,
        false_or]
      exact fun h => hmem (hpath _ h)
    simp only [List.mem_append, List.mem_flatten, not_or, not_exists, not_and]
    exact ⟨fun i hi => himport i (himports i hi), fun s hs => (hbody s hs).eof_not_mem⟩

/-- Every kind is the kind of some token with a fitting value. -/
theorem exists_tokens (ks : List Kind) :
    ∃ ts : List Token, ts.map Token.kind = ks ∧ ∀ t ∈ ts, t.ValueFits := by
  have hone : ∀ k : Kind, ∃ t : Token, t.kind = k ∧ t.ValueFits := by
    intro k
    by_cases hk : k ∈ literalKinds
    · have hvalue : ∃ v : Literal, v.kind = k := by
        simp only [literalKinds, List.mem_cons, List.not_mem_nil, or_false] at hk
        rcases hk with rfl | rfl | rfl | rfl | rfl
        · exact ⟨.int 0, rfl⟩
        · exact ⟨.float .zero, rfl⟩
        · exact ⟨.string "", rfl⟩
        · exact ⟨.bool true, rfl⟩
        · exact ⟨.bool false, rfl⟩
      obtain ⟨v, hv⟩ := hvalue
      exact ⟨⟨k, "", some v, .empty⟩, rfl, fun _ => ⟨v, rfl, hv.symm⟩⟩
    · exact ⟨⟨k, "", none, .empty⟩, rfl, fun h => absurd h hk⟩
  induction ks with
  | nil => exact ⟨[], rfl, by simp⟩
  | cons k ks ih =>
    obtain ⟨t, rfl, ht⟩ := hone k
    obtain ⟨ts, rfl, hts⟩ := ih
    exact ⟨t :: ts, rfl, List.forall_mem_cons.mpr ⟨ht, hts⟩⟩

end Grammar

namespace Reading
open Token (Kind)
open Grammar (Layer IsExpr IsStmt IsImport IsProgram Rows pathKinds operandLayer)
variable {α β : Type} {stop : Span} {n : Nat}

/-- What is read from the front of some tokens, and the tokens left over. -/
abbrev Reader (α : Type) := List Token → Except (Spanned ParseError) (α × List Token)

/-- One thing is read, and then more of them. -/
def Reader.andMore (f : Reader α) (g : Reader (List α)) : Reader (List α) := fun ts =>
  f ts >>= fun x => g x.2 >>= fun more => .ok (x.1 :: more.1, more.2)

/-- The complaint is about the next token, and calls it unknown exactly if it is. -/
structure Blames (stop : Span) (e : Spanned ParseError) (rest : List Token) : Prop where
  span : e.span = place stop rest
  unknown : e.value = .unknownToken ↔ ∃ t ∈ rest.head?, t.kind = .unknown

theorem blames_nil {value : ParseError} (h : value ≠ .unknownToken) :
    Blames stop ⟨stop, value⟩ [] := ⟨rfl, by simp [h]⟩

theorem blames_cons {complaint : Kind → ParseError} (h : ∀ k, complaint k ≠ .unknownToken)
    (t : Token) (ts : List Token) : Blames stop (t.blame complaint) (t :: ts) := by
  refine ⟨rfl, ?_⟩
  by_cases hk : t.kind = .unknown <;> simp [Token.blame, hk, h]

/-- Reading takes the tokens of a row of `L`, or it fails at a token up to which a row of `L` may
go. Either way no token after the next one matters. -/
structure Tracks (stop : Span) (f : Reader α) (L : List Kind → Prop) (ts : List Token) : Prop where
  ok : ∀ {x rest}, f ts = .ok (x, rest) → ∃ used, ts = used ++ rest ∧ L (used.map Token.kind) ∧
    ∀ rest', rest'.head? = rest.head? → f (used ++ rest') = .ok (x, rest')
  error : ∀ {e}, f ts = .error e → ∃ used rest, ts = used ++ rest ∧ Blames stop e rest ∧
    (∃ more, L (used.map Token.kind ++ more)) ∧
    ∀ rest', rest'.head? = rest.head? → f (used ++ rest') = .error e

namespace Tracks
variable {f : Reader α} {L F : List Kind → Prop} {ts : List Token}

theorem head?_append {us rest rest' : List Token} (h : rest'.head? = rest.head?) :
    (us ++ rest').head? = (us ++ rest).head? := by
  rw [List.head?_append, List.head?_append, h]

/-- Only what a reader does on tokens with the same front matters. -/
theorem congr {g : Reader α} (h : ∀ rest, rest.head? = ts.head? → f rest = g rest)
    (hg : Tracks stop g L ts) : Tracks stop f L ts := by
  have hts : f ts = g ts := h ts rfl
  refine ⟨?_, ?_⟩
  · intro x rest hok
    obtain ⟨used, rfl, hL, hlocal⟩ := hg.ok (hts.symm.trans hok)
    exact ⟨used, rfl, hL, fun rest' hrest => (h _ (head?_append hrest)).trans (hlocal rest' hrest)⟩
  · intro e herror
    obtain ⟨used, rest, rfl, hblame, hL, hlocal⟩ := hg.error (hts.symm.trans herror)
    exact ⟨used, rest, rfl, hblame, hL,
      fun rest' hrest => (h _ (head?_append hrest)).trans (hlocal rest' hrest)⟩

theorem congr_nil {g : Reader α} (h : f [] = g []) (hg : Tracks stop g L []) :
    Tracks stop f L [] := by
  refine congr (fun rest hrest => ?_) hg
  rw [List.head?_eq_none_iff.mp hrest, h]

theorem congr_cons {g : Reader α} {t : Token} (h : ∀ us, f (t :: us) = g (t :: us))
    (hg : Tracks stop g L (t :: ts)) : Tracks stop f L (t :: ts) := by
  refine congr (fun rest hrest => ?_) hg
  obtain ⟨us, rfl⟩ := List.head?_eq_some_iff.mp hrest
  exact h us

theorem pure (x : α) (hL : L []) : Tracks stop (fun ts => .ok (x, ts)) L ts := by
  refine ⟨?_, ?_⟩
  · intro y rest hok
    rw [Except.ok.injEq, Prod.mk.injEq] at hok
    obtain ⟨rfl, rfl⟩ := hok
    exact ⟨[], rfl, hL, fun rest' _ => rfl⟩
  · intro e herror
    cases herror

theorem fail {e : Spanned ParseError} (he : Blames stop e ts) (hL : ∃ more, L more) :
    Tracks stop (fun _ => (.error e : Except _ (α × List Token))) L ts := by
  refine ⟨?_, ?_⟩
  · intro x rest hok
    cases hok
  · intro e' herror
    cases herror
    exact ⟨[], ts, rfl, he, hL, fun rest' _ => rfl⟩

/-- The first token is taken. -/
theorem take {g : Reader α} {t : Token} (h : ∀ us, f (t :: us) = g us)
    (hg : Tracks stop g (fun ks => L (t.kind :: ks)) ts) : Tracks stop f L (t :: ts) := by
  refine ⟨?_, ?_⟩
  · intro x rest hok
    rw [h] at hok
    obtain ⟨used, rfl, hL, hlocal⟩ := hg.ok hok
    exact ⟨t :: used, rfl, hL, fun rest' hrest => (h _).trans (hlocal rest' hrest)⟩
  · intro e herror
    rw [h] at herror
    obtain ⟨used, rest, rfl, hblame, hL, hlocal⟩ := hg.error herror
    exact ⟨t :: used, rest, rfl, hblame, hL, fun rest' hrest => (h _).trans (hlocal rest' hrest)⟩

/-- One reader after the other. -/
theorem bind {g : α × List Token → Except (Spanned ParseError) (β × List Token)}
    (hf : Tracks stop f F ts) (hF : ∀ ks, F ks → ∃ more, L (ks ++ more))
    (hg : ∀ x rest, f ts = .ok (x, rest) → ∀ ks, F ks →
      Tracks stop (fun rest => g (x, rest)) (fun more => L (ks ++ more)) rest) :
    Tracks stop (fun ts => f ts >>= g) L ts := by
  -- What the first reader does on the same front, if the second one leaves what it leaves.
  have hfirst : ∀ {x used mid rest rest'},
      (∀ rest', rest'.head? = (mid ++ rest).head? → f (used ++ rest') = .ok (x, rest')) →
      rest'.head? = rest.head? → f (used ++ mid ++ rest') = .ok (x, mid ++ rest') := by
    intro x used mid rest rest' hlocal hrest
    rw [List.append_assoc]
    exact hlocal _ (head?_append hrest)
  refine ⟨?_, ?_⟩
  · intro y rest hok
    obtain ⟨⟨x, rest₁⟩, hx, hy⟩ := Except.bind_eq_ok_iff.mp hok
    obtain ⟨used, rfl, hused, hlocal⟩ := hf.ok hx
    obtain ⟨mid, rfl, hmid, hlocal'⟩ := (hg x rest₁ hx _ hused).ok hy
    refine ⟨used ++ mid, by simp, by rwa [List.map_append], ?_⟩
    intro rest' hrest
    rw [hfirst hlocal hrest]
    exact hlocal' rest' hrest
  · intro e herror
    rcases Except.bind_eq_error_iff.mp herror with he | ⟨⟨x, rest₁⟩, hx, he⟩
    · obtain ⟨used, rest, rfl, hblame, ⟨more, hmore⟩, hlocal⟩ := hf.error he
      obtain ⟨more', hL⟩ := hF _ hmore
      refine ⟨used, rest, rfl, hblame, ⟨more ++ more', by rwa [← List.append_assoc]⟩, ?_⟩
      intro rest' hrest
      rw [hlocal rest' hrest]
      rfl
    · obtain ⟨used, rfl, hused, hlocal⟩ := hf.ok hx
      obtain ⟨mid, rest, rfl, hblame, ⟨more, hL⟩, hlocal'⟩ := (hg x rest₁ hx _ hused).error he
      refine ⟨used ++ mid, rest, by simp, hblame, ⟨more, ?_⟩, ?_⟩
      · rwa [List.map_append, List.append_assoc]
      · intro rest' hrest
        rw [hfirst hlocal hrest]
        exact hlocal' rest' hrest

/-- A token of one kind is taken, and then reading goes on. -/
theorem expect {kind : Kind} {g : Token × List Token → Except (Spanned ParseError) (α × List Token)}
    (hL : ∃ more, L (kind :: more))
    (hg : ∀ t us, ts = t :: us → Tracks stop (fun us => g (t, us)) (fun ks => L (kind :: ks)) us) :
    Tracks stop (fun ts => run (expect stop kind ts) >>= g) L ts := by
  have hstart : ∃ more, L more := hL.imp' _ fun _ h => h
  cases ts with
  | nil => exact congr_nil rfl (fail (blames_nil (by simp)) hstart)
  | cons t us =>
    by_cases hk : t.kind = kind
    · have htake : ∀ us, run (Reading.expect stop kind (t :: us)) >>= g = g (t, us) := by
        intro us
        rw [run_expect_cons, if_pos hk]
        rfl
      refine take htake ?_
      rw [hk]
      exact hg t us rfl
    · have hfail : ∀ us, run (Reading.expect stop kind (t :: us)) >>= g =
          .error (t.blame (.unexpected · kind)) := by
        intro us
        rw [run_expect_cons, if_neg hk]
        rfl
      exact congr_cons hfail (fail (blames_cons (by simp) t us) hstart)

/-- One round of a loop adds a row. -/
theorem andMore {g : Reader (List α)} (hf : Tracks stop f F ts)
    (hg : ∀ x rest, f ts = .ok (x, rest) → Tracks stop g (Rows F) rest) :
    Tracks stop (Reader.andMore f g) (Rows F) ts := by
  refine hf.bind (fun ks hks => ⟨[], Rows.nil.cons hks⟩) ?_
  intro x rest hx ks hks
  have hrows : ∀ more, Rows F more → Rows F (ks ++ (more ++ [])) := by
    intro more hmore
    rw [List.append_nil]
    exact hmore.cons hks
  dsimp only
  refine (hg x rest hx).bind (fun more hmore => ⟨[], hrows more hmore⟩) ?_
  exact fun xs _ _ more hmore => pure (x :: xs) (hrows more hmore)

end Tracks

/-- Expressions of fewer than `n` tokens are read along the grammar. -/
def ExprsTracked (stop : Span) (n : Nat) : Prop :=
  ∀ ⦃ts : List Token⦄, ts.length < n → ∀ layer : Layer,
    Tracks stop (fun ts => run (expr stop layer.power ts)) (IsExpr layer) ts

theorem tracks_operand (hexprs : ExprsTracked stop n) {ts : List Token} (hlen : ts.length ≤ n) :
    Tracks stop (fun ts => run (operand stop ts)) (IsExpr .factor) ts := by
  have hname : IsExpr .factor [.identifier] := .name
  cases ts with
  | nil => exact .congr_nil (run_operand_nil stop) (.fail (blames_nil (by simp)) ⟨_, hname⟩)
  | cons t ts =>
    cases hlit : t.literal? with
    | some v =>
      have hliteral : IsExpr .factor [t.kind] := by
        apply IsExpr.literal
        unfold Token.literal? at hlit
        split at hlit <;> simp_all [Grammar.literalKinds]
      refine .take (fun us => ?_) (.pure (.literal v t.span ()) hliteral)
      rw [run_operand_cons, hlit]
    | none =>
      have hrun := run_operand_cons stop t
      rw [hlit] at hrun
      by_cases hident : t.kind = .identifier
      · refine .take (fun us => ?_) (.pure (.name ⟨t.text, t.span⟩ t.span ()) (by rwa [hident]))
        rw [hrun, if_pos hident]
      · by_cases hparen : t.kind = .lparen
        · refine .take (fun us => (hrun us).trans ((if_neg hident).trans (if_pos hparen))) ?_
          rw [hparen]
          refine (hexprs hlen .comparison).bind ?_ ?_
          · exact fun ks hks => ⟨_, .group hks⟩
          · intro e rest _ ks hks
            exact .expect ⟨_, .group hks⟩ fun close _ _ => .pure _ (.group hks)
        · exact .congr_cons (fun us => (hrun us).trans ((if_neg hident).trans (if_neg hparen)))
            (.fail (blames_cons (by simp) t ts) ⟨_, hname⟩)

theorem tracks_operators (hexprs : ExprsTracked stop n) {layer : Layer} {before : List Kind}
    (hbefore : IsExpr layer before) (lhs : Expr Unit) {ts : List Token} (hlen : ts.length ≤ n) :
    Tracks stop (fun ts => run (operators stop layer.power lhs ts))
      (fun ks => IsExpr layer (before ++ ks)) ts := by
  obtain ⟨m, hm⟩ : ∃ m, ts.length = m := ⟨_, rfl⟩
  induction m using Nat.strongRecOn generalizing before lhs ts with
  | _ m ih =>
    have hdone : ∀ ts, Tracks stop (fun ts => .ok (lhs, ts))
        (fun ks => IsExpr layer (before ++ ks)) ts := by
      intro ts
      exact .pure lhs (by rwa [List.append_nil])
    cases ts with
    | nil => exact .congr_nil (run_operators_nil stop _ lhs) (hdone [])
    | cons t ts =>
      have hrun := run_operators_cons stop layer.power lhs t
      cases hop : t.kind.binaryOp? with
      | none =>
        rw [hop] at hrun
        exact .congr_cons hrun (hdone _)
      | some op =>
        rw [hop] at hrun
        by_cases hpower : op.leftPower < layer.power
        · exact .congr_cons (fun us => (hrun us).trans (if_pos hpower)) (hdone _)
        · rw [List.length_cons] at hlen hm
          have hextend : ∀ ks, IsExpr (operandLayer op) ks →
              IsExpr layer (before ++ t.kind :: ks) :=
            fun ks hks => hbefore.extend hop hpower hks
          refine .take (fun us => (hrun us).trans (if_neg hpower)) ?_
          rw [Grammar.rightPower_eq op]
          refine (hexprs hlen (operandLayer op)).bind ?_ ?_
          · exact fun ks hks => ⟨[], by simpa using hextend ks hks⟩
          · intro rhs rest hrhs ks hks
            have hlt := length_lt_of_run hrhs
            have hmore := ih rest.length (by omega) (hextend ks hks)
              (.binary op lhs rhs (lhs.span.join rhs.span) ()) (by omega) rfl
            simpa using hmore

theorem exprsTracked (stop : Span) (n : Nat) : ExprsTracked stop n := by
  induction n with
  | zero => exact fun ts hlen => absurd hlen (Nat.not_lt_zero _)
  | succ n ih =>
    intro ts hlen layer
    have hlen' : ts.length ≤ n := Nat.le_of_lt_succ hlen
    rw [funext (run_expr stop layer.power)]
    refine (tracks_operand ih hlen').bind ?_ ?_
    · exact fun ks hks => ⟨[], by simpa using hks.of_factor layer⟩
    · intro lhs rest hlhs ks hks
      have hlt := length_lt_of_run hlhs
      exact tracks_operators ih (hks.of_factor layer) lhs (by omega)

theorem tracks_expr (stop : Span) (ts : List Token) :
    Tracks stop (fun ts => run (expr stop 0 ts)) (IsExpr .comparison) ts :=
  exprsTracked stop (ts.length + 1) (Nat.lt_succ_self _) .comparison

/-- Statements of fewer than `n` tokens are read along the grammar. -/
def StmtsTracked (stop : Span) (n : Nat) : Prop :=
  ∀ ⦃ts : List Token⦄, ts.length < n → Tracks stop (fun ts => run (stmt stop ts)) IsStmt ts

theorem tracks_stmts (hstmts : StmtsTracked stop n) {ts : List Token} (hlen : ts.length < n) :
    Tracks stop (fun ts => run (stmts stop ts)) (Rows IsStmt) ts := by
  obtain ⟨m, hm⟩ : ∃ m, ts.length = m := ⟨_, rfl⟩
  induction m using Nat.strongRecOn generalizing ts with
  | _ m ih =>
    cases ts with
    | nil => exact .congr_nil (run_stmts_nil stop) (.pure [] .nil)
    | cons t ts =>
      by_cases hbrace : t.kind = .rbrace
      · exact .congr_cons (fun us => (run_stmts_cons stop t us).trans (if_pos hbrace))
          (.pure [] .nil)
      · have hround : ∀ us, run (stmts stop (t :: us)) = Reader.andMore
            (fun ts => run (stmt stop ts)) (fun ts => run (stmts stop ts)) (t :: us) :=
          fun us => (run_stmts_cons stop t us).trans (if_neg hbrace)
        refine .congr_cons hround (.andMore (hstmts hlen) fun s rest hs => ?_)
        have hlt := length_lt_of_run hs
        exact ih rest.length (by omega) (by omega) rfl

/-- What may follow the first arm of a conditional. -/
inductive IsOtherwise : List Kind → Prop where
  | none : IsOtherwise []
  | arm {ks : List Kind} (h : IsStmt ks) : IsOtherwise (.elseKw :: ks)

theorem tracks_otherwise (hstmts : StmtsTracked stop n) {ts : List Token} (hlen : ts.length ≤ n) :
    Tracks stop (fun ts => run (otherwise stop ts)) IsOtherwise ts := by
  cases ts with
  | nil => exact .congr_nil (run_otherwise_nil stop) (.pure none .none)
  | cons t ts =>
    have hrun := run_otherwise_cons stop t
    by_cases helse : t.kind = .elseKw
    · refine .take (fun us => (hrun us).trans (if_pos helse)) ?_
      rw [helse]
      refine (hstmts hlen).bind (fun ks hks => ⟨[], ?_⟩) fun arm _ _ ks hks => .pure _ ?_
      all_goals
        rw [List.append_nil]
        exact .arm hks
    · exact .congr_cons (fun us => (hrun us).trans (if_neg helse)) (.pure none .none)

/-- Some expression: every start of a statement can be completed with it. -/
theorem isExpr_name : IsExpr .comparison [.identifier] := IsExpr.name.of_factor _

theorem tracks_ident (ts : List Token) :
    Tracks stop (fun ts => run (ident stop ts)) (· = [.identifier]) ts := by
  rw [funext (run_ident stop)]
  exact .expect ⟨[], rfl⟩ fun _ _ _ => .pure _ rfl

theorem tracks_declare {t : Token} {ty : Ty} (ht : t.kind.ty? = some ty) (ts : List Token) :
    Tracks stop (fun ts => run (stmt stop ts)) IsStmt (t :: ts) := by
  have hty := Grammar.mem_typeKinds_of_ty? ht
  refine .take (run_stmt_declare stop ht) ?_
  refine (tracks_ident ts).bind ?_ ?_
  · rintro _ rfl
    exact ⟨_, .declare hty isExpr_name⟩
  rintro name us _ _ rfl
  refine .expect ⟨_, .declare hty isExpr_name⟩ fun _ vs _ => ?_
  refine (tracks_expr stop vs).bind (fun ks hks => ⟨_, .declare hty hks⟩) fun init _ _ ks hks => ?_
  exact .expect ⟨_, .declare hty hks⟩ fun last _ _ => .pure _ (.declare hty hks)

theorem tracks_print {t : Token} (ht : t.kind = .sayKw) (ts : List Token) :
    Tracks stop (fun ts => run (stmt stop ts)) IsStmt (t :: ts) := by
  refine .take (run_stmt_print stop ht) ?_
  rw [ht]
  refine (tracks_expr stop ts).bind (fun ks hks => ⟨_, .print hks⟩) fun value _ _ ks hks => ?_
  exact .expect ⟨_, .print hks⟩ fun last _ _ => .pure _ (.print hks)

theorem tracks_if (hstmts : StmtsTracked stop n) {t : Token} (ht : t.kind = .ifKw)
    {ts : List Token} (hlen : ts.length ≤ n) :
    Tracks stop (fun ts => run (stmt stop ts)) IsStmt (t :: ts) := by
  have hprint : IsStmt [.sayKw, .identifier, .semicolon] := .print isExpr_name
  refine .take (run_stmt_if stop ht) ?_
  rw [ht]
  refine .expect ⟨_, .ifThen isExpr_name hprint⟩ fun _ us hus => ?_
  refine (tracks_expr stop us).bind (fun c hc => ⟨_, .ifThen hc hprint⟩) fun _ vs hvs c hc => ?_
  refine .expect ⟨_, .ifThen hc hprint⟩ fun _ ws hws => ?_
  have hlt := length_lt_of_run hvs
  simp only [hus, hws, List.length_cons] at hlen hlt
  refine (hstmts (by omega)).bind ?_ fun thenArm xs hxs a ha => ?_
  · exact fun a ha => ⟨[], by simpa using .ifThen hc ha⟩
  have hlt' := length_lt_of_run hxs
  have hlast : ∀ b, IsOtherwise b → IsStmt (.ifKw :: .lparen :: (c ++ .rparen :: (a ++ b))) := by
    rintro _ (_ | hb)
    · simpa using .ifThen hc ha
    · exact .ifElse hc ha hb
  refine (tracks_otherwise hstmts (by omega)).bind ?_ fun elseArm _ _ b hb => .pure _ ?_
  · exact fun b hb => ⟨[], by simpa using hlast b hb⟩
  · simpa using hlast b hb

theorem tracks_block (hstmts : StmtsTracked stop n) {t : Token} (ht : t.kind = .lbrace)
    {ts : List Token} (hlen : ts.length < n) :
    Tracks stop (fun ts => run (stmt stop ts)) IsStmt (t :: ts) := by
  have hblock : ∀ ks, Rows IsStmt ks → IsStmt (.lbrace :: (ks ++ [.rbrace])) := by
    rintro _ ⟨rows, hrows, rfl⟩
    exact .block hrows
  refine .take (run_stmt_block stop ht) ?_
  rw [ht]
  refine (tracks_stmts hstmts hlen).bind (fun ks hks => ⟨_, hblock ks hks⟩) ?_
  intro body _ _ ks hks
  exact .expect ⟨_, hblock ks hks⟩ fun last _ _ => .pure _ (hblock ks hks)

theorem stmtsTracked (stop : Span) (n : Nat) : StmtsTracked stop n := by
  have hsome : IsStmt [.lbrace, .rbrace] := @IsStmt.block [] (by simp)
  induction n with
  | zero => exact fun ts hlen => absurd hlen (Nat.not_lt_zero _)
  | succ n ih =>
    intro ts hlen
    cases ts with
    | nil => exact .congr_nil (run_stmt_nil stop) (.fail (blames_nil (by simp)) ⟨_, hsome⟩)
    | cons t ts =>
      rw [List.length_cons] at hlen
      cases hstart : t.kind.startsStatement with
      | false =>
        exact .congr_cons (run_stmt_other stop hstart)
          (.fail (blames_cons (by simp) t ts) ⟨_, hsome⟩)
      | true =>
        rcases startsStatement_cases hstart with ⟨ty, ht⟩ | ht | ht | ht
        · exact tracks_declare ht ts
        · exact tracks_print ht ts
        · exact tracks_if ih ht (by omega)
        · exact tracks_block ih ht (by omega)

theorem tracks_path (ts : List Token) :
    Tracks stop (fun ts => run (path ts)) (fun ks => ∀ k ∈ ks, k ∈ pathKinds) ts := by
  have hstart : ∀ k ∈ ([] : List Kind), k ∈ pathKinds := by simp
  induction ts with
  | nil => exact .congr_nil run_path_nil (.pure [] hstart)
  | cons t ts ih =>
    by_cases hgreater : t.kind = .greater
    · exact .congr_cons (fun us => (run_path_cons t us).trans (if_pos hgreater)) (.pure [] hstart)
    · by_cases hpath : t.kind ∈ pathKinds
      · refine .take (fun us => (run_path_cons t us).trans
          ((if_neg hgreater).trans (if_pos hpath))) ?_
        have hcons : ∀ ks, (∀ k ∈ ks, k ∈ pathKinds) →
            ∀ k ∈ t.kind :: (ks ++ []), k ∈ pathKinds := by
          intro ks hks
          rw [List.append_nil]
          exact List.forall_mem_cons.mpr ⟨hpath, hks⟩
        exact ih.bind (fun ks hks => ⟨[], hcons ks hks⟩) fun _ _ _ ks hks => .pure _ (hcons ks hks)
      · have hfail : ∀ us, run (path (t :: us)) = .error (t.blame .invalidImportPath) :=
          fun us => (run_path_cons t us).trans ((if_neg hgreater).trans (if_neg hpath))
        exact .congr_cons hfail (.fail (blames_cons (by simp) t ts) ⟨[], hstart⟩)

/-- The end of a `use` line, after the mark that opens its path. -/
def lineEnd (stop : Span) (first : Token) (pieces : List String) : Reader Import := fun ts =>
  run (expect stop .greater ts) >>= fun (_, rest) =>
    run (expect stop .semicolon rest) >>= fun (last, rest) =>
      .ok (⟨String.join pieces, first.span.join last.span⟩, rest)

/-- A `use` line from its path on. -/
def fromPath (stop : Span) (first : Token) : Reader Import := fun ts =>
  run (path ts) >>= fun (pieces, after) =>
    if pieces.isEmpty then .error ⟨place stop ts, .emptyImportPath⟩
    else lineEnd stop first pieces after

/-- An empty path is found out before the mark that ends it is taken. -/
theorem fromPath_greater {t : Token} (ht : t.kind = .greater) (first : Token) (ts : List Token) :
    fromPath stop first (t :: ts) = .error ⟨t.span, .emptyImportPath⟩ := by
  rw [fromPath, run_path_cons, if_pos ht]
  rfl

theorem fromPath_piece {t : Token} (ht : t.kind ∈ pathKinds) (first : Token) (ts : List Token) :
    fromPath stop first (t :: ts) =
      run (path ts) >>= fun (pieces, after) => lineEnd stop first (t.text :: pieces) after := by
  have hgreater : t.kind ≠ .greater := fun hk => by simp [hk, pathKinds] at ht
  have hpiece : t.kind ∈ [.identifier, .int, .dot, .slash] := ht
  rw [fromPath, run_path_cons, if_neg hgreater, if_pos hpiece, bind_assoc]
  rfl

theorem fromPath_other {t : Token} (hgreater : t.kind ≠ .greater) (ht : t.kind ∉ pathKinds)
    (first : Token) (ts : List Token) :
    fromPath stop first (t :: ts) = .error (t.blame .invalidImportPath) := by
  have hpiece : t.kind ∉ [.identifier, .int, .dot, .slash] := ht
  rw [fromPath, run_path_cons, if_neg hgreater, if_neg hpiece]
  rfl

/-- Some line of this kind: every start of one can be completed to it. -/
theorem isImport_dot : IsImport [.useKw, .less, .dot, .greater, .semicolon] :=
  @IsImport.use [.dot] (by simp) (by decide)

theorem tracks_fromPath (first : Token) (ts : List Token) :
    Tracks stop (fromPath stop first) (fun ks => IsImport (.useKw :: .less :: ks)) ts := by
  cases ts with
  | nil =>
    have hnil : fromPath stop first [] = .error ⟨stop, .emptyImportPath⟩ := rfl
    exact .congr_nil hnil (.fail (blames_nil (by simp)) ⟨_, isImport_dot⟩)
  | cons t ts =>
    by_cases hgreater : t.kind = .greater
    · have hblames : Blames stop ⟨t.span, .emptyImportPath⟩ (t :: ts) := ⟨rfl, by simp [hgreater]⟩
      exact .congr_cons (fromPath_greater hgreater first) (.fail hblames ⟨_, isImport_dot⟩)
    · by_cases hpath : t.kind ∈ pathKinds
      · have huse : ∀ ks, (∀ k ∈ ks, k ∈ pathKinds) →
            IsImport (.useKw :: .less :: t.kind :: (ks ++ [.greater, .semicolon])) := by
          intro ks hks
          exact @IsImport.use (t.kind :: ks) (by simp) (List.forall_mem_cons.mpr ⟨hpath, hks⟩)
        refine .take (fromPath_piece hpath first) ?_
        refine (tracks_path ts).bind (fun ks hks => ⟨_, huse ks hks⟩) fun pieces _ _ ks hks => ?_
        refine .expect ⟨_, huse ks hks⟩ fun _ _ _ => ?_
        exact .expect ⟨_, huse ks hks⟩ fun last _ _ => .pure _ (huse ks hks)
      · exact .congr_cons (fromPath_other hgreater hpath first)
          (.fail (blames_cons (by simp) t ts) ⟨_, isImport_dot⟩)

theorem tracks_import (ts : List Token) :
    Tracks stop (fun ts => run («import» stop ts)) IsImport ts := by
  rw [funext (run_import stop)]
  refine .expect ⟨_, isImport_dot⟩ fun first _ _ => ?_
  exact .expect ⟨_, isImport_dot⟩ fun _ us _ => tracks_fromPath first us

theorem tracks_imports (ts : List Token) :
    Tracks stop (fun ts => run (imports stop ts)) (Rows IsImport) ts := by
  obtain ⟨m, hm⟩ : ∃ m, ts.length = m := ⟨_, rfl⟩
  induction m using Nat.strongRecOn generalizing ts with
  | _ m ih =>
    cases ts with
    | nil => exact .congr_nil (run_imports_nil stop) (.pure [] .nil)
    | cons t ts =>
      by_cases huse : t.kind = .useKw
      · have hround : ∀ us, run (imports stop (t :: us)) = Reader.andMore
            (fun ts => run («import» stop ts)) (fun ts => run (imports stop ts)) (t :: us) :=
          fun us => (run_imports_cons stop t us).trans (if_pos huse)
        refine .congr_cons hround (.andMore (tracks_import (t :: ts)) fun i rest hi => ?_)
        have hlt := length_lt_of_run hi
        exact ih rest.length (by omega) rest rfl
      · exact .congr_cons (fun us => (run_imports_cons stop t us).trans (if_neg huse))
          (.pure [] .nil)

/-- The statements of a program take all tokens. -/
theorem tracks_body (ts : List Token) :
    Tracks stop (fun ts => body stop ts >>= fun ss => .ok (ss, [])) (Rows IsStmt) ts := by
  obtain ⟨m, hm⟩ : ∃ m, ts.length = m := ⟨_, rfl⟩
  induction m using Nat.strongRecOn generalizing ts with
  | _ m ih =>
    cases ts with
    | nil =>
      refine .congr_nil ?_ (.pure [] .nil)
      rw [body_nil]
      rfl
    | cons t ts =>
      cases hstart : t.kind.startsStatement with
      | false =>
        have hfail : ∀ us, (body stop (t :: us) >>= fun ss => .ok (ss, [])) =
            (.error (t.blame .unexpectedTopLevel) : Except _ (List (Stmt Unit) × List Token)) := by
          intro us
          rw [body_cons, hstart]
          rfl
        exact .congr_cons hfail (.fail (blames_cons (by simp) t ts) ⟨_, .nil⟩)
      | true =>
        have hround : ∀ us, (body stop (t :: us) >>= fun ss => .ok (ss, [])) =
            Reader.andMore (fun ts => run (stmt stop ts))
              (fun ts => body stop ts >>= fun ss => .ok (ss, [])) (t :: us) := by
          intro us
          simp only [Reader.andMore, body_cons, hstart, if_true, bind_assoc, Except.ok_bind]
        have hstmt := stmtsTracked stop _ (Nat.lt_succ_self (t :: ts).length)
        refine .congr_cons hround (.andMore hstmt fun s rest hs => ?_)
        have hlt := length_lt_of_run hs
        exact ih rest.length (by omega) rest rfl

end Reading

namespace Lexed
open Grammar (IsProgram IsImport IsStmt Rows)

theorem kind_ne_eof_of_mem {src : String} {t : Token} (h : t ∈ (ofSource src).tokens) :
    t.kind ≠ .eof := by
  obtain ⟨c, more, lo, rfl⟩ := exists_scan_of_mem_ofChars h
  exact (Lexeme.front_scan c more).kind_ne_eof

/-- A program is imports and then statements, up to the last token. -/
theorem tracks_program (l : Lexed) :
    Reading.Tracks l.stopSpan (fun ts => { l with tokens := ts }.program >>= fun p => .ok (p, []))
      IsProgram l.tokens := by
  have hprogram : ∀ is ss, Rows IsImport is → Rows IsStmt ss → IsProgram (is ++ ss) := by
    rintro _ _ ⟨is, his, rfl⟩ ⟨ss, hss, rfl⟩
    exact .mk his hss
  have hsteps : ∀ ts, ({ l with tokens := ts }.program >>= fun p => .ok (p, [])) =
      Reading.run (Reading.imports l.stopSpan ts) >>= fun x =>
        (Reading.body l.stopSpan x.2 >>= fun ss => .ok (ss, [])) >>= fun y =>
          (.ok (⟨x.1, y.1⟩, y.2) : Except _ (Program Unit × List Token)) := by
    intro ts
    simp only [program_eq, bind_assoc, Except.ok_bind]
    rfl
  rw [funext hsteps]
  refine (Reading.tracks_imports l.tokens).bind (fun is his => ⟨_, hprogram is [] his .nil⟩) ?_
  intro imports rest _ is his
  dsimp only
  refine (Reading.tracks_body rest).bind (fun ss hss => ⟨[], ?_⟩) fun body _ _ ss hss =>
    .pure (Program.mk imports body) ?_
  all_goals
    rw [List.append_nil]
    exact hprogram is ss his hss

/-- A reading that fails blames the next token after the start of a program, and fails whatever
comes after that token. -/
theorem exists_blamed {l : Lexed} {e : Spanned ParseError} (h : l.program = .error e) :
    ∃ used rest, l.tokens = used ++ rest ∧ Reading.Blames l.stopSpan e rest ∧
      (∃ more, IsProgram (used.map Token.kind ++ more)) ∧
      ∀ rest', rest'.head? = rest.head? →
        { l with tokens := used ++ rest' }.program = .error e := by
  have herror : ∀ {x : Except (Spanned ParseError) (Program Unit)},
      (x >>= fun p => .ok (p, ([] : List Token))) = .error e ↔ x = .error e :=
    Except.bind_pure_eq_error_iff
  obtain ⟨used, rest, hsplit, hblames, hstart, hlocal⟩ := l.tracks_program.error (herror.mpr h)
  exact ⟨used, rest, hsplit, hblames, hstart, fun rest' hrest => herror.mp (hlocal rest' hrest)⟩

theorem exists_program_of_isProgram {l : Lexed} (h : IsProgram (l.tokens.map Token.kind))
    (hfit : ∀ t ∈ l.tokens, t.ValueFits) : ∃ p, l.program = .ok p := by
  obtain ⟨d, hd, hnear⟩ := Grammar.exists_spellsProgram h hfit
  obtain ⟨p, hp, -⟩ := exists_program hd hnear
  exact ⟨p, hp⟩

/-- A token after which every reading fails is not in a program. -/
theorem not_prefix_of_fails {l : Lexed} {used : List Token} {t : Token} {e : Spanned ParseError}
    (hfit : ∀ u ∈ used ++ [t], u.ValueFits)
    (hfails : ∀ after, { l with tokens := used ++ t :: after }.program = .error e)
    {p : List Token.Kind} (hp : IsProgram p) : ¬ (used ++ [t]).map Token.kind <+: p := by
  rintro ⟨more, rfl⟩
  obtain ⟨after, rfl, hafter⟩ := Grammar.exists_tokens more
  have hfits : ∀ u ∈ used ++ t :: after, u.ValueFits := by
    rw [List.append_cons]
    exact List.forall_mem_append.mpr ⟨hfit, hafter⟩
  have hkinds : IsProgram ((used ++ t :: after).map Token.kind) := by simpa using hp
  obtain ⟨q, hq⟩ :=
    exists_program_of_isProgram (l := { l with tokens := used ++ t :: after }) hkinds hfits
  rw [hfails after] at hq
  cases hq

/-- Reading fails at the first token that no program has in its place: the tokens before it are the
start of a program, and together with it they are not. -/
theorem program_error_at_first_impossible_token (src : String) (e : Spanned ParseError)
    (h : (ofSource src).program = .error e) :
    ∃ before t after, (ofSource src).all = before ++ t :: after ∧ e.span = t.span ∧
      (∃ p, IsProgram p ∧ before.map Token.kind <+: p) ∧
      (¬ ∃ p, IsProgram p ∧ (before ++ [t]).map Token.kind <+: p ++ [.eof]) ∧
      (e.value = .unknownToken ↔ t.kind = .unknown) := by
  obtain ⟨before, rest, hsplit, hblames, ⟨more, hstart⟩, hfails⟩ := exists_blamed h
  have hbefore : ∃ p, IsProgram p ∧ before.map Token.kind <+: p :=
    ⟨_, hstart, List.prefix_append _ _⟩
  have hfit : ∀ t ∈ before ++ rest, t.ValueFits := fun t ht => valueFits_of_mem (hsplit ▸ ht)
  cases rest with
  | nil =>
    -- The end is blamed: all tokens are the start of a program, but no program.
    rw [List.append_nil] at hsplit hfit
    refine ⟨before, .eof (ofSource src).stop, [], by rw [all, hsplit], hblames.span, hbefore,
      ?_, ?_⟩
    · rintro ⟨p, hp, hstarts⟩
      rw [List.map_append, List.prefix_concat_iff] at hstarts
      rcases hstarts with heq | hstarts
      · obtain rfl := List.append_cancel_right heq
        obtain ⟨q, hq⟩ := exists_program_of_isProgram (hsplit ▸ hp) (hsplit ▸ hfit)
        rw [h] at hq
        cases hq
      · exact hp.eof_not_mem (hstarts.subset (by simp [Token.eof]))
    · simpa [Token.eof] using hblames.unknown
  | cons t after =>
    have ht : t ∈ (ofSource src).tokens := by simp [hsplit]
    refine ⟨before, t, after ++ [.eof (ofSource src).stop], by simp [all, hsplit], hblames.span,
      hbefore, ?_, by simpa using hblames.unknown⟩
    rintro ⟨p, hp, hstarts⟩
    rw [List.prefix_concat_iff] at hstarts
    rcases hstarts with heq | hstarts
    · have hlast := congrArg List.getLast? heq
      simp only [List.map_append, List.map_cons, List.map_nil, List.getLast?_concat,
        Option.some.injEq] at hlast
      exact kind_ne_eof_of_mem ht hlast
    · refine not_prefix_of_fails (l := ofSource src) ?_ (fun after => hfails _ rfl) hp hstarts
      rw [List.append_cons, List.forall_mem_append] at hfit
      exact hfit.1

theorem program_error_at_first_impossible_token_empty_path :
    ∃ e, (ofSource "use <>; says 1;").program = .error e ∧ e.value = .emptyImportPath ∧
      ∃ before t after, (ofSource "use <>; says 1;").all = before ++ t :: after ∧
        e.span = t.span ∧
        (∃ p, IsProgram p ∧ before.map Token.kind <+: p) ∧
        (¬ ∃ p, IsProgram p ∧ (before ++ [t]).map Token.kind <+: p ++ [.eof]) ∧
        (e.value = .unknownToken ↔ t.kind = .unknown) := by
  have hrun : ((ofSource "use <>; says 1;").program >>= fun _ => pure ()) =
      .error ⟨.ofBounds 5 6, .emptyImportPath⟩ := by
    decide +kernel
  have herror := Except.bind_pure_eq_error_iff.mp hrun
  exact ⟨_, herror, rfl, program_error_at_first_impossible_token _ _ herror⟩

end Lexed
end HumanScript
