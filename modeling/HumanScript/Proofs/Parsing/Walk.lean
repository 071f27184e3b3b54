import HumanScript.Proofs.Reading

/-! Tokens read by a cursor that walks over them. Nothing in a walk makes it end by itself: a loop
goes round as long as the next token wants it, and the cursor stays where it is at the last token.
So each walk comes with a limit, on the rounds of each of its loops and on how deep it is nested,
and has no outcome if it is cut off there. -/
namespace HumanScript

/-- Tokens that end in their only one of kind `eof`. -/
structure Tape where
  front : List Token
  last : Token
  kind_last : last.kind = .eof
  kind_front : ∀ t ∈ front, t.kind ≠ .eof

namespace Tape

def all (tape : Tape) : List Token := tape.front ++ [tape.last]

/-- The place of the last token. -/
def size (tape : Tape) : Nat := tape.front.length

/-- The tokens from a place on, without the last one. -/
def rest (tape : Tape) (i : Nat) : List Token := tape.front.drop i

/-- How many tokens there are from a place on, without the last one. -/
def left (tape : Tape) (i : Nat) : Nat := (tape.rest i).length

/-- The token at a place; from the end on, the last one. -/
def look (tape : Tape) (i : Nat) : Token := tape.all[i]?.getD tape.last

variable {tape : Tape} {i j : Nat} {t : Token} {ts : List Token}

theorem rest_eq_nil (h : tape.size ≤ i) : tape.rest i = [] := List.drop_eq_nil_of_le h

theorem lt_size (h : tape.rest i = t :: ts) : i < tape.size := by
  by_contra hle
  rw [rest_eq_nil (by omega)] at h
  cases h

theorem rest_succ (h : tape.rest i = t :: ts) : tape.rest (i + 1) = ts := by
  rw [rest, ← List.drop_drop, ← rest, h]
  rfl

theorem left_eq_succ (h : tape.rest i = t :: ts) : tape.left i = tape.left (i + 1) + 1 := by
  rw [left, left, rest_succ h, h, List.length_cons]

/-- Further on there is not more left. -/
theorem left_le_left (h : i ≤ j) : tape.left j ≤ tape.left i := by
  simp only [left, rest, List.length_drop]
  omega

theorem look_of_nil (h : tape.rest i = []) : tape.look i = tape.last := by
  have hle : tape.front.length ≤ i := List.drop_eq_nil_iff.mp h
  rw [look, all, List.getElem?_append_right hle]
  cases i - tape.front.length <;> rfl

theorem look_of_cons (h : tape.rest i = t :: ts) : tape.look i = t := by
  have hhead : tape.front[i]? = some t := by
    rw [← List.head?_drop, ← rest, h]
    rfl
  rw [look, all, List.getElem?_append_left (lt_size h), hhead]
  rfl

theorem span_look (tape : Tape) (i : Nat) :
    (tape.look i).span = Reading.place tape.last.span (tape.rest i) := by
  cases hrest : tape.rest i with
  | nil => rw [look_of_nil hrest, Reading.place]
  | cons t ts => rw [look_of_cons hrest, Reading.place]

theorem kind_of_cons (h : tape.rest i = t :: ts) : t.kind ≠ .eof := by
  have hmem : t ∈ tape.rest i := by simp [h]
  exact tape.kind_front t (List.mem_of_mem_drop hmem)

end Tape

/-- Reading with a cursor: a value or an error, and where the cursor is left; or nothing, if the
walk is cut off. -/
abbrev Walk := ExceptT (Spanned ParseError) (StateT Nat Option)

namespace Walk
variable {α β σ : Type}

/-- What becomes of a walk from a place. -/
def outcome (walk : Walk α) (i : Nat) : Option (Except (Spanned ParseError) α × Nat) :=
  (ExceptT.run walk).run i

def cutOff : Walk α := ExceptT.lift (StateT.lift none)

section Definitions
variable (tape : Tape)

def peek : Walk Token := do return tape.look (← get)

/-- Takes the next token. The last one is never passed. -/
def advance : Walk Token := do
  let t ← peek tape
  if t.kind ≠ .eof then modify (· + 1)
  return t

/-- Takes the next token if it is of a kind, and tells whether it is. -/
def take (kind : Token.Kind) : Walk Bool := do
  if (← peek tape).kind = kind then
    let _ ← advance tape
    return true
  else return false

def expect (kind : Token.Kind) : Walk Token := do
  let t ← peek tape
  if t.kind = kind then advance tape else throw (t.blame (.unexpected · kind))

/-- Goes round as long as the next token wants it, so many times at most. -/
def repeatWhile (more : Token → Bool) (round : σ → Walk σ) : (rounds : Nat) → σ → Walk σ
  | 0, s => do if more (← peek tape) then cutOff else return s
  | rounds + 1, s => do
    if more (← peek tape) then repeatWhile more round rounds (← round s) else return s

/-- One item a round. -/
def collect (more : Token → Bool) (item : Walk α) (rounds : Nat) : Walk (List α) :=
  repeatWhile tape more (fun items => do return items ++ [← item]) rounds []

/-- How many rounds a loop that starts here may take: as many as there are tokens left. -/
def allowance : Walk Nat := do return tape.left (← get)

def ident : Walk Ident := do
  let t ← expect tape .identifier
  return ⟨t.text, t.span⟩

/-- A literal, a name, or an `inner` expression in parentheses. -/
def operand (inner : Walk (Expr Unit)) : Walk (Expr Unit) := do
  let t ← advance tape
  match t.literal? with
  | some value => return .literal value t.span ()
  | none =>
    if t.kind = .identifier then return .name ⟨t.text, t.span⟩ t.span ()
    else if t.kind = .lparen then
      let e ← inner
      let close ← expect tape .rparen
      return e.withSpan (t.span.join close.span)
    else throw (t.blame .unexpectedInExpr)

/-- An operator that holds at least as strongly as `power`. -/
def isOperator (power : Nat) (t : Token) : Bool := t.kind.binaryOp?.any (power ≤ ·.leftPower)

/-- One operator, and its right operand by `inner`. -/
def operator (inner : Nat → Walk (Expr Unit)) (lhs : Expr Unit) : Walk (Expr Unit) := do
  let some op := (← advance tape).kind.binaryOp? | return lhs
  let rhs ← inner op.rightPower
  return .binary op lhs rhs (lhs.span.join rhs.span) ()

/-- The operators and operands that follow `lhs`. -/
def operators (inner : Nat → Walk (Expr Unit)) (power rounds : Nat) (lhs : Expr Unit) :
    Walk (Expr Unit) := repeatWhile tape (isOperator power) (operator tape inner) rounds lhs

/-- An expression, nested less deep than `depth`. -/
def expr : (depth power : Nat) → Walk (Expr Unit)
  | 0, _ => cutOff
  | depth + 1, power => do
    let lhs ← operand tape (expr depth 0)
    operators tape (expr depth) power (← allowance tape) lhs

/-- The statements up to a closing brace or the end. -/
def block (inner : Walk (Stmt Unit)) (rounds : Nat) : Walk (List (Stmt Unit)) :=
  collect tape (fun t => t.kind ≠ .rbrace ∧ t.kind ≠ .eof) inner rounds

/-- The second arm of a conditional, if there is one. -/
def otherwise (inner : Walk (Stmt Unit)) : Walk (Option (Stmt Unit)) := do
  if ← take tape .elseKw then return some (← inner) else return none

/-- A declaration that starts with the type word `t`. -/
def declaration (t : Token) (ty : Ty) (inner : Walk (Expr Unit)) : Walk (Stmt Unit) := do
  let name ← ident tape
  let _ ← expect tape .colonEq
  let init ← inner
  let last ← expect tape .semicolon
  return .declare ty name init (t.span.join last.span)

def printing (t : Token) (inner : Walk (Expr Unit)) : Walk (Stmt Unit) := do
  let value ← inner
  let last ← expect tape .semicolon
  return .print value (t.span.join last.span)

def conditional (t : Token) (inner : Walk (Expr Unit)) (arm : Walk (Stmt Unit)) :
    Walk (Stmt Unit) := do
  let _ ← expect tape .lparen
  let condition ← inner
  let _ ← expect tape .rparen
  let thenArm ← arm
  match ← otherwise tape arm with
  | some elseArm => return .ifElse condition thenArm elseArm (t.span.join elseArm.span)
  | none => return .ifThen condition thenArm (t.span.join thenArm.span)

def braces (t : Token) (inner : Walk (Stmt Unit)) : Walk (Stmt Unit) := do
  let body ← block tape inner (← allowance tape)
  let last ← expect tape .rbrace
  return .block body (t.span.join last.span)

/-- A statement, nested less deep than `depth`. -/
def stmt : (depth : Nat) → Walk (Stmt Unit)
  | 0 => cutOff
  | depth + 1 => do
    let t ← advance tape
    match t.kind.ty? with
    | some ty => declaration tape t ty (expr tape depth 0)
    | none =>
      if t.kind = .sayKw then printing tape t (expr tape depth 0)
      else if t.kind = .ifKw then conditional tape t (expr tape depth 0) (stmt depth)
      else if t.kind = .lbrace then braces tape t (stmt depth)
      else throw (t.blame .unexpectedStatement)

/-- One piece of a header name. -/
def piece : Walk String := do
  let t ← advance tape
  if t.kind ∈ [.identifier, .int, .dot, .slash] then return t.text
  else throw (t.blame .invalidImportPath)

/-- The pieces of a header name, up to a closing mark or the end. -/
def path (rounds : Nat) : Walk (List String) :=
  collect tape (fun t => t.kind ≠ .greater ∧ t.kind ≠ .eof) (piece tape) rounds

def «import» : Walk Import := do
  let first ← expect tape .useKw
  let _ ← expect tape .less
  let start ← peek tape
  let pieces ← path tape (← allowance tape)
  if pieces.isEmpty then throw ⟨start.span, .emptyImportPath⟩
  else
    let _ ← expect tape .greater
    let last ← expect tape .semicolon
    return ⟨String.join pieces, first.span.join last.span⟩

/-- The `use` lines at the front. -/
def imports (rounds : Nat) : Walk (List Import) :=
  collect tape (fun t => t.kind = .useKw) («import» tape) rounds

/-- A statement of a program that is in no other. -/
def topLevel (depth : Nat) : Walk (Stmt Unit) := do
  let t ← peek tape
  if t.kind.startsStatement then stmt tape depth else throw (t.blame .unexpectedTopLevel)

/-- The statements of a whole program, up to the end. -/
def body (depth rounds : Nat) : Walk (List (Stmt Unit)) :=
  collect tape (fun t => t.kind ≠ .eof) (topLevel tape depth) rounds

def program (depth : Nat) : Walk (Program Unit) := do
  let imports ← imports tape (← allowance tape)
  let body ← body tape depth (← allowance tape)
  return ⟨imports, body⟩

end Definitions

section Outcomes
variable {tape : Tape} {i j : Nat} {t : Token} {ts : List Token} {e : Spanned ParseError} {a : α}
  {walk : Walk α}

@[simp] theorem outcome_pure (a : α) (i : Nat) : outcome (pure a) i = some (.ok a, i) := rfl

@[simp] theorem outcome_throw (e : Spanned ParseError) (i : Nat) :
    outcome (throw e : Walk α) i = some (.error e, i) := rfl

theorem outcome_bind_ok (h : walk.outcome i = some (.ok a, j)) (f : α → Walk β) :
    outcome (walk >>= f) i = (f a).outcome j := by
  unfold outcome at *
  rw [ExceptT.run_bind, StateT.run_bind, h]
  rfl

theorem outcome_bind_error (h : walk.outcome i = some (.error e, j)) (f : α → Walk β) :
    outcome (walk >>= f) i = some (.error e, j) := by
  unfold outcome at *
  rw [ExceptT.run_bind, StateT.run_bind, h]
  rfl

theorem outcome_peek (tape : Tape) (i : Nat) :
    (peek tape).outcome i = some (.ok (tape.look i), i) := rfl

theorem outcome_allowance (tape : Tape) (i : Nat) :
    (allowance tape).outcome i = some (.ok (tape.left i), i) := rfl

theorem outcome_advance_of_cons (h : tape.rest i = t :: ts) :
    (advance tape).outcome i = some (.ok t, i + 1) := by
  rw [advance, outcome_bind_ok (outcome_peek tape i), Tape.look_of_cons h,
    if_pos (Tape.kind_of_cons h)]
  rfl

theorem outcome_advance_of_nil (h : tape.rest i = []) :
    (advance tape).outcome i = some (.ok tape.last, i) := by
  rw [advance, outcome_bind_ok (outcome_peek tape i), Tape.look_of_nil h,
    if_neg (by simp [tape.kind_last])]
  rfl

theorem outcome_take {kind : Token.Kind} (h : tape.rest i = t :: ts) (hkind : t.kind = kind) :
    (take tape kind).outcome i = some (.ok true, i + 1) := by
  rw [take, outcome_bind_ok (outcome_peek tape i), Tape.look_of_cons h, if_pos hkind,
    outcome_bind_ok (outcome_advance_of_cons h)]
  rfl

theorem outcome_take_other {kind : Token.Kind} (h : (tape.look i).kind ≠ kind) :
    (take tape kind).outcome i = some (.ok false, i) := by
  rw [take, outcome_bind_ok (outcome_peek tape i), if_neg h]
  rfl

end Outcomes

/-- A walk from a place ends, and as `reading` does: with a value, and so many tokens or more
passed, or with an error. Either way the cursor is not past the last token. -/
inductive Ends (tape : Tape) (least : Nat) (walk : Walk α) (i : Nat) :
    (reading : Except (Spanned ParseError) (α × List Token)) → Prop where
  | ok {a : α} {j : Nat} (hwalk : walk.outcome i = some (.ok a, j)) (hleast : i + least ≤ j)
      (hsize : j ≤ tape.size) : Ends tape least walk i (.ok (a, tape.rest j))
  | error {e : Spanned ParseError} {j : Nat} (hwalk : walk.outcome i = some (.error e, j))
      (hle : i ≤ j) (hsize : j ≤ tape.size) : Ends tape least walk i (.error e)

namespace Ends
variable {tape : Tape} {i k m n rounds : Nat} {walk : Walk α} {f : Token → Walk α}
  {reading : Except (Spanned ParseError) (α × List Token)} {t : Token} {ts : List Token}

theorem mono (h : Ends tape k walk i reading) (hm : m ≤ k) : Ends tape m walk i reading := by
  cases h with
  | ok hwalk hleast hsize => exact .ok hwalk (by omega) hsize
  | error hwalk hle hsize => exact .error hwalk hle hsize

theorem pure (hi : i ≤ tape.size) (a : α) : Ends tape 0 (pure a) i (.ok (a, tape.rest i)) :=
  .ok (outcome_pure a i) (Nat.le_refl i) hi

theorem throw (hi : i ≤ tape.size) (e : Spanned ParseError) :
    Ends tape k (throw e : Walk α) i (.error e) :=
  .error (outcome_throw e i) (Nat.le_refl i) hi

/-- A first step that finds a value. -/
theorem step {first : Walk β} {b : β} {j : Nat} {f : β → Walk α}
    (hfirst : first.outcome i = some (.ok b, j)) (hj : i + m ≤ j)
    (h : Ends tape k (f b) j reading) : Ends tape (m + k) (first >>= f) i reading := by
  have hstep := outcome_bind_ok hfirst f
  cases h with
  | ok hwalk hleast hsize => exact .ok (hstep.trans hwalk) (by omega) hsize
  | error hwalk hle hsize => exact .error (hstep.trans hwalk) (by omega) hsize

/-- What two walks pass adds up. -/
theorem bind {f : α → Walk β} {g : α × List Token → Except (Spanned ParseError) (β × List Token)}
    (h : Ends tape k walk i reading)
    (hf : ∀ a j, i + k ≤ j → j ≤ tape.size → Ends tape m (f a) j (g (a, tape.rest j))) :
    Ends tape (k + m) (walk >>= f) i (reading >>= g) := by
  cases h with
  | ok hwalk hleast hsize => exact step hwalk hleast (hf _ _ hleast hsize)
  | error hwalk hle hsize => exact .error (outcome_bind_error hwalk f) hle hsize

/-- Two walks, whatever they pass. -/
theorem andThen {f : α → Walk β} {g : α × List Token → Except (Spanned ParseError) (β × List Token)}
    (h : Ends tape k walk i reading)
    (hf : ∀ a j, i ≤ j → j ≤ tape.size → Ends tape 0 (f a) j (g (a, tape.rest j))) :
    Ends tape 0 (walk >>= f) i (reading >>= g) :=
  (h.mono (Nat.zero_le k)).bind fun a j hj => hf a j hj

theorem map (h : Ends tape k walk i reading) (f : α → β) :
    Ends tape k (walk >>= fun a => Pure.pure (f a)) i (reading >>= fun x => .ok (f x.1, x.2)) :=
  h.bind (g := fun x => .ok (f x.1, x.2)) (m := 0) fun a _ _ hj => .pure hj (f a)

/-- A first step that leaves the cursor where it is. -/
theorem skip {first : Walk β} {b : β} {f : β → Walk α} (hfirst : first.outcome i = some (.ok b, i))
    (h : Ends tape k (f b) i reading) : Ends tape k (first >>= f) i reading :=
  (step (m := 0) hfirst (Nat.le_refl i) h).mono (by omega)

theorem peek (h : Ends tape k (f (tape.look i)) i reading) :
    Ends tape k (Walk.peek tape >>= f) i reading := skip (outcome_peek tape i) h

theorem allowance {f : Nat → Walk α} (h : Ends tape k (f (tape.left i)) i reading) :
    Ends tape k (Walk.allowance tape >>= f) i reading := skip (outcome_allowance tape i) h

theorem advance_of_nil (hrest : tape.rest i = []) (h : Ends tape k (f tape.last) i reading) :
    Ends tape k (advance tape >>= f) i reading := skip (outcome_advance_of_nil hrest) h

theorem advance_of_cons (hrest : tape.rest i = t :: ts) (h : Ends tape k (f t) (i + 1) reading) :
    Ends tape (k + 1) (advance tape >>= f) i reading :=
  (step (m := 1) (outcome_advance_of_cons hrest) (Nat.le_refl _) h).mono (by omega)

/-- A loop ends, if it stops at the last token and each round passes a token. It takes no more
rounds than there are tokens left. -/
theorem repeatWhile {more : Token → Bool} {round : σ → Walk σ}
    (loop : σ → List Token → Except (Spanned ParseError) (σ × List Token))
    (hlast : more tape.last = false) (hnil : ∀ s, loop s [] = .ok (s, []))
    (hstop : ∀ s t ts, t.kind ≠ .eof → more t = false → loop s (t :: ts) = .ok (s, t :: ts))
    (hround : ∀ s i t ts, tape.rest i = t :: ts → tape.left i ≤ n → more t = true →
      ∃ reading, Ends tape 1 (round s) i reading ∧
        loop s (t :: ts) = reading >>= fun x => loop x.1 x.2)
    (hi : i ≤ tape.size) (hn : tape.left i ≤ n) (hrounds : tape.left i ≤ rounds) (s : σ) :
    Ends tape 0 (repeatWhile tape more round rounds s) i (loop s (tape.rest i)) := by
  induction rounds generalizing s i with
  | zero =>
    have hrest : tape.rest i = [] := List.length_eq_zero_iff.mp (Nat.le_zero.mp hrounds)
    have hdone := Ends.pure hi s
    rw [hrest] at hdone ⊢
    rw [hnil, Walk.repeatWhile]
    apply peek
    rwa [Tape.look_of_nil hrest, hlast]
  | succ rounds ih =>
    have hdone := Ends.pure hi s
    rw [Walk.repeatWhile]
    apply peek
    cases hrest : tape.rest i with
    | nil =>
      rw [hrest] at hdone
      rwa [Tape.look_of_nil hrest, hlast, hnil]
    | cons t ts =>
      rw [hrest] at hdone
      rw [Tape.look_of_cons hrest]
      cases hmore : more t with
      | false => rwa [hstop s t ts (Tape.kind_of_cons hrest) hmore]
      | true =>
        obtain ⟨reading, hends, hloop⟩ := hround s i t ts hrest hn hmore
        rw [hloop]
        refine (hends.bind (m := 0) fun s j hj hsize => ?_).mono (Nat.zero_le _)
        -- The round has passed a token, so one round less is enough for what is left.
        have hless : tape.left j + 1 ≤ tape.left i := by
          rw [Tape.left_eq_succ hrest]
          exact Nat.succ_le_succ (Tape.left_le_left hj)
        exact ih hsize (by omega) (by omega) s

/-- A loop that finds one item a round finds what a row of readings finds. -/
theorem collect {more : Token → Bool} {item : Walk α}
    (items : List Token → Except (Spanned ParseError) (List α × List Token))
    (hlast : more tape.last = false) (hnil : items [] = .ok ([], []))
    (hstop : ∀ t ts, t.kind ≠ .eof → more t = false → items (t :: ts) = .ok ([], t :: ts))
    (hround : ∀ i t ts, tape.rest i = t :: ts → tape.left i ≤ n → more t = true →
      ∃ reading, Ends tape 1 item i reading ∧
        items (t :: ts) = reading >>= fun x => items x.2 >>= fun y => .ok (x.1 :: y.1, y.2))
    (hi : i ≤ tape.size) (hn : tape.left i ≤ n) (hrounds : tape.left i ≤ rounds) :
    Ends tape 0 (collect tape more item rounds) i (items (tape.rest i)) := by
  have hsame : (items (tape.rest i) >>= fun y => .ok ([] ++ y.1, y.2)) = items (tape.rest i) := by
    cases items (tape.rest i) <;> rfl
  rw [← hsame]
  refine repeatWhile (fun found ts => items ts >>= fun y => .ok (found ++ y.1, y.2)) hlast
    (fun found => by simp [hnil]) (fun found t ts ht hmore => by simp [hstop t ts ht hmore])
    (fun found i t ts hrest hn hmore => ?_) hi hn hrounds []
  obtain ⟨reading, hends, hitems⟩ := hround i t ts hrest hn hmore
  refine ⟨_, hends.map (fun a => found ++ [a]), ?_⟩
  rw [hitems]
  cases reading with
  | error e => rfl
  | ok x =>
    change (items x.2 >>= fun y => .ok (x.1 :: y.1, y.2)) >>= _ = items x.2 >>= _
    cases items x.2 with
    | error e => rfl
    | ok y => simp

end Ends

end Walk
end HumanScript
