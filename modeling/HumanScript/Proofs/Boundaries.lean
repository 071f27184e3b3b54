import HumanScript.Proofs.ByteCursor
import HumanScript.Proofs.Parsing.Alike
import HumanScript.Proofs.Valued
import HumanScript.Session

/-! Every place that is reported for a text starts between two of its characters, or at its end, so
that it has a line and a column. Places come from tokens, and covering two of them with one range
keeps the earlier start. -/
namespace HumanScript

/-- The range starts at a character of the text or at its end, and so has a line and a column. -/
structure Span.Located (src : String) (s : Span) : Prop where
  boundary : ∃ before rest, src.toList = before ++ rest ∧ Text.byteLength before = s.lo
  location : s.location? src = some (s.location src)

theorem RestAt.located {src : String} {s : Span} {rest : List Char} (h : RestAt src s.lo rest) :
    s.Located src := by
  obtain ⟨before, hsrc, hlo⟩ := h
  exact ⟨⟨before, rest, hsrc, hlo⟩, Span.location?_of_append hsrc hlo⟩

theorem Span.Located.join {src : String} {a b : Span} (ha : a.Located src) (hb : b.Located src) :
    (a.join b).Located src := by
  obtain ⟨before, rest, hsrc, hlo⟩ := ha.boundary
  obtain ⟨before', rest', hsrc', hlo'⟩ := hb.boundary
  rcases Nat.le_total a.lo b.lo with hle | hle
  · have hmin : (a.join b).lo = a.lo := Nat.min_eq_left hle
    exact RestAt.located ⟨before, hsrc, hlo.trans hmin.symm⟩
  · have hmin : (a.join b).lo = b.lo := Nat.min_eq_right hle
    exact RestAt.located ⟨before', hsrc', hlo'.trans hmin.symm⟩

section Places
variable {α ε : Type}

def Expr.places : Expr α → List Span
  | .literal _ span _ => [span]
  | .name ident span _ => [ident.span, span]
  | .binary _ lhs rhs span _ => lhs.places ++ rhs.places ++ [span]

mutual

def Stmt.places : Stmt α → List Span
  | .declare _ name init span => name.span :: init.places ++ [span]
  | .print value span => value.places ++ [span]
  | .ifThen condition thenArm span => condition.places ++ thenArm.places ++ [span]
  | .ifElse condition thenArm elseArm span =>
    condition.places ++ thenArm.places ++ elseArm.places ++ [span]
  | .block body span => Stmt.placesAll body ++ [span]

def Stmt.placesAll : List (Stmt α) → List Span
  | [] => []
  | s :: body => s.places ++ Stmt.placesAll body

end

def Program.places (p : Program α) : List Span :=
  p.imports.map Import.span ++ Stmt.placesAll p.body

/-- The place of an earlier declaration. -/
def CheckError.places : CheckError → List Span
  | .alreadyDeclared _ earlier => [earlier]
  | _ => []

def CompileError.places : CompileError → List Span
  | .parse e => [e.span]
  | .check e => e.span :: e.value.places
  | .emit _ => []

def Checked.places (c : Checked (Program Ty)) : List Span :=
  c.value.places ++ c.symbols.entries.map (·.2.span) ++ c.notes.map Spanned.span

def Lexed.places (l : Lexed) : List Span := l.all.map Token.span ++ l.errors.map Spanned.span

/-- The places in a value, or in the error there is instead. -/
def placesOf (ofError : ε → List Span) (ofValue : α → List Span) : Except ε α → List Span
  | .error e => ofError e
  | .ok a => ofValue a

def Report.places (r : Report α) (ofValue : α → List Span) : List Span :=
  r.diagnostics.map Diagnostic.span ++ placesOf CompileError.places ofValue r.result

/-- All places that are reported for a text: when it is read, as a program and as an expression,
when it is checked, and when it is compiled. -/
def reportedPlaces (src : String) : List Span :=
  let lexed := Lexed.ofSource src
  lexed.places ++ placesOf (fun e => [e.span]) Program.places lexed.program ++
    placesOf (fun e => [e.span]) Expr.places lexed.expr ++
    (parse src).places Program.places ++ (check src).places Checked.places ++
    (compile src).places fun _ => []

end Places

section Everywhere
variable {α : Type} {P : Span → Prop}

theorem Expr.Alike.places {e f : Expr α} (h : e.Alike (fun a _ => P a) f) :
    ∀ s ∈ e.places, P s := by
  induction h with
  | literal hs => exact List.forall_mem_singleton.mpr hs
  | name hx hs => exact List.forall_mem_cons.mpr ⟨hx.span, List.forall_mem_singleton.mpr hs⟩
  | binary _ _ hs ihl ihr =>
    have hoperands := List.forall_mem_append.mpr ⟨ihl, ihr⟩
    exact List.forall_mem_append.mpr ⟨hoperands, List.forall_mem_singleton.mpr hs⟩

mutual

theorem Stmt.Alike.places {s s' : Stmt α} (h : s.Alike (fun a _ => P a) s') :
    ∀ a ∈ s.places, P a := by
  unfold Stmt.places
  cases h with
  | declare hx he hs =>
    have hfirst := List.forall_mem_cons.mpr ⟨hx.span, he.places⟩
    exact List.forall_mem_append.mpr ⟨hfirst, List.forall_mem_singleton.mpr hs⟩
  | print he hs =>
    simp only [List.forall_mem_append, List.forall_mem_singleton]
    exact ⟨he.places, hs⟩
  | ifThen hc ha hs =>
    simp only [List.forall_mem_append, List.forall_mem_singleton]
    exact ⟨⟨hc.places, ha.places⟩, hs⟩
  | ifElse hc ha hb hs =>
    simp only [List.forall_mem_append, List.forall_mem_singleton]
    exact ⟨⟨⟨hc.places, ha.places⟩, hb.places⟩, hs⟩
  | block hbody hs =>
    simp only [List.forall_mem_append, List.forall_mem_singleton]
    exact ⟨hbody.places, hs⟩

theorem Stmt.AllAlike.places {body body' : List (Stmt α)}
    (h : Stmt.AllAlike (fun a _ => P a) body body') : ∀ a ∈ Stmt.placesAll body, P a := by
  unfold Stmt.placesAll
  cases h with
  | nil => simp
  | cons hs hbody => exact List.forall_mem_append.mpr ⟨hs.places, hbody.places⟩

end

/-- What corresponds item by item to something has the property that this asks for. -/
theorem forall_of_forall₂ {β : Type} {R : α → β → Prop} {Q : α → Prop} {l : List α} {m : List β}
    (h : List.Forall₂ R l m) (hR : ∀ a b, R a b → Q a) : ∀ a ∈ l, Q a := by
  induction h with
  | nil => simp
  | cons hab _ ih => exact List.forall_mem_cons.mpr ⟨hR _ _ hab, ih⟩

theorem Program.Alike.places {p q : Program α} (h : p.Alike (fun a _ => P a) q) :
    ∀ s ∈ p.places, P s := by
  refine List.forall_mem_append.mpr ⟨?_, h.body.places⟩
  exact List.forall_mem_map.mpr (forall_of_forall₂ h.imports fun _ _ hi => hi.span)

theorem CheckError.Alike.places {e f : CheckError} (h : e.Alike (fun a _ => P a) f) :
    ∀ s ∈ e.places, P s := by
  cases h with
  | alreadyDeclared h => exact List.forall_mem_singleton.mpr h
  | undeclaredName | unassignable | invalidOperands | nonLogicCondition | unprintable =>
    simp [CheckError.places]

theorem Checked.Alike.places {c d : Checked (Program Ty)}
    (h : c.Alike (fun a _ => P a) (Program.Alike fun a _ => P a) d) : ∀ s ∈ c.places, P s := by
  have hsymbols := forall_of_forall₂ h.symbols fun _ _ hpq => hpq.2.span
  have hnotes := forall_of_forall₂ h.notes fun _ _ hn => hn.span
  refine List.forall_mem_append.mpr ⟨List.forall_mem_append.mpr ⟨h.value.places, ?_⟩, ?_⟩
  · exact List.forall_mem_map.mpr hsymbols
  · exact List.forall_mem_map.mpr hnotes

theorem forall_placesOf {ε : Type} {E : ε → ε → Prop} {V : α → α → Prop} {x : Except ε α}
    (h : Except.Rel E V x x) {ofError : ε → List Span} {ofValue : α → List Span}
    (hE : ∀ e, E e e → ∀ s ∈ ofError e, P s) (hV : ∀ a, V a a → ∀ s ∈ ofValue a, P s) :
    ∀ s ∈ placesOf ofError ofValue x, P s := by
  cases h with
  | error he => exact hE _ he
  | ok ha => exact hV _ ha

/-- Every place that a report mentions has a property, and its value has one of its own. -/
structure Report.Placed (P : Span → Prop) (Q : α → Prop) (r : Report α) : Prop where
  diagnostics : ∀ d ∈ r.diagnostics, P d.span
  error : ∀ e, r.result = .error e → ∀ s ∈ e.places, P s
  ok : ∀ a, r.result = .ok a → Q a

namespace Report.Placed

theorem pure {Q : α → Prop} {a : α} (h : Q a) : (Pure.pure a : Report α).Placed P Q :=
  ⟨by simp [Pure.pure, ofExcept], by simp, fun _ hok => by cases hok; exact h⟩

theorem trace (message : String) : (Report.trace message).Placed P fun _ => True :=
  ⟨by simp [Report.trace], by simp, fun _ _ => trivial⟩

theorem remark {src : String} {diagnostics : List Diagnostic} (h : ∀ d ∈ diagnostics, P d.span) :
    (Report.remark src diagnostics).Placed P fun _ => True := ⟨h, by simp, fun _ _ => trivial⟩

theorem bind {β : Type} {Q : α → Prop} {Q' : β → Prop} {r : Report α} {f : α → Report β}
    (hr : r.Placed P Q) (hf : ∀ a, Q a → (f a).Placed P Q') : (r >>= f).Placed P Q' := by
  change (r.bind f).Placed P Q'
  unfold Report.bind
  cases hresult : r.result with
  | error e =>
    refine ⟨hr.diagnostics, ?_, fun _ ha => by cases ha⟩
    intro e' he
    cases he
    exact hr.error e hresult
  | ok a =>
    have hmore := hf a (hr.ok a hresult)
    exact ⟨List.forall_mem_append.mpr ⟨hr.diagnostics, hmore.diagnostics⟩, hmore.error, hmore.ok⟩

/-- A step that ends alike for things that are alike to themselves. -/
theorem ofExcept {ε : Type} {E : ε → ε → Prop} {V : α → α → Prop} {x : Except ε α}
    (h : Except.Rel E V x x) {toError : ε → CompileError}
    (hE : ∀ e, E e e → ∀ s ∈ (toError e).places, P s) :
    (Report.ofExcept (x.mapError toError)).Placed P fun a => V a a := by
  refine ⟨by simp [Report.ofExcept], ?_, ?_⟩
  · cases h with
    | error he =>
      intro e heq
      cases heq
      exact hE _ he
    | ok => exact fun _ heq => by cases heq
  · cases h with
    | error => exact fun _ heq => by cases heq
    | ok ha =>
      intro a heq
      cases heq
      exact ha

theorem places {Q : α → Prop} {r : Report α} {ofValue : α → List Span} (h : r.Placed P Q)
    (hvalue : ∀ a, Q a → ∀ s ∈ ofValue a, P s) : ∀ s ∈ r.places ofValue, P s := by
  refine List.forall_mem_append.mpr ⟨List.forall_mem_map.mpr h.diagnostics, ?_⟩
  cases hresult : r.result with
  | error e => exact h.error e hresult
  | ok a => exact hvalue a (h.ok a hresult)

end Report.Placed

end Everywhere

namespace Lexed

/-- The tokens and errors of a text are about lexemes that stand in it, and reading stops in it. -/
structure ReadFrom (src : String) (l : Lexed) : Prop where
  tokens : ∀ t ∈ l.tokens, ∃ lo c cs, RestAt src lo (c :: cs) ∧ t = (Lexeme.scan c cs).1.token lo
  errors : ∀ e ∈ l.errors, ∃ lo c cs, RestAt src lo (c :: cs) ∧ e ∈ (Lexeme.scan c cs).1.errors lo
  stop : ∃ rest, RestAt src l.stop rest

theorem readFrom_ofChars {src : String} {n : Nat} {cs : List Char} (h : RestAt src n cs) :
    (ofChars n cs).ReadFrom src := by
  fun_induction ofChars n cs with
  | case1 n => exact ⟨by simp, by simp, [], h⟩
  | case2 n cs comment ih =>
    refine ih ?_
    have hrest := h.skip_char.skip_char.skip_run (· ≠ '\n')
    rwa [Nat.add_assoc n] at hrest
  | case3 n c cs _ _ ih => exact ih h.skip_char
  | case4 n c cs _ _ front lexeme _ =>
    have hsplit := h
    rw [← Lexeme.text_append_scan c cs] at hsplit
    refine ⟨List.forall_mem_singleton.mpr ⟨n, c, cs, h, rfl⟩, fun e he => ⟨n, c, cs, h, he⟩, ?_⟩
    exact ⟨front.2, hsplit.skip⟩
  | case5 n c cs _ _ front lexeme _ more ih =>
    have hsplit := h
    rw [← Lexeme.text_append_scan c cs] at hsplit
    have hmore := ih hsplit.skip
    refine ⟨List.forall_mem_cons.mpr ⟨⟨n, c, cs, h, rfl⟩, hmore.tokens⟩, ?_, hmore.stop⟩
    exact List.forall_mem_append.mpr ⟨fun e he => ⟨n, c, cs, h, he⟩, hmore.errors⟩

theorem readFrom_ofSource (src : String) : (ofSource src).ReadFrom src :=
  readFrom_ofChars (.start src)

namespace ReadFrom
variable {src : String} {l : Lexed}

theorem located_token (h : l.ReadFrom src) {t : Token} (ht : t ∈ l.tokens) :
    t.span.Located src := by
  obtain ⟨lo, c, cs, hrest, rfl⟩ := h.tokens t ht
  exact hrest.located

theorem located_error (h : l.ReadFrom src) {e : Spanned LexError} (he : e ∈ l.errors) :
    e.span.Located src := by
  obtain ⟨lo, c, cs, hrest, he⟩ := h.errors e he
  obtain ⟨_, _, rfl⟩ := List.mem_map.mp he
  exact hrest.located

theorem located_stop (h : l.ReadFrom src) : l.stopSpan.Located src := by
  obtain ⟨rest, hrest⟩ := h.stop
  exact hrest.located

/-- Every place in the tokens is one in the text, and stays one when ranges are joined. -/
theorem alike (h : l.ReadFrom src) : l.Alike (fun a _ => a.Located src) l where
  aligned := ⟨h.located_stop, fun ha hb => ha.join hb⟩
  tokens := List.forall₂_same.mpr fun _ ht => ⟨rfl, rfl, rfl, h.located_token ht⟩

theorem slice? (h : l.ReadFrom src) {t : Token} (ht : t ∈ l.tokens)
    (hkind : t.kind ∉ [.string, .unknown]) :
    t.span.slice? src = some (String.ofList (t.text.toList.take maxSpanLength)) := by
  obtain ⟨lo, c, cs, hrest, rfl⟩ := h.tokens t ht
  rw [← Lexeme.text_append_scan c cs] at hrest
  have hslice := hrest.slice? ((Lexeme.front_scan c cs).oneByte hkind)
  simpa [Lexeme.token, Lexeme.span, Lexeme.stop] using hslice

end ReadFrom

/-- The token under a cursor; past the end it is the last one. -/
def lookup? (ts : List Token) (cursor : Nat) : Option Token := ts[cursor]? <|> ts.getLast?

/-- The token under the cursor is the first one not yet passed, or the end. -/
theorem lookup?_all (l : Lexed) (cursor : Nat) :
    lookup? l.all cursor = some ((l.tokens.drop cursor).headD (.eof l.stop)) := by
  unfold lookup? all
  rw [List.getLast?_concat, List.headD_eq_head?_getD, List.head?_drop]
  rcases Nat.lt_or_ge cursor l.tokens.length with hlt | hge
  · rw [List.getElem?_append_left hlt, List.getElem?_eq_getElem hlt]
    rfl
  · have hend : l.tokens[cursor]? = none := List.getElem?_eq_none hge
    have hlast : ∀ t ∈ ([Token.eof l.stop])[cursor - l.tokens.length]?, t = .eof l.stop :=
      fun t ht => List.mem_singleton.mp (List.mem_of_getElem? ht)
    rw [List.getElem?_append_right hge, hend]
    cases ht : ([Token.eof l.stop])[cursor - l.tokens.length]? with
    | none => rfl
    | some t =>
      rw [hlast t ht]
      rfl

end Lexed

section Reports
variable (src : String)

theorem placed_parse : (parse src).Placed (·.Located src) fun p =>
    p.Alike (fun a _ => a.Located src) p := by
  have hlexed := Lexed.readFrom_ofSource src
  unfold parse
  refine (Report.Placed.trace _).bind fun _ _ => ?_
  refine (Report.Placed.remark ?_).bind fun _ _ => ?_
  · exact List.forall_mem_map.mpr fun e he => hlexed.located_error he
  refine (Report.Placed.ofExcept hlexed.alike.program ?_).bind fun p hp => ?_
  · exact fun e he => List.forall_mem_singleton.mpr he.span
  exact (Report.Placed.trace _).bind fun _ _ => .pure hp

theorem placed_check : (check src).Placed (·.Located src) fun c =>
    c.Alike (fun a _ => a.Located src) (Program.Alike fun a _ => a.Located src) c := by
  unfold check
  refine (placed_parse src).bind fun p hp => (Report.Placed.trace _).bind fun _ _ => ?_
  refine (Report.Placed.ofExcept hp.check ?_).bind fun c hc => ?_
  · exact fun e he => List.forall_mem_cons.mpr ⟨he.span, he.value.places⟩
  refine (Report.Placed.remark ?_).bind fun _ _ => ?_
  · exact List.forall_mem_map.mpr (forall_of_forall₂ hc.notes fun _ _ hn => hn.span)
  exact (Report.Placed.trace _).bind fun _ _ => .pure hc

theorem placed_compile : (compile src).Placed (·.Located src) fun _ => True := by
  unfold compile
  refine (placed_check src).bind fun c _ => (Report.Placed.trace _).bind fun _ _ => ?_
  have hlowered : Except.Rel Eq Eq c.value.toCpp c.value.toCpp := by
    cases c.value.toCpp with
    | error e => exact .error rfl
    | ok q => exact .ok rfl
  refine (Report.Placed.ofExcept hlowered ?_).bind fun _ _ => ?_
  · simp [CompileError.places]
  exact (Report.Placed.trace _).bind fun _ _ => .pure trivial

theorem located_reportedPlaces : ∀ s ∈ reportedPlaces src, s.Located src := by
  have hlexed := Lexed.readFrom_ofSource src
  have hplaces : ∀ s ∈ (Lexed.ofSource src).places, s.Located src := by
    unfold Lexed.places Lexed.all
    simp only [List.map_append, List.forall_mem_append, List.forall_mem_map,
      List.forall_mem_singleton]
    exact ⟨⟨fun t ht => hlexed.located_token ht, hlexed.located_stop⟩,
      fun e he => hlexed.located_error he⟩
  have hprogram := forall_placesOf hlexed.alike.program
    (fun _ he => List.forall_mem_singleton.mpr he.span) fun _ hp => hp.places
  have hexpr := forall_placesOf hlexed.alike.expr
    (fun _ he => List.forall_mem_singleton.mpr he.span) fun _ he => he.places
  have hparse := (placed_parse src).places fun _ hp => hp.places
  have hcheck := (placed_check src).places fun _ hc => hc.places
  have hcompile : ∀ s ∈ (compile src).places fun _ => [], s.Located src :=
    (placed_compile src).places fun _ _ => by simp
  unfold reportedPlaces
  simp only [List.forall_mem_append]
  exact ⟨⟨⟨⟨⟨hplaces, hprogram⟩, hexpr⟩, hparse⟩, hcheck⟩, hcompile⟩

end Reports

/-- What a session asks for a text. -/
def Session.requests (src : String) : List Session.Request :=
  [.lex src, .readProgram src, .readExpr src, .parse src, .check src]

theorem Session.reply_ne_occupied {s : Session} (h : s.tokens = []) (src : String) :
    ∀ request ∈ requests src, (s.step request).1 ≠ .occupied := by
  have hanswer : ∀ {α : Type} (outline : α → List String) x, answer outline x ≠ .occupied := by
    intro α outline x
    cases x <;> simp [answer]
  have hrun : ∀ {α : Type} (report : Report α) outline,
      (s.run src report outline).1 ≠ .occupied := by
    intro α report outline
    unfold run
    cases report.result <;> simp
  intro request hrequest
  simp only [requests, List.mem_cons, List.not_mem_nil, or_false] at hrequest
  rcases hrequest with rfl | rfl | rfl | rfl | rfl
  · simp [step, read, h]
  · simp [step, read, h, hanswer]
  · simp [step, read, h, hanswer]
  · exact hrun _ _
  · exact hrun _ _

/-- Reading, checking and compiling a text never run out of it. No cut that is made to read it
fails, the token under the cursor is always there, so is the text at the place of every token that
has only characters of one byte in it, and every place that is reported is a place in the text. -/
theorem source_cuts_in_bounds (src : String) :
    Lexed.ofSource? src = some (Lexed.ofSource src) ∧
    (∀ cursor, Lexed.lookup? (Lexed.ofSource src).all cursor =
      some (((Lexed.ofSource src).tokens.drop cursor).headD (.eof (Lexed.ofSource src).stop))) ∧
    (∀ t ∈ (Lexed.ofSource src).tokens, t.kind ∉ [.string, .unknown] →
      t.span.slice? src = some (String.ofList (t.text.toList.take maxSpanLength))) ∧
    (∀ s ∈ reportedPlaces src, s.Located src) ∧
    ∀ s : Session, s.tokens = [] → ∀ request ∈ Session.requests src,
      (s.step request).1 ≠ .occupied := by
  refine ⟨Lexed.ofChars?_eq (.start src), Lexed.lookup?_all _, ?_, located_reportedPlaces src, ?_⟩
  · exact fun t ht hkind => (Lexed.readFrom_ofSource src).slice? ht hkind
  · exact fun s hs => Session.reply_ne_occupied hs src

theorem source_cuts_in_bounds_umlauts :
    (∃ t ∈ (Lexed.ofSource "says \"é\"; ß").tokens, t.kind ∉ [.string, .unknown] ∧
      t.span.slice? "says \"é\"; ß" =
        some (String.ofList (t.text.toList.take maxSpanLength))) ∧
    (∃ s ∈ reportedPlaces "says \"é\"; ß", s.lo = 13 ∧ s.Located "says \"é\"; ß") ∧
    Session.empty.tokens = [] ∧
      ∃ request ∈ Session.requests "says \"é\"; ß", (Session.empty.step request).1 ≠ .occupied := by
  obtain ⟨-, -, hslices, hplaces, hreplies⟩ := source_cuts_in_bounds "says \"é\"; ß"
  have htoken : ∃ t ∈ (Lexed.ofSource "says \"é\"; ß").tokens, t.kind = .semicolon := by
    decide +kernel
  have hplace : ∃ s ∈ reportedPlaces "says \"é\"; ß", s.lo = 13 := by decide +kernel
  obtain ⟨t, ht, hkind⟩ := htoken
  obtain ⟨s, hs, hlo⟩ := hplace
  have hkind' : t.kind ∉ [.string, .unknown] := by
    rw [hkind]
    decide
  refine ⟨⟨t, ht, hkind', hslices t ht hkind'⟩, ⟨s, hs, hlo, hplaces s hs⟩, rfl, ?_⟩
  exact ⟨.lex _, List.mem_cons_self, hreplies .empty rfl _ List.mem_cons_self⟩

end HumanScript
