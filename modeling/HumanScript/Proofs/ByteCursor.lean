import HumanScript.Proofs.Lexing
import HumanScript.Proofs.Scanning

/-! A text read by a byte cursor. Characters are taken one by one, but what comes after the next one
is looked up at the cursor's byte offset, and words and numbers are cut out of the text by their
ranges. Each of these cuts fails if an end of it is past the text or inside a character. None does:
the cursor is always where the characters still to come start. -/
namespace HumanScript

/-- The characters from byte `n` of a text on. -/
def RestAt (src : String) (n : Nat) (cs : List Char) : Prop :=
  ∃ before, src.toList = before ++ cs ∧ Text.byteLength before = n

namespace RestAt
variable {src : String} {n : Nat} {cs text rest : List Char} {c : Char}

theorem start (src : String) : RestAt src 0 src.toList := ⟨[], rfl, rfl⟩

theorem skip (h : RestAt src n (text ++ rest)) : RestAt src (n + Text.byteLength text) rest := by
  obtain ⟨before, hsrc, rfl⟩ := h
  exact ⟨before ++ text, by rw [hsrc, List.append_assoc], Text.byteLength_append _ _⟩

theorem skip_char (h : RestAt src n (c :: cs)) : RestAt src (n + c.utf8Size) cs := by
  have hskip : RestAt src (n + Text.byteLength [c]) cs := skip h
  rwa [Text.byteLength_cons, Text.byteLength_nil, Nat.add_zero] at hskip

/-- A run of characters is skipped. -/
theorem skip_run (h : RestAt src n cs) (p : Char → Bool) :
    RestAt src (n + Text.byteLength (cs.takeWhile p)) (cs.dropWhile p) := by
  rw [← List.takeWhile_append_dropWhile (p := p) (l := cs)] at h
  exact h.skip

theorem splitAt? (h : RestAt src n cs) :
    ∃ before, Text.splitAt? n src.toList = some (before, cs) := by
  obtain ⟨before, hsrc, rfl⟩ := h
  exact ⟨before, hsrc ▸ Text.splitAt?_byteLength_append before cs⟩

end RestAt

/-- The character after the next one, by the cursor's offset. -/
def Text.second? (src : String) (cursor : Nat) : Option (Option Char) :=
  (splitAt? cursor src.toList).map fun (_, rest) => rest.tail.head?

theorem RestAt.second? {src : String} {n : Nat} {c : Char} {cs : List Char}
    (h : RestAt src n (c :: cs)) : Text.second? src n = some cs.head? := by
  obtain ⟨before, hsplit⟩ := h.splitAt?
  rw [Text.second?, hsplit]
  rfl

section OneByte

theorem utf8Size_of_isAlphanum {c : Char} (h : c.isAlphanum = true) : c.utf8Size = 1 := by
  have hranges : (decide (65 ≤ c.val ∧ c.val ≤ 90) ||
      (decide (97 ≤ c.val) && decide (c.val ≤ 122)) ||
      (decide (48 ≤ c.val) && decide (c.val ≤ 57))) = true := h
  simp only [Bool.or_eq_true, Bool.and_eq_true, decide_eq_true_eq,
    UInt32.le_iff_toNat_le] at hranges
  have h90 : (90 : UInt32).toNat = 90 := rfl
  have h122 : (122 : UInt32).toNat = 122 := rfl
  have h57 : (57 : UInt32).toNat = 57 := rfl
  rw [Char.utf8Size_eq_one_iff, UInt32.le_iff_toNat_le]
  change c.val.toNat ≤ 127
  omega

theorem utf8Size_of_isDigit {c : Char} (h : c.isDigit = true) : c.utf8Size = 1 :=
  utf8Size_of_isAlphanum (by rw [Char.isAlphanum, h, Bool.or_true])

theorem utf8Size_of_continuesWord {c : Char} (h : Lexeme.continuesWord c = true) :
    c.utf8Size = 1 := by
  simp only [Lexeme.continuesWord, Bool.or_eq_true, decide_eq_true_eq] at h
  rcases h with h | rfl
  · exact utf8Size_of_isAlphanum h
  · decide

theorem byteLength_of_oneByte {text : List Char} (h : ∀ c ∈ text, c.utf8Size = 1) :
    Text.byteLength text = text.length := by
  induction text with
  | nil => rfl
  | cons c text ih =>
    rw [Text.byteLength_cons, h c (by simp), ih fun d hd => h d (by simp [hd]), List.length_cons,
      Nat.add_comm]

/-- A text of one-byte characters can be cut anywhere, so its range may be cut off. -/
theorem RestAt.slice? {src : String} {n : Nat} {text rest : List Char}
    (h : RestAt src n (text ++ rest)) (hone : ∀ c ∈ text, c.utf8Size = 1) :
    (Span.ofBounds n (n + Text.byteLength text)).slice? src =
      some (String.ofList (text.take maxSpanLength)) := by
  obtain ⟨before, hsplit⟩ := h.splitAt?
  have hlen : (Span.ofBounds n (n + Text.byteLength text)).len =
      Text.byteLength (text.take maxSpanLength) := by
    rw [byteLength_of_oneByte fun c hc => hone c (List.mem_of_mem_take hc), List.length_take,
      Span.len_ofBounds, byteLength_of_oneByte hone]
    omega
  have hcut : text ++ rest = text.take maxSpanLength ++ (text.drop maxSpanLength ++ rest) := by
    rw [← List.append_assoc, List.take_append_drop]
  rw [Span.slice?, hlen, Span.lo_ofBounds, hsplit, hcut]
  simp [Text.splitAt?_byteLength_append]

end OneByte

namespace Lexeme

/-- A comment is ahead: the next character is a slash, and so is the one after it. -/
def commentAhead? (src : String) (cursor : Nat) (c : Char) : Option Bool :=
  if c = '/' then (Text.second? src cursor).map (· = some '/') else some false

/-- After the digits of a number, a point is ahead with another digit after it. -/
def fractionAhead? (src : String) (cursor : Nat) : List Char → Option Bool
  | '.' :: _ => (Text.second? src cursor).map (·.any Char.isDigit)
  | _ => some false

/-- The lexeme, if the text at its place can be cut out. -/
def cutOut? (src : String) (lo : Nat) (front : Lexeme × List Char) :
    Option (Lexeme × List Char) := ((front.1.span lo).slice? src).map fun _ => front

def scanNumber? (src : String) (lo : Nat) (cs : List Char) : Option (Lexeme × List Char) := do
  let whole := cs.takeWhile Char.isDigit
  let rest := cs.dropWhile Char.isDigit
  let fraction ← fractionAhead? src (lo + Text.byteLength whole) rest
  cutOut? src lo <|
    if fraction then
      (ofFraction whole (rest.tail.takeWhile Char.isDigit), rest.tail.dropWhile Char.isDigit)
    else (ofDigits whole, rest)

/-- The lexeme at byte `lo`. Only words and numbers are cut out of the text. -/
def scan? (src : String) (lo : Nat) (c : Char) (cs : List Char) : Option (Lexeme × List Char) :=
  if startsWord c then
    cutOut? src lo (ofWord (c :: cs.takeWhile continuesWord), cs.dropWhile continuesWord)
  else if c.isDigit then scanNumber? src lo (c :: cs)
  else some (scan c cs)

section
variable {src : String} {lo : Nat} {c : Char} {cs : List Char}

theorem commentAhead?_eq (h : RestAt src lo (c :: cs)) :
    commentAhead? src lo c = some (decide (c = '/' ∧ cs.head? = some '/')) := by
  unfold commentAhead?
  by_cases hc : c = '/'
  · rw [if_pos hc, h.second?]
    simp [hc]
  · rw [if_neg hc]
    simp [hc]

theorem fractionAhead?_eq (h : RestAt src lo cs) :
    fractionAhead? src lo cs =
      some (decide (cs.head? = some '.') && cs.tail.head?.any Char.isDigit) := by
  unfold fractionAhead?
  split
  · rw [h.second?]
    simp
  · rename_i hdot
    cases cs with
    | nil => rfl
    | cons d ds =>
      have hd : d ≠ '.' := by
        rintro rfl
        exact hdot ds rfl
      simp [hd]

/-- Only strings and unknown characters have characters of more than one byte in them. -/
theorem Front.oneByte {l : Lexeme} {rest : List Char} (h : Front l rest)
    (hkind : l.kind ∉ [.string, .unknown]) : ∀ c ∈ l.text, c.utf8Size = 1 := by
  have hdigits : ∀ {digits}, IsDigits digits → ∀ c ∈ digits, c.utf8Size = 1 :=
    fun h c hc => utf8Size_of_isDigit (h.2 c hc)
  cases h with
  | mark h =>
    have hall : ∀ p ∈ marks, (p.1.all fun c => c.utf8Size = 1) = true := by decide
    simpa using hall _ h
  | @word c more _ hc hmore _ =>
    rw [text_ofWord]
    exact List.forall_mem_cons.mpr
      ⟨utf8Size_of_continuesWord (continuesWord_of_startsWord hc),
        fun d hd => utf8Size_of_continuesWord (hmore d hd)⟩
  | int h => exact hdigits h
  | float hwhole hplaces =>
    have hpoint : '.'.utf8Size = 1 := by decide
    exact List.forall_mem_append.mpr
      ⟨hdigits hwhole, List.forall_mem_cons.mpr ⟨hpoint, hdigits hplaces⟩⟩
  | string | openString | openEscape | unknown => exact absurd (by simp) hkind

theorem cutOut?_scan (h : RestAt src lo (c :: cs))
    (hkind : (scan c cs).1.kind ∉ [.string, .unknown]) :
    cutOut? src lo (scan c cs) = some (scan c cs) := by
  rw [← text_append_scan] at h
  unfold cutOut? span stop
  rw [h.slice? ((front_scan c cs).oneByte hkind)]
  rfl

theorem kind_scanNumber (cs : List Char) : (scanNumber cs).1.kind ∉ [.string, .unknown] := by
  unfold scanNumber
  dsimp only
  split
  · split <;> simp [ofFraction, ofDigits]
  · simp [ofDigits]

/-- A number has a fraction if a point and a digit follow its digits. -/
theorem scanNumber_eq (cs : List Char) :
    scanNumber cs =
      let whole := cs.takeWhile Char.isDigit
      let rest := cs.dropWhile Char.isDigit
      if decide (rest.head? = some '.') && rest.tail.head?.any Char.isDigit then
        (ofFraction whole (rest.tail.takeWhile Char.isDigit), rest.tail.dropWhile Char.isDigit)
      else (ofDigits whole, rest) := by
  unfold scanNumber
  dsimp only
  split
  · rename_i d rest hrest
    rw [hrest]
    simp
  · rename_i hpoint
    generalize cs.dropWhile Char.isDigit = rest at hpoint ⊢
    cases rest with
    | nil => rfl
    | cons e rest =>
      cases rest with
      | nil => simp
      | cons d rest =>
        have he : e ≠ '.' := by
          rintro rfl
          exact hpoint d rest rfl
        simp [he]

theorem scan?_eq (h : RestAt src lo (c :: cs)) : scan? src lo c cs = some (scan c cs) := by
  unfold scan?
  split
  · rename_i hword
    rw [← scan_word hword]
    refine cutOut?_scan h ?_
    rw [scan_word hword]
    exact kind_ofWord_not_mem _
  · split
    · rename_i hdigit
      have hkind := kind_scanNumber (c :: cs)
      rw [← scan_digit hdigit] at hkind
      have hcut := cutOut?_scan h hkind
      rw [scan_digit hdigit, scanNumber_eq] at hcut ⊢
      unfold scanNumber?
      dsimp only
      rw [fractionAhead?_eq (h.skip_run _)]
      exact hcut
    · rfl

theorem length_lt_of_scan? {front : Lexeme × List Char} (h : scan? src lo c cs = some front) :
    front.2.length < (c :: cs).length := by
  have hcut : ∀ {front front'}, cutOut? src lo front = some front' → front' = front := by
    intro front front' hfront
    obtain ⟨_, _, rfl⟩ := Option.map_eq_some_iff.mp hfront
    rfl
  unfold scan? at h
  split at h
  · rw [hcut h, List.length_cons]
    exact Nat.lt_succ_of_le (List.dropWhile_sublist _).length_le
  · split at h
    · rename_i hdigit
      obtain ⟨fraction, _, hfront⟩ := Option.bind_eq_some_iff.mp h
      rw [hcut hfront, List.length_cons]
      have hdrop := (List.dropWhile_sublist (l := cs) Char.isDigit).length_le
      have hplaces := (List.dropWhile_sublist (l := (cs.dropWhile Char.isDigit).tail)
        Char.isDigit).length_le
      rw [List.length_tail] at hplaces
      split <;> simp only [List.dropWhile_cons_of_pos hdigit] <;> omega
    · cases h
      exact length_scan_lt c cs

end
end Lexeme

namespace Lexed

/-- The tokens from the cursor on. -/
def ofChars? (src : String) (cursor : Nat) : List Char → Option Lexed
  | [] => some ⟨[], cursor, []⟩
  | c :: cs => do
    let comment ← Lexeme.commentAhead? src cursor c
    if comment then
      let body := cs.takeWhile (· ≠ '\n')
      ofChars? src (cursor + c.utf8Size + Text.byteLength body) (cs.dropWhile (· ≠ '\n'))
    else if Lexeme.isBlank c then ofChars? src (cursor + c.utf8Size) cs
    else
      match _h : Lexeme.scan? src cursor c cs with
      | none => none
      | some (lexeme, rest) =>
        if lexeme.kind = .unknown then
          some ⟨[lexeme.token cursor], lexeme.stop cursor, lexeme.errors cursor⟩
        else (ofChars? src (lexeme.stop cursor) rest).map fun more =>
          ⟨lexeme.token cursor :: more.tokens, more.stop, lexeme.errors cursor ++ more.errors⟩
termination_by cs => cs.length
decreasing_by
  · have := (List.dropWhile_sublist (l := cs) (· ≠ '\n')).length_le
    simp only [List.length_cons]
    omega
  · simp
  · exact Lexeme.length_lt_of_scan? _h

def ofSource? (src : String) : Option Lexed := ofChars? src 0 src.toList

/-- One step from a cursor at the characters still to come. -/
theorem ofChars?_cons {src : String} {n : Nat} {c : Char} {cs : List Char}
    (h : RestAt src n (c :: cs)) :
    ofChars? src n (c :: cs) =
      if c = '/' ∧ cs.head? = some '/' then
        ofChars? src (n + c.utf8Size + Text.byteLength (cs.takeWhile (· ≠ '\n')))
          (cs.dropWhile (· ≠ '\n'))
      else if Lexeme.isBlank c then ofChars? src (n + c.utf8Size) cs
      else
        let lexeme := (Lexeme.scan c cs).1
        if lexeme.kind = .unknown then some ⟨[lexeme.token n], lexeme.stop n, lexeme.errors n⟩
        else (ofChars? src (lexeme.stop n) (Lexeme.scan c cs).2).map fun more =>
          ⟨lexeme.token n :: more.tokens, more.stop, lexeme.errors n ++ more.errors⟩ := by
  rw [ofChars?, Lexeme.commentAhead?_eq h]
  simp only [Option.bind_eq_bind, Option.bind_some, decide_eq_true_eq]
  congr 2
  split
  · rename_i hnone
    rw [Lexeme.scan?_eq h] at hnone
    cases hnone
  · rename_i lexeme rest hsome
    rw [Lexeme.scan?_eq h, Option.some.injEq] at hsome
    rw [hsome]

theorem head?_ne_slash {c : Char} {cs : List Char}
    (h : ∀ rest, c = '/' → cs = '/' :: rest → False) : ¬ (c = '/' ∧ cs.head? = some '/') := by
  rintro ⟨hc, hhead⟩
  obtain ⟨rest, hrest⟩ := List.head?_eq_some_iff.mp hhead
  exact h rest hc hrest

/-- No cut fails, and what is looked up at the cursor's offset is what comes. -/
theorem ofChars?_eq {src : String} {n : Nat} {cs : List Char} (h : RestAt src n cs) :
    ofChars? src n cs = some (ofChars n cs) := by
  fun_induction ofChars n cs with
  | case1 n => rw [ofChars?]
  | case2 n cs comment ih =>
    have hrest := h.skip_char.skip_run (· ≠ '\n')
    have hstop : n + '/'.utf8Size + Text.byteLength (('/' :: cs).takeWhile (· ≠ '\n')) =
        n + 2 + Text.byteLength comment := by
      change n + 1 + (1 + Text.byteLength comment) = _
      omega
    rw [hstop] at hrest
    rw [ofChars?_cons h, if_pos ⟨rfl, rfl⟩, hstop]
    exact ih hrest
  | case3 n c cs hcomment hblank ih =>
    rw [ofChars?_cons h, if_neg (head?_ne_slash hcomment), if_pos hblank]
    exact ih h.skip_char
  | case4 n c cs hcomment hblank front lexeme hkind =>
    rw [ofChars?_cons h, if_neg (head?_ne_slash hcomment), if_neg hblank]
    exact if_pos hkind
  | case5 n c cs hcomment hblank front lexeme hkind more ih =>
    have hsplit := h
    rw [← Lexeme.text_append_scan c cs] at hsplit
    have hmore : ofChars? src (lexeme.stop n) front.2 = some more := ih hsplit.skip
    rw [ofChars?_cons h, if_neg (head?_ne_slash hcomment), if_neg hblank]
    refine (if_neg hkind).trans ?_
    rw [hmore]
    rfl

end Lexed
end HumanScript
