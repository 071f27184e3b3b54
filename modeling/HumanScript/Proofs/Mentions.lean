import HumanScript.Proofs.Scoping
import Mathlib.Data.List.Infix

/-! The standard names in the text of code. Code mentions `std::string` or another of these names
exactly if it has a construct in it that is written with the name. String literals may have anything
in them, so their insides do not count. -/
namespace HumanScript.Cpp

/-- A text without the insides of its string literals. The flag tells whether it starts in one. -/
def outside : Bool → List Char → List Char
  | _, [] => []
  | false, c :: cs => c :: outside (c = '"') cs
  | true, '\\' :: _ :: cs => outside true cs
  | true, c :: cs => if c = '"' then c :: outside false cs else outside true cs

/-- A text without quotes is all outside. -/
theorem outside_of_not_mem {cs : List Char} (h : '"' ∉ cs) (more : List Char) :
    outside false (cs ++ more) = cs ++ outside false more := by
  induction cs with
  | nil => rfl
  | cons c cs ih =>
    rw [List.mem_cons, not_or] at h
    have hc : decide (c = '"') = false := decide_eq_false fun heq => h.1 heq.symm
    rw [List.cons_append, outside, hc, ih h.2, List.cons_append]

theorem outside_escape (c : Char) (rest : List Char) :
    outside true (escape c ++ rest) = outside true rest := by
  unfold escape
  split_ifs with hquote hslash
  · rfl
  · rfl
  · rfl
  · rfl
  · rfl
  · rfl
  · simp [outside, hquote, hslash]

theorem outside_escaped (value rest : List Char) :
    outside true (value.flatMap escape ++ rest) = outside true rest := by
  induction value with
  | nil => rfl
  | cons c value ih => rw [List.flatMap_cons, List.append_assoc, outside_escape, ih]

/-- What stands between the quotes of a string literal does not show. -/
theorem outside_stringLiteral (value : String) (more : List Char) :
    outside false ((stringLiteral value).toList ++ more) = '"' :: '"' :: outside false more := by
  have hinside := outside_escaped value.toList ('"' :: more)
  rw [stringLiteral, String.toList_ofList, List.cons_append, List.cons_append, List.append_assoc]
  change '"' :: outside true (value.toList.flatMap escape ++ '"' :: more) = _
  rw [hinside]
  rfl

/-- The lines have a text in them, outside of string literals. -/
def Mentions (lines : List String) (text : String) : Prop :=
  text.toList <:+: outside false (Text.unlines lines).toList

/-- One of these names stands behind every double colon. -/
def qualifies (names : List String) : List Char → Bool
  | ':' :: ':' :: cs => (names.any fun n => n.toList.isPrefixOf cs) && qualifies names (':' :: cs)
  | _ :: cs => qualifies names cs
  | [] => true

section Qualifies
variable {names more : List String} {xs ys : List Char} {c : Char}

theorem qualifies_tail (h : qualifies names (c :: xs) = true) : qualifies names xs = true := by
  unfold qualifies at h
  split at h
  · rename_i heq
    cases heq
    exact (Bool.and_eq_true_iff.mp h).2
  · rename_i heq
    cases heq
    exact h
  · rename_i heq
    cases heq

theorem qualifies_cons (hxs : qualifies names xs = true)
    (hcolons : ∀ cs, c :: xs = ':' :: ':' :: cs → ∃ n ∈ names, n.toList <+: cs) :
    qualifies names (c :: xs) = true := by
  unfold qualifies
  split
  · rename_i cs heq
    obtain ⟨n, hn, hprefix⟩ := hcolons cs heq
    cases heq
    rw [Bool.and_eq_true_iff, List.any_eq_true]
    exact ⟨⟨n, hn, List.isPrefixOf_iff_prefix.mpr hprefix⟩, hxs⟩
  · rename_i heq
    cases heq
    exact hxs
  · rfl

theorem exists_name_of_qualifies (before : List Char) {rest : List Char}
    (h : qualifies names (before ++ ':' :: ':' :: rest) = true) :
    ∃ n ∈ names, n.toList <+: rest := by
  induction before with
  | nil =>
    obtain ⟨hany, -⟩ := Bool.and_eq_true_iff.mp h
    obtain ⟨n, hn, hprefix⟩ := List.any_eq_true.mp hany
    exact ⟨n, hn, List.isPrefixOf_iff_prefix.mp hprefix⟩
  | cons c before ih => exact ih (qualifies_tail h)

theorem qualifies_mono (h : names ⊆ more) (hxs : qualifies names xs = true) :
    qualifies more xs = true := by
  induction xs with
  | nil => rfl
  | cons c xs ih =>
    refine qualifies_cons (ih (qualifies_tail hxs)) ?_
    intro cs heq
    rw [heq] at hxs
    obtain ⟨n, hn, hprefix⟩ := exists_name_of_qualifies [] hxs
    exact ⟨n, h hn, hprefix⟩

/-- No double colon lies across two texts if the first does not end with a colon. -/
theorem qualifies_append (hxs : qualifies names xs = true) (hys : qualifies names ys = true)
    (hlast : xs.getLast? ≠ some ':') : qualifies names (xs ++ ys) = true := by
  induction xs with
  | nil => exact hys
  | cons c xs ih =>
    cases xs with
    | nil =>
      refine qualifies_cons hys ?_
      intro cs heq
      cases heq
      exact absurd rfl hlast
    | cons d xs =>
      rw [List.getLast?_cons_cons] at hlast
      refine qualifies_cons (ih (qualifies_tail hxs) hlast) ?_
      intro cs heq
      cases heq
      obtain ⟨n, hn, hprefix⟩ := exists_name_of_qualifies [] hxs
      exact ⟨n, hn, hprefix.trans (List.prefix_append _ _)⟩

end Qualifies

/-- Characters that neither start a string literal nor qualify a name. -/
def Plain (cs : List Char) : Prop := ∀ c ∈ cs, c ≠ '"' ∧ c ≠ ':'

/-- A text that leaves no string literal open is `code` outside of them, and `names` are the names
in it that stand behind `std::`. -/
structure Reads (text : String) (code : List Char) (names : List String) : Prop where
  outside : ∀ more, Cpp.outside false (text.toList ++ more) = code ++ Cpp.outside false more
  last : code.getLast? ≠ some ':'
  named : ∀ n ∈ names, ("std::" ++ n).toList <:+: code
  only : qualifies names code = true

/-- A text has exactly these standard names in it, outside of string literals. -/
def HasNames (text : String) (names : List String) : Prop := ∃ code, Reads text code names

namespace HasNames
variable {s t : String} {names more : List String}

theorem append (hs : HasNames s names) (ht : HasNames t more) :
    HasNames (s ++ t) (names ++ more) := by
  obtain ⟨code, hs⟩ := hs
  obtain ⟨code', ht⟩ := ht
  refine ⟨code ++ code', ?_, ?_, ?_, ?_⟩
  · intro rest
    rw [String.toList_append, List.append_assoc, hs.outside, ht.outside, List.append_assoc]
  · have hlast := ht.last
    rw [List.getLast?_append]
    cases hcode : code'.getLast? with
    | none => exact hs.last
    | some c =>
      rw [hcode] at hlast
      exact hlast
  · refine List.forall_mem_append.mpr ⟨fun n hn => ?_, fun n hn => ?_⟩
    · exact (hs.named n hn).trans (List.prefix_append _ _).isInfix
    · exact (ht.named n hn).trans (List.suffix_append _ _).isInfix
  · exact qualifies_append (qualifies_mono (List.subset_append_left _ _) hs.only)
      (qualifies_mono (List.subset_append_right _ _) ht.only) hs.last

/-- A text without string literals. -/
theorem of_code (h : '"' ∉ s.toList ∧ s.toList.getLast? ≠ some ':' ∧
    (∀ n ∈ names, ("std::" ++ n).toList <:+: s.toList) ∧ qualifies names s.toList = true) :
    HasNames s names := by
  obtain ⟨hquote, hlast, hnamed, honly⟩ := h
  exact ⟨s.toList, outside_of_not_mem hquote, hlast, hnamed, honly⟩

theorem of_plain (h : Plain s.toList) : HasNames s [] := by
  have honly : ∀ cs, Plain cs → qualifies [] cs = true := by
    intro cs hcs
    induction cs with
    | nil => rfl
    | cons c cs ih =>
      refine qualifies_cons (ih fun d hd => hcs d (by simp [hd])) ?_
      intro rest heq
      cases heq
      exact absurd rfl (hcs ':' (by simp)).2
  refine of_code ⟨?_, ?_, by simp, honly _ h⟩
  · exact fun hquote => (h _ hquote).1 rfl
  · exact fun hlast => (h _ (List.mem_of_getLast? hlast)).2 rfl

theorem stringLiteral (value : String) : HasNames (Cpp.stringLiteral value) [] :=
  ⟨['"', '"'], outside_stringLiteral value, by simp, by simp, rfl⟩

end HasNames

section Plain
variable {cs ds : List Char} {c : Char}

-- Only the characters of the text are tried, not all there are.
instance (cs : List Char) : Decidable (Plain cs) := List.decidableBAll _ cs

theorem plain_cons : Plain (c :: cs) ↔ (c ≠ '"' ∧ c ≠ ':') ∧ Plain cs := List.forall_mem_cons

theorem plain_append : Plain (cs ++ ds) ↔ Plain cs ∧ Plain ds := List.forall_mem_append

theorem Plain.subset (h : Plain ds) (hsub : cs ⊆ ds) : Plain cs := fun c hc => h c (hsub hc)

theorem plain_of_isDigit (h : ∀ c ∈ cs, c.isDigit = true) : Plain cs := by
  intro c hc
  have hdigit := h c hc
  refine ⟨?_, ?_⟩
  · rintro rfl
    cases hdigit
  · rintro rfl
    cases hdigit

theorem plain_toDigits (n : Nat) : Plain (Nat.toDigits 10 n) :=
  plain_of_isDigit fun _ => Nat.isDigit_of_mem_toDigits (by omega) (by omega)

theorem plain_toString (n : Int) : Plain (ToString.toString n).toList := by
  cases n with
  | ofNat m =>
    change Plain (String.ofList (Nat.toDigits 10 m)).toList
    rw [String.toList_ofList]
    exact plain_toDigits m
  | negSucc m =>
    change Plain ("-" ++ String.ofList (Nat.toDigits 10 m.succ)).toList
    simp only [String.toList_append, String.toList_ofList, plain_append]
    exact ⟨by decide, plain_toDigits _⟩

theorem plain_positional (hds : Plain ds) (point : Int) : Plain (Decimal.positional ds point) := by
  have hzeros : ∀ n, Plain (List.replicate n '0') := by
    intro n c hc
    rw [List.eq_of_mem_replicate hc]
    decide
  unfold Decimal.positional
  split_ifs
  · simp only [List.cons_append, plain_cons, plain_append]
    exact ⟨by decide, by decide, hzeros _, hds⟩
  · simp only [plain_append]
    exact ⟨⟨hds, hzeros _⟩, by decide⟩
  · simp only [plain_cons, plain_append]
    exact ⟨hds.subset (List.take_subset _ _), by decide, hds.subset (List.drop_subset _ _)⟩

theorem plain_scientific (hds : Plain ds) (point : Int) : Plain (Decimal.scientific ds point) := by
  have htail := hds.subset (List.drop_subset 1 ds)
  unfold Decimal.scientific
  simp only [plain_cons, plain_append]
  refine ⟨⟨hds.subset (List.take_subset _ _), ?_⟩, by decide, plain_toString _⟩
  split_ifs
  · decide
  · exact plain_cons.mpr ⟨by decide, htail⟩

theorem plain_decimal (d : Decimal) : Plain d.render := by
  have hds : Plain d.significant := by
    refine (plain_toDigits d.digits).subset fun c hc => ?_
    exact List.mem_reverse.mp ((List.dropWhile_sublist _).subset (List.mem_reverse.mp hc))
  unfold Decimal.render
  split_ifs
  · exact plain_positional hds _
  · exact plain_scientific hds _

theorem plain_doubleLiteral (x : Binary64) : Plain (doubleLiteral x).toList := by
  have hmagnitude : Plain (if !x.isFinite then "inf" else if x.units = 0 then "0.0"
      else String.ofList x.shortest.render).toList := by
    split_ifs
    · decide +kernel
    · decide +kernel
    · rw [String.toList_ofList]
      exact plain_decimal _
  have hrender : Plain x.render.toList := by
    unfold Binary64.render
    dsimp only
    split
    · decide +kernel
    · split
      · rw [String.toList_append, plain_append]
        exact ⟨by decide +kernel, hmagnitude⟩
      · exact hmagnitude
  unfold doubleLiteral
  dsimp only
  split
  · exact hrender
  · rw [String.toList_append, plain_append]
    exact ⟨hrender, by decide +kernel⟩

end Plain

/-- The standard names that code is written with. -/
def stdNames : List String := ["string", "to_string", "cout", "endl", "boolalpha"]

theorem HasNames.mentions_iff {lines : List String} {names : List String}
    (h : HasNames (Text.unlines lines) names) (hnames : names ⊆ stdNames) {n : String}
    (hn : n ∈ stdNames) : Mentions lines ("std::" ++ n) ↔ n ∈ names := by
  obtain ⟨code, h⟩ := h
  have hcode : outside false (Text.unlines lines).toList = code := by
    simpa [outside] using h.outside []
  unfold Mentions
  rw [hcode]
  refine ⟨?_, h.named n⟩
  rintro ⟨before, rest, hsplit⟩
  have hcolons : code = (before ++ "std".toList) ++ ':' :: ':' :: (n.toList ++ rest) := by
    rw [← hsplit, String.toList_append]
    simp
  obtain ⟨m, hm, hprefix⟩ := exists_name_of_qualifies _ (hcolons ▸ h.only)
  -- The names differ in their first letters.
  have hletters : ∀ m ∈ stdNames, ∀ n ∈ stdNames, m.toList.head? = n.toList.head? → m = n := by
    decide +kernel
  have hne : ∀ m ∈ stdNames, m.toList ≠ [] := by decide +kernel
  have hhead : m.toList.head? = n.toList.head? := by
    obtain ⟨more, hmore⟩ := hprefix
    have heads := congrArg List.head? hmore
    rwa [List.head?_append_of_ne_nil _ (hne m (hnames hm)),
      List.head?_append_of_ne_nil _ (hne n hn)] at heads
  rwa [← hletters m (hnames hm) n hn hhead]

/-- A text whose characters all may stand in a word. -/
def IsWord (x : String) : Prop := ∀ c ∈ x.toList, Lexeme.continuesWord c = true

theorem IsWord.plain {x : String} (h : IsWord x) : Plain x.toList := by
  intro c hc
  have hword := h c hc
  refine ⟨?_, ?_⟩
  · rintro rfl
    cases hword
  · rintro rfl
    cases hword

/-- The standard names that an expression is written with. -/
def Expr.stdNames : Expr → List String
  | int _ | double _ | string _ | bool _ | name _ => []
  | stringOf value => "string" :: value.stdNames
  | toString value => "to_string" :: value.stdNames
  | choice condition whenTrue whenFalse =>
    condition.stdNames ++ whenTrue.stdNames ++ whenFalse.stdNames
  | binary _ lhs rhs => lhs.stdNames ++ rhs.stdNames

theorem Expr.hasNames {e : Expr} (h : ∀ x ∈ e.names, IsWord x) : HasNames e.render e.stdNames := by
  have hclose : HasNames ")" [] := .of_plain (by decide +kernel)
  induction e with
  | int value =>
    have hvalue : HasNames (ToString.toString value) [] := .of_plain (plain_toString value)
    exact hvalue.append (.of_plain (by decide +kernel))
  | double value => exact .of_plain (plain_doubleLiteral value)
  | string value => exact .stringLiteral value
  | bool value => cases value <;> exact .of_plain (by decide +kernel)
  | name x => exact .of_plain (h x (List.mem_singleton.mpr rfl)).plain
  | stringOf value ih =>
    have hstd : HasNames "std::string(" ["string"] := .of_code (by decide +kernel)
    have hcode := (hstd.append (ih h)).append hclose
    rwa [List.append_nil] at hcode
  | toString value ih =>
    have hstd : HasNames "std::to_string(" ["to_string"] := .of_code (by decide +kernel)
    have hcode := (hstd.append (ih h)).append hclose
    rwa [List.append_nil] at hcode
  | choice condition whenTrue whenFalse ihc iht ihf =>
    simp only [names, List.forall_mem_append] at h
    have hthen : HasNames " ? " [] := .of_plain (by decide +kernel)
    -- A single colon qualifies nothing.
    have helse : HasNames " : " [] := .of_code (by decide +kernel)
    have hcode := ((((ihc h.1.1).append hthen).append (iht h.1.2)).append helse).append (ihf h.2)
    rwa [List.append_nil, List.append_nil] at hcode
  | binary op lhs rhs ihl ihr =>
    rw [names, List.forall_mem_append] at h
    have hopen : HasNames "(" [] := .of_plain (by decide +kernel)
    have hblank : HasNames " " [] := .of_plain (by decide +kernel)
    have hop : HasNames (operator op) [] := by cases op <;> exact .of_plain (by decide +kernel)
    have hcode := (((((hopen.append (ihl h.1)).append hblank).append hop).append hblank).append
      (ihr h.2)).append hclose
    simp only [List.nil_append, List.append_nil] at hcode
    exact hcode

theorem Expr.hasNames_condition {e : Expr} (h : ∀ x ∈ e.names, IsWord x) :
    HasNames e.renderCondition e.stdNames := by
  have hopen : HasNames "(" [] := .of_plain (by decide +kernel)
  have hclose : HasNames ")" [] := .of_plain (by decide +kernel)
  have hcode := hasNames h
  unfold renderCondition
  split
  · exact hcode
  · have hparens := (hopen.append hcode).append hclose
    rwa [List.nil_append, List.append_nil] at hparens

def CType.stdNames : CType → List String
  | string => ["string"]
  | _ => []

theorem CType.hasNames (ty : CType) : HasNames ty.render ty.stdNames := by
  cases ty with
  | string => exact .of_code (by decide +kernel)
  | int | longLong | bool | double | void => exact .of_plain (by decide +kernel)

mutual

def Stmt.stdNames : Stmt → List String
  | .declare ty _ init => ty.stdNames ++ init.stdNames
  | .print value => "cout" :: value.stdNames ++ ["endl"]
  | .ifThen condition thenArm => condition.stdNames ++ Stmt.stdNamesAll thenArm
  | .ifElse condition thenArm elseArm =>
    condition.stdNames ++ Stmt.stdNamesAll thenArm ++ Stmt.stdNamesAll elseArm
  | .block body => Stmt.stdNamesAll body

def Stmt.stdNamesAll : List Stmt → List String
  | [] => []
  | s :: body => s.stdNames ++ Stmt.stdNamesAll body

end

section Lines
variable {text : String} {names more : List String} {ls ms : List String}

theorem HasNames.line (h : HasNames text names) (depth : Nat) :
    HasNames (Cpp.line depth text) names := by
  have hblanks : HasNames (String.ofList (List.replicate (4 * depth) ' ')) [] := by
    refine .of_plain ?_
    intro c hc
    rw [String.toList_ofList] at hc
    rw [List.eq_of_mem_replicate hc]
    decide
  exact hblanks.append h

theorem HasNames.unlines_cons (h : HasNames text names) (hls : HasNames (Text.unlines ls) more) :
    HasNames (Text.unlines (text :: ls)) (names ++ more) := by
  have hend : HasNames "\n" [] := .of_plain (by decide +kernel)
  have hcode := (h.append hend).append hls
  rw [List.append_nil] at hcode
  simpa [Text.unlines] using hcode

theorem HasNames.unlines_nil : HasNames (Text.unlines []) [] := .of_plain (by decide +kernel)

theorem HasNames.unlines_append (hls : HasNames (Text.unlines ls) names)
    (hms : HasNames (Text.unlines ms) more) :
    HasNames (Text.unlines (ls ++ ms)) (names ++ more) := by
  have hcode := hls.append hms
  simpa [Text.unlines] using hcode

end Lines

/-- All names in code are words. -/
def Words (es : List Event) : Prop := ∀ x, .declare x ∈ es ∨ .use x ∈ es → IsWord x

section Words
variable {es fs : List Event}

theorem words_append : Words (es ++ fs) ↔ Words es ∧ Words fs := by
  simp only [Words, List.mem_append]
  grind

theorem words_braced : Words (Event.braced es) ↔ Words es := by
  simp [Words, Event.braced]

theorem words_uses {names : List String} : Words (names.map .use) ↔ ∀ x ∈ names, IsWord x := by
  simp [Words]

end Words

mutual

theorem Stmt.hasNames {s : Stmt} (h : Words s.events) (depth : Nat) :
    HasNames (Text.unlines (s.lines depth)) s.stdNames := by
  have hopen : HasNames " \x7b" [] := .of_plain (by decide +kernel)
  have hclose : HasNames (line depth "\x7d") [] := .line (.of_plain (by decide +kernel)) depth
  have hif : HasNames "if " [] := .of_plain (by decide +kernel)
  cases s with
  | declare ty name init =>
    rw [events, words_append, words_uses] at h
    have hname : HasNames name [] := .of_plain (h.2 name (.inl (by simp))).plain
    have hblank : HasNames " " [] := .of_plain (by decide +kernel)
    have hequals : HasNames " = " [] := .of_plain (by decide +kernel)
    have hend : HasNames ";" [] := .of_plain (by decide +kernel)
    have hcode := ((((ty.hasNames.append hblank).append hname).append hequals).append
      (Expr.hasNames h.1)).append hend
    simp only [List.append_nil] at hcode
    have hlines := (hcode.line depth).unlines_cons .unlines_nil
    rwa [List.append_nil] at hlines
  | print value =>
    rw [events, words_uses] at h
    have hout : HasNames "std::cout << " ["cout"] := .of_code (by decide +kernel)
    have hend : HasNames " << std::endl;" ["endl"] := .of_code (by decide +kernel)
    have hcode := (hout.append (Expr.hasNames h)).append hend
    have hlines := (hcode.line depth).unlines_cons .unlines_nil
    rwa [List.append_nil] at hlines
  | ifThen condition thenArm =>
    rw [events, words_append, words_braced, words_uses] at h
    have hhead := ((hif.append (Expr.hasNames_condition h.1)).append hopen).line depth
    have harm := Stmt.hasNamesAll h.2 (depth + 1)
    have hlines := (hhead.unlines_cons harm).unlines_append (hclose.unlines_cons .unlines_nil)
    simp only [List.nil_append, List.append_nil] at hlines
    exact hlines
  | ifElse condition thenArm elseArm =>
    rw [events, words_append, words_append, words_braced, words_braced, words_uses] at h
    have helse : HasNames (line depth "\x7d else \x7b") [] :=
      .line (.of_plain (by decide +kernel)) depth
    have hhead := ((hif.append (Expr.hasNames_condition h.1.1)).append hopen).line depth
    have hthenArm := Stmt.hasNamesAll h.1.2 (depth + 1)
    have helseArm := Stmt.hasNamesAll h.2 (depth + 1)
    have hlines := ((hhead.unlines_cons hthenArm).unlines_append
      (helse.unlines_cons helseArm)).unlines_append (hclose.unlines_cons .unlines_nil)
    simp only [List.nil_append, List.append_nil] at hlines
    exact hlines
  | block body =>
    rw [events, words_braced] at h
    have hhead : HasNames (line depth "\x7b") [] := .line (.of_plain (by decide +kernel)) depth
    have hlines := (hhead.unlines_cons (Stmt.hasNamesAll h (depth + 1))).unlines_append
      (hclose.unlines_cons .unlines_nil)
    simp only [List.nil_append, List.append_nil] at hlines
    exact hlines

theorem Stmt.hasNamesAll {body : List Stmt} (h : Words (Stmt.eventsAll body)) (depth : Nat) :
    HasNames (Text.unlines (Stmt.linesAll depth body)) (Stmt.stdNamesAll body) := by
  cases body with
  | nil => exact .unlines_nil
  | cons s body =>
    rw [Stmt.eventsAll, words_append] at h
    exact (Stmt.hasNames h.1 depth).unlines_append (Stmt.hasNamesAll h.2 depth)

end

/-- Expressions are written with the names of strings only. -/
theorem Expr.stdNames_subset (e : Expr) : e.stdNames ⊆ ["string", "to_string"] := by
  induction e with
  | int | double | string | bool | name => exact List.nil_subset _
  | stringOf value ih | toString value ih => exact List.cons_subset.mpr ⟨by simp, ih⟩
  | choice condition whenTrue whenFalse ihc iht ihf =>
    exact List.append_subset.mpr ⟨List.append_subset.mpr ⟨ihc, iht⟩, ihf⟩
  | binary op lhs rhs ihl ihr => exact List.append_subset.mpr ⟨ihl, ihr⟩

mutual

/-- Nothing in a statement changes how truth values print. -/
theorem Stmt.stdNames_subset (s : Stmt) : s.stdNames ⊆ ["string", "to_string", "cout", "endl"] := by
  have hexpr : ∀ e : Expr, e.stdNames ⊆ ["string", "to_string", "cout", "endl"] := fun e =>
    List.Subset.trans e.stdNames_subset (List.subset_append_left _ ["cout", "endl"])
  cases s with
  | declare ty name init =>
    refine List.append_subset.mpr ⟨?_, hexpr init⟩
    cases ty <;> simp [CType.stdNames]
  | print value =>
    refine List.append_subset.mpr ⟨List.cons_subset.mpr ⟨by simp, hexpr value⟩, by simp⟩
  | ifThen condition thenArm =>
    exact List.append_subset.mpr ⟨hexpr condition, stdNamesAll_subset thenArm⟩
  | ifElse condition thenArm elseArm =>
    exact List.append_subset.mpr ⟨List.append_subset.mpr
      ⟨hexpr condition, stdNamesAll_subset thenArm⟩, stdNamesAll_subset elseArm⟩
  | block body => exact stdNamesAll_subset body

theorem Stmt.stdNamesAll_subset (body : List Stmt) :
    Stmt.stdNamesAll body ⊆ ["string", "to_string", "cout", "endl"] := by
  cases body with
  | nil => exact List.nil_subset _
  | cons s body => exact List.append_subset.mpr ⟨s.stdNames_subset, stdNamesAll_subset body⟩

end

/-- The line that makes truth values print as words. -/
def boolalphaLine : String := line 1 "std::cout << std::boolalpha;"

namespace Program

/-- The lines of the statements, and the end of `main`. -/
def statementLines (p : Program) : List String := Stmt.linesAll 1 p.body ++ [line 1 "return 0;"]

/-- The lines between the braces of `main`. -/
def mainLines (p : Program) : List String :=
  (if p.headers.includes "iostream" then [boolalphaLine] else []) ++ p.statementLines

theorem lines_eq (p : Program) :
    p.lines = banner :: "" :: p.headers.lines ++ "int main() \x7b" :: p.mainLines ++ ["\x7d"] := by
  simp [lines, mainLines, statementLines, boolalphaLine]

/-- The code of a program is its lines, those of `main` between the braces. -/
theorem render_eq (p : Program) :
    p.render = Text.unlines (banner :: "" :: p.headers.lines ++ "int main() \x7b" ::
      p.mainLines ++ ["\x7d"]) := by
  rw [render, lines_eq]

/-- The standard names in `main`. -/
def stdNames (p : Program) : List String :=
  (if p.headers.includes "iostream" then ["cout", "boolalpha"] else []) ++ Stmt.stdNamesAll p.body

theorem hasNames_statementLines {p : Program} (h : Words (Stmt.eventsAll p.body)) :
    HasNames (Text.unlines p.statementLines) (Stmt.stdNamesAll p.body) := by
  have hreturn : HasNames (line 1 "return 0;") [] := .line (.of_plain (by decide +kernel)) 1
  have hlines := (Stmt.hasNamesAll h 1).unlines_append (hreturn.unlines_cons .unlines_nil)
  rwa [List.append_nil, List.append_nil] at hlines

theorem hasNames_mainLines {p : Program} (h : Words (Stmt.eventsAll p.body)) :
    HasNames (Text.unlines p.mainLines) p.stdNames := by
  have hboolalpha : HasNames boolalphaLine ["cout", "boolalpha"] :=
    .line (.of_code (by decide +kernel)) 1
  unfold mainLines stdNames
  refine HasNames.unlines_append ?_ (hasNames_statementLines h)
  split
  · exact hboolalpha.unlines_cons .unlines_nil
  · exact .unlines_nil

/-- One of these standard names stands in `main`. -/
def MentionsAny (p : Program) (names : List String) : Prop :=
  ∃ n ∈ names, Mentions p.mainLines ("std::" ++ n)

theorem not_mentions_boolalpha {p : Program} (h : Words (Stmt.eventsAll p.body)) :
    ¬ Mentions p.statementLines "std::boolalpha" := by
  have hsubset := Stmt.stdNamesAll_subset p.body
  have hiff : Mentions p.statementLines ("std::" ++ "boolalpha") ↔
      "boolalpha" ∈ Stmt.stdNamesAll p.body :=
    (hasNames_statementLines h).mentions_iff (List.Subset.trans hsubset (by decide)) (by decide)
  exact fun hmention => absurd (hsubset (hiff.mp hmention)) (by decide)

theorem mentionsAny_iff {p : Program} (h : Words (Stmt.eventsAll p.body)) {names : List String}
    (hnames : names ⊆ Cpp.stdNames) : p.MentionsAny names ↔ ∃ n ∈ names, n ∈ p.stdNames := by
  have hsubset : p.stdNames ⊆ Cpp.stdNames := by
    refine List.append_subset.mpr ⟨?_, ?_⟩
    · split <;> decide
    · exact List.Subset.trans (Stmt.stdNamesAll_subset p.body) (by decide)
  refine exists_congr fun n => and_congr_right fun hn => ?_
  exact (hasNames_mainLines h).mentions_iff hsubset (hnames hn)

/-- Strings in `main` come from statements. -/
theorem mentionsAny_strings_iff {p : Program} (h : Words (Stmt.eventsAll p.body)) :
    p.MentionsAny ["string", "to_string"] ↔
      ∃ n ∈ ["string", "to_string"], n ∈ Stmt.stdNamesAll p.body := by
  rw [mentionsAny_iff h (by decide)]
  refine exists_congr fun n => and_congr_right fun hn => ?_
  rw [stdNames, List.mem_append]
  refine or_iff_right ?_
  have hstreams : ∀ n ∈ ["string", "to_string"], n ∉ ["cout", "boolalpha"] := by decide
  split
  · exact hstreams n hn
  · simp

end Program

end HumanScript.Cpp
