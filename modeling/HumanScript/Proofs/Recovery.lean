import HumanScript.Proofs.Diagnostics
import HumanScript.Proofs.HeaderPlan
import HumanScript.Proofs.UniqueLines

/-! Programs are found again in their code. Lowering forgets only places and the difference between
an arm and a block with the arm in it; `Cpp.Program.source` takes code back to a program. -/
namespace HumanScript

theorem Binary64.isFinite_of_ofDecimal? {digits places : Nat} {x : Binary64}
    (h : ofDecimal? digits places = some x) : x.isFinite = true := by
  unfold ofDecimal? at h
  dsimp only at h
  split at h
  · rename_i hbits
    cases h
    generalize nearestBits digits (Nat.pow 10 places) = bits at hbits
    have hsmall : bits < 2 ^ 64 := Nat.lt_trans hbits (by decide)
    have hfield : bits / Nat.pow 2 52 < 2047 :=
      (Nat.div_lt_iff_lt_mul (by decide)).mpr hbits
    rw [isFinite, decide_eq_true_eq, exponentField, UInt64.toNat_ofNat_of_lt' hsmall]
    exact Nat.lt_of_le_of_lt (Nat.mod_le _ _) hfield
  · cases h

/-! What the parts of a text are like. -/

/-- Names are no keywords, numbers are finite, and there are no blanks in the name of a header. -/
structure Token.Written (t : Token) : Prop where
  name : t.kind = .identifier → Cpp.IsVariable t.text
  number : ∀ x, t.value = some (.float x) → x.isFinite = true
  path : t.kind ∈ Grammar.pathKinds → ∀ c ∈ t.text.toList, c ≠ ' ' ∧ c ≠ '\n'

theorem Token.Written.of_not_mem_pathKinds {t : Token} (hkind : t.kind ∉ Grammar.pathKinds)
    (hnumber : ∀ x, t.value = some (.float x) → x.isFinite = true) : t.Written where
  name hname := by
    rw [hname] at hkind
    exact absurd (by decide) hkind
  number := hnumber
  path hpath := absurd hpath hkind

namespace Lexeme

theorem ne_blank_of_continuesWord {c : Char} (h : continuesWord c = true) :
    c ≠ ' ' ∧ c ≠ '\n' := by
  constructor
  · rintro rfl
    cases h
  · rintro rfl
    cases h

theorem written_ofWord {c : Char} {more : List Char} (hc : startsWord c = true)
    (hmore : ∀ d ∈ more, continuesWord d = true) (lo : Nat) :
    ((ofWord (c :: more)).token lo).Written := by
  have hword : ∀ d ∈ c :: more, continuesWord d = true :=
    List.forall_mem_cons.mpr ⟨continuesWord_of_startsWord hc, hmore⟩
  have hpath : ∀ d ∈ (String.ofList (c :: more)).toList, d ≠ ' ' ∧ d ≠ '\n' := by
    rw [String.toList_ofList]
    exact fun d hd => ne_blank_of_continuesWord (hword d hd)
  by_cases hkey : ∃ k, (String.ofList (c :: more), k) ∈ Token.Kind.keywords
  · obtain ⟨k, hk⟩ := hkey
    have hkeywords : ∀ q ∈ Token.Kind.keywords, q.2 ≠ .identifier := by decide
    rw [ofWord_of_mem hk]
    refine ⟨fun hname => absurd hname (hkeywords _ hk), fun x hx => ?_, fun _ => hpath⟩
    simp only [token, keywordValue?] at hx
    split_ifs at hx <;> cases hx
  · rw [ofWord_of_not_mem (not_exists.mp hkey)]
    have hne : ∀ word k, (word, k) ∈ Token.Kind.keywords → String.ofList (c :: more) ≠ word := by
      rintro word k hmem rfl
      exact hkey ⟨k, hmem⟩
    refine ⟨fun _ => ⟨⟨c, more, String.toList_ofList, hc, hmore⟩, ?_, ?_⟩, ?_, fun _ => hpath⟩
    · exact hne "true" .trueKw (by decide)
    · exact hne "false" .falseKw (by decide)
    · rintro x ⟨⟩

theorem Front.written {l : Lexeme} {rest : List Char} (h : Front l rest) (lo : Nat) :
    (l.token lo).Written := by
  have hkinds : ∀ k ∈ [.float, .string, .unknown], k ∉ Grammar.pathKinds := by decide
  cases h with
  | @mark text _ kind hmark =>
    have hmarks : ∀ m ∈ marks, m.2 ≠ .identifier ∧ ' ' ∉ m.1 ∧ '\n' ∉ m.1 := by decide
    obtain ⟨hkind, hblank, hnewline⟩ := hmarks _ hmark
    refine ⟨fun hname => absurd hname hkind, ?_, fun _ c hc => ?_⟩
    · rintro x ⟨⟩
    · rw [token, String.toList_ofList] at hc
      exact ⟨ne_of_mem_of_not_mem hc hblank, ne_of_mem_of_not_mem hc hnewline⟩
  | word hc hmore _ => exact written_ofWord hc hmore lo
  | @int digits _ hdigits _ _ =>
    refine ⟨fun hname => ?_, ?_, fun _ c hc => ne_blank_of_continuesWord ?_⟩
    · cases hname
    · rintro x ⟨⟩
    · rw [token, text_ofDigits, String.toList_ofList] at hc
      simp [continuesWord, Char.isAlphanum, hdigits.2 c hc]
  | @float whole places _ _ _ _ =>
    refine .of_not_mem_pathKinds (hkinds .float (by simp)) ?_
    rintro x ⟨⟩
    cases hx : Binary64.ofDecimal? (decimalValue (whole ++ places)) places.length with
    | none => rfl
    | some x => exact Binary64.isFinite_of_ofDecimal? hx
  | string | openString | openEscape =>
    refine .of_not_mem_pathKinds (hkinds .string (by simp)) ?_
    rintro x ⟨⟩
  | unknown =>
    refine .of_not_mem_pathKinds (hkinds .unknown (by simp)) ?_
    rintro x ⟨⟩

end Lexeme

theorem Lexed.written_of_mem {src : String} {t : Token} (h : t ∈ (ofSource src).tokens) :
    t.Written := by
  obtain ⟨c, more, lo, rfl⟩ := exists_scan_of_mem_ofChars h
  exact (Lexeme.front_scan c more).written lo

/-- The names in an expression are no keywords, and its numbers are finite. -/
def Expr.Written : Expr Unit → Prop
  | literal value _ _ => ∀ x, value = .float x → x.isFinite = true
  | name ident _ _ => Cpp.IsVariable ident.name
  | binary _ lhs rhs _ _ => lhs.Written ∧ rhs.Written

inductive Stmt.Written : Stmt Unit → Prop where
  | declare {ty : Ty} {name : Ident} {init : Expr Unit} {span : Span}
      (hname : Cpp.IsVariable name.name) (hinit : init.Written) :
      Written (.declare ty name init span)
  | print {value : Expr Unit} {span : Span} (hvalue : value.Written) : Written (.print value span)
  | ifThen {condition : Expr Unit} {thenArm : Stmt Unit} {span : Span}
      (hcond : condition.Written) (hthen : Written thenArm) :
      Written (.ifThen condition thenArm span)
  | ifElse {condition : Expr Unit} {thenArm elseArm : Stmt Unit} {span : Span}
      (hcond : condition.Written) (hthen : Written thenArm) (helse : Written elseArm) :
      Written (.ifElse condition thenArm elseArm span)
  | block {body : List (Stmt Unit)} {span : Span} (hbody : ∀ s ∈ body, Written s) :
      Written (.block body span)

namespace Grammar

theorem PlacedExpr.written {layer : Layer} {ts : List Token} {e : Expr Unit}
    (h : PlacedExpr layer ts e) (hts : ∀ t ∈ ts, t.Written) : e.Written := by
  induction h with
  | ofSum _ ih => exact ih hts
  | compare _ _ _ ihl ihr =>
    rw [List.forall_mem_append, List.forall_mem_cons] at hts
    exact ⟨ihl hts.1, ihr hts.2.2⟩
  | ofFactor _ ih => exact ih hts
  | add _ _ _ ihl ihr =>
    rw [List.forall_mem_append, List.forall_mem_cons] at hts
    exact ⟨ihl hts.1, ihr hts.2.2⟩
  | @literal t v _ hv =>
    rintro x rfl
    exact (hts t (by simp)).number x hv
  | @name t ht => exact (hts t (by simp)).name ht
  | @group t u ts e _ _ _ ih =>
    rw [List.forall_mem_cons, List.forall_mem_append] at hts
    have he := ih hts.2.1
    cases e with
    | literal | name | binary => exact he

theorem PlacedStmt.written {ts : List Token} {s : Stmt Unit} (h : PlacedStmt ts s)
    (hts : ∀ t ∈ ts, t.Written) : s.Written := by
  induction h with
  | @declare t n a u ts ty init _ hn _ hinit _ =>
    simp only [List.forall_mem_cons, List.forall_mem_append] at hts
    exact .declare (hts.2.1.name hn) (hinit.written hts.2.2.2.1)
  | print _ hvalue _ =>
    simp only [List.forall_mem_cons, List.forall_mem_append] at hts
    exact .print (hvalue.written hts.2.1)
  | ifThen _ _ hcond _ _ ih =>
    simp only [List.forall_mem_cons, List.forall_mem_append] at hts
    exact .ifThen (hcond.written hts.2.2.1) (ih hts.2.2.2.2)
  | ifElse _ _ hcond _ _ _ _ iha ihb =>
    simp only [List.forall_mem_cons, List.forall_mem_append] at hts
    exact .ifElse (hcond.written hts.2.2.1) (iha hts.2.2.2.2.1) (ihb hts.2.2.2.2.2.2)
  | block _ _ _ ih =>
    simp only [List.forall_mem_cons, List.forall_mem_append] at hts
    refine .block (List.forall_mem_map.mpr fun p hp => ih p hp fun t ht => hts.2.1 t ?_)
    exact List.mem_flatten.mpr ⟨p.1, List.mem_map_of_mem hp, ht⟩

theorem PlacedImport.ne_blank {ts : List Token} {i : Import} (h : PlacedImport ts i)
    (hts : ∀ t ∈ ts, t.Written) : ∀ c ∈ i.header.toList, c ≠ ' ' ∧ c ≠ '\n' := by
  cases h with
  | @use t o u v path _ _ _ hpath _ _ =>
    intro c hc
    rw [String.toList_join, List.mem_flatMap] at hc
    obtain ⟨_, htext, hc⟩ := hc
    obtain ⟨p, hp, rfl⟩ := List.mem_map.mp htext
    exact (hts p (by simp [hp])).path (hpath p hp) c hc

theorem PlacedProgram.written {ts : List Token} {p : Program Unit} (h : PlacedProgram ts p)
    (hts : ∀ t ∈ ts, t.Written) :
    (∀ i ∈ p.imports, ∀ c ∈ i.header.toList, c ≠ ' ' ∧ c ≠ '\n') ∧
      ∀ s ∈ p.body, s.Written := by
  cases h with
  | mk himports hbody =>
    rw [List.forall_mem_append] at hts
    refine ⟨List.forall_mem_map.mpr fun i hi => ?_, List.forall_mem_map.mpr fun s hs => ?_⟩
    · exact (himports i hi).ne_blank fun t ht =>
        hts.1 t (List.mem_flatten.mpr ⟨i.1, List.mem_map_of_mem hi, ht⟩)
    · exact (hbody s hs).written fun t ht =>
        hts.2 t (List.mem_flatten.mpr ⟨s.1, List.mem_map_of_mem hs, ht⟩)

end Grammar

/-! Code is taken back to the program it was made from. -/

namespace Stmt
variable {α : Type}

/-- A block with the statement in it, or the statement itself if it is a block. -/
def asBlock : Stmt α → Stmt α
  | .block body span => .block body span
  | s => .block [s] s.span

mutual

/-- The same statement with a block for every arm in it. -/
def bracedArms : Stmt α → Stmt α
  | .declare ty name init span => .declare ty name init span
  | .print value span => .print value span
  | .ifThen condition thenArm span => .ifThen condition thenArm.bracedArms.asBlock span
  | .ifElse condition thenArm elseArm span =>
    .ifElse condition thenArm.bracedArms.asBlock elseArm.bracedArms.asBlock span
  | .block body span => .block (bracedArmsAll body) span

def bracedArmsAll : List (Stmt α) → List (Stmt α)
  | [] => []
  | s :: body => s.bracedArms :: bracedArmsAll body

end

theorem unplaced_asBlock (s : Stmt α) : s.asBlock.unplaced = s.unplaced.asBlock := by
  cases s with
  | block body span => rfl
  | declare | print | ifThen | ifElse => rfl

end Stmt

def Program.bracedArms {α : Type} (p : Program α) : Program α :=
  ⟨p.imports, Stmt.bracedArmsAll p.body⟩

namespace Cpp

def CType.source : CType → Ty
  | int => .number
  | longLong => .lnumber
  | string => .text
  | bool => .logic
  | double => .riel
  | void => .void

/-- Without what makes a string of something. -/
def Expr.source : Expr → HumanScript.Expr Unit
  | int value => .literal (.int value) .empty ()
  | double value => .literal (.float value) .empty ()
  | string value => .literal (.string value) .empty ()
  | bool value => .literal (.bool value) .empty ()
  | name x => .name ⟨x, .empty⟩ .empty ()
  | stringOf value | toString value | choice value _ _ => value.source
  | binary op lhs rhs => .binary op lhs.source rhs.source .empty ()

mutual

def Stmt.source : Stmt → HumanScript.Stmt Unit
  | .declare ty name init => .declare ty.source ⟨name, .empty⟩ init.source .empty
  | .print value => .print value.source .empty
  | .ifThen condition thenArm =>
    .ifThen condition.source (.block (Stmt.sourceAll thenArm) .empty) .empty
  | .ifElse condition thenArm elseArm =>
    .ifElse condition.source (.block (Stmt.sourceAll thenArm) .empty)
      (.block (Stmt.sourceAll elseArm) .empty) .empty
  | .block body => .block (Stmt.sourceAll body) .empty

def Stmt.sourceAll : List Stmt → List (HumanScript.Stmt Unit)
  | [] => []
  | s :: body => s.source :: Stmt.sourceAll body

end

def Program.source (q : Program) : HumanScript.Program Unit :=
  ⟨q.headers.named.map (⟨·, .empty⟩), Stmt.sourceAll q.body⟩

theorem Stmt.source_arm (q : Stmt) :
    .block (sourceAll q.arm) .empty = q.source.asBlock := by
  cases q with
  | block body => rfl
  | declare | print | ifThen | ifElse => rfl

end Cpp

theorem Ty.source_toCpp {ty : Ty} {t : Cpp.CType} (h : ty.toCpp = .ok t) : t.source = ty := by
  cases ty <;> cases h <;> rfl

/-- What the code of an operand becomes in an operation: it stays, or is made into a string. -/
inductive Cpp.Expr.Operand (code : Cpp.Expr) : Cpp.Expr → Prop where
  | plain : Operand code code
  | conversion (k : Cpp.Conversion) {d : Cpp.Expr} (h : Operand code d) : Operand code (k.apply d)

theorem Ty.operand_stringify (ty : Ty) (code : Cpp.Expr) : code.Operand (ty.stringify code) := by
  cases ty with
  | text => exact .plain
  | logic => exact .conversion .truth .plain
  | number | lnumber | riel | void | unknown => exact .conversion .number .plain

theorem Expr.toCpp_binary (op : BinaryOp) (lhs rhs : Expr Ty) (span : Span) (ty : Ty) :
    ∃ left right, (binary op lhs rhs span ty).toCpp = .binary op left right ∧
      lhs.toCpp.Operand left ∧ rhs.toCpp.Operand right := by
  have hstring : ∀ (e : Expr Ty) (concatenates : Prop) [Decidable concatenates],
      e.toCpp.Operand (if concatenates then e.info.stringify e.toCpp else e.toCpp) := by
    intro e concatenates _
    split
    · exact e.info.operand_stringify e.toCpp
    · exact .plain
  rw [toCpp]
  refine ⟨_, _, rfl, ?_, hstring rhs _⟩
  split
  · exact .conversion .literal (hstring lhs _)
  · exact hstring lhs _

namespace Cpp.Expr.Operand
variable {code d : Cpp.Expr}

theorem source_eq (h : code.Operand d) : d.source = code.source := by
  induction h with
  | plain => rfl
  | conversion k _ ih =>
    rw [← ih]
    cases k <;> rfl

theorem readable (h : code.Operand d) (hcode : code.Readable) : d.Readable := by
  induction h with
  | plain => exact hcode
  | conversion k _ ih => exact .conversion k ih

end Cpp.Expr.Operand

theorem ExprTyping.source_toCpp {Γ : Context} {e : Expr Unit} {e' : Expr Ty}
    (h : ExprTyping Γ e e') : e'.toCpp.source = e.unplaced := by
  induction h with
  | int | float | string | bool | name => rfl
  | @binary op lhs rhs lhs' rhs' span ty _ _ _ ihl ihr =>
    obtain ⟨left, right, hcode, hl, hr⟩ := Expr.toCpp_binary op lhs' rhs' span ty
    rw [hcode, Cpp.Expr.source, hl.source_eq, hr.source_eq, ihl, ihr]
    rfl

theorem ExprTyping.readable_toCpp {Γ : Context} {e : Expr Unit} {e' : Expr Ty}
    (h : ExprTyping Γ e e') (he : e.Written) : e'.toCpp.Readable := by
  induction h with
  | @int n => exact .atom (.int n)
  | @float x => exact .atom (.double (he x rfl))
  | @string s => exact .string s
  | @bool b => exact .atom (.bool b)
  | name => exact .atom (.name he)
  | @binary op lhs rhs lhs' rhs' span ty _ _ _ ihl ihr =>
    obtain ⟨left, right, hcode, hl, hr⟩ := Expr.toCpp_binary op lhs' rhs' span ty
    rw [hcode]
    exact .binary op (hl.readable (ihl he.1)) (hr.readable (ihr he.2))

theorem Cpp.Stmt.Readable.arm {q : Cpp.Stmt} (h : q.Readable) : ∀ s ∈ q.arm, s.Readable := by
  cases h with
  | block hbody => exact hbody
  | declare ty hx he => exact List.forall_mem_singleton.mpr (.declare ty hx he)
  | print he => exact List.forall_mem_singleton.mpr (.print he)
  | ifThen hc ha => exact List.forall_mem_singleton.mpr (.ifThen hc ha)
  | ifElse hc ha hb => exact List.forall_mem_singleton.mpr (.ifElse hc ha hb)

mutual

theorem StmtTyping.source_toCpp {Γ Δ : Context} {s : Stmt Unit} {s' : Stmt Ty} {q : Cpp.Stmt}
    (h : StmtTyping Γ s s' Δ) (hq : s'.toCpp = .ok q) : q.source = s.bracedArms.unplaced := by
  cases h with
  | declare _ hinit _ =>
    obtain ⟨t, ht, rfl⟩ := Stmt.toCpp_declare_iff.mp hq
    rw [Cpp.Stmt.source, hinit.source_toCpp, Ty.source_toCpp ht]
    rfl
  | print hvalue hvalued =>
    rw [Stmt.toCpp, if_pos hvalued] at hq
    cases hq
    rw [Cpp.Stmt.source, hvalue.source_toCpp]
    rfl
  | ifThen hcond _ hthen =>
    obtain ⟨a, ha, rfl⟩ := Stmt.toCpp_ifThen_iff.mp hq
    rw [Cpp.Stmt.source, a.source_arm, hcond.source_toCpp, hthen.source_toCpp ha,
      ← Stmt.unplaced_asBlock]
    rfl
  | ifElse hcond _ hthen helse =>
    obtain ⟨a, ha, b, hb, rfl⟩ := Stmt.toCpp_ifElse_iff.mp hq
    rw [Cpp.Stmt.source, a.source_arm, b.source_arm, hcond.source_toCpp, hthen.source_toCpp ha,
      helse.source_toCpp hb, ← Stmt.unplaced_asBlock, ← Stmt.unplaced_asBlock]
    rfl
  | block hbody =>
    obtain ⟨qs, hqs, rfl⟩ := Stmt.toCpp_block_iff.mp hq
    rw [Cpp.Stmt.source, hbody.source_allToCpp hqs, Stmt.bracedArms, Stmt.unplaced_block]

theorem BodyTyping.source_allToCpp {Γ Δ : Context} {body : List (Stmt Unit)}
    {body' : List (Stmt Ty)} {qs : List Cpp.Stmt} (h : BodyTyping Γ body body' Δ)
    (hqs : Stmt.allToCpp body' = .ok qs) :
    Cpp.Stmt.sourceAll qs = (Stmt.bracedArmsAll body).map Stmt.unplaced := by
  cases h with
  | nil =>
    cases hqs
    rfl
  | cons hs hbody =>
    obtain ⟨q, hq, rest, hrest, rfl⟩ := Stmt.allToCpp_cons_iff.mp hqs
    rw [Cpp.Stmt.sourceAll, hs.source_toCpp hq, hbody.source_allToCpp hrest, Stmt.bracedArmsAll,
      List.map_cons]

end

mutual

theorem StmtTyping.readable_toCpp {Γ Δ : Context} {s : Stmt Unit} {s' : Stmt Ty} {q : Cpp.Stmt}
    (h : StmtTyping Γ s s' Δ) (hs : s.Written) (hq : s'.toCpp = .ok q) : q.Readable := by
  cases h with
  | declare _ hinit _ =>
    obtain ⟨t, ht, rfl⟩ := Stmt.toCpp_declare_iff.mp hq
    cases hs with
    | declare hname hw => exact .declare t hname (hinit.readable_toCpp hw)
  | print hvalue hvalued =>
    rw [Stmt.toCpp, if_pos hvalued] at hq
    cases hq
    cases hs with
    | print hw => exact .print (hvalue.readable_toCpp hw)
  | ifThen hcond _ hthen =>
    obtain ⟨a, ha, rfl⟩ := Stmt.toCpp_ifThen_iff.mp hq
    cases hs with
    | ifThen hw hwa =>
      exact .ifThen (hcond.readable_toCpp hw) (hthen.readable_toCpp hwa ha).arm
  | ifElse hcond _ hthen helse =>
    obtain ⟨a, ha, b, hb, rfl⟩ := Stmt.toCpp_ifElse_iff.mp hq
    cases hs with
    | ifElse hw hwa hwb =>
      exact .ifElse (hcond.readable_toCpp hw) (hthen.readable_toCpp hwa ha).arm
        (helse.readable_toCpp hwb hb).arm
  | block hbody =>
    obtain ⟨qs, hqs, rfl⟩ := Stmt.toCpp_block_iff.mp hq
    cases hs with
    | block hw => exact .block (hbody.readable_allToCpp hw hqs)

theorem BodyTyping.readable_allToCpp {Γ Δ : Context} {body : List (Stmt Unit)}
    {body' : List (Stmt Ty)} {qs : List Cpp.Stmt} (h : BodyTyping Γ body body' Δ)
    (hw : ∀ s ∈ body, s.Written) (hqs : Stmt.allToCpp body' = .ok qs) : ∀ q ∈ qs, q.Readable := by
  cases h with
  | nil =>
    cases hqs
    simp
  | cons hs hbody =>
    obtain ⟨q, hq, rest, hrest, rfl⟩ := Stmt.allToCpp_cons_iff.mp hqs
    rw [List.forall_mem_cons] at hw
    exact List.forall_mem_cons.mpr
      ⟨hs.readable_toCpp hw.1 hq, hbody.readable_allToCpp hw.2 hrest⟩

end

namespace Cpp.Headers

theorem Readable.require {h : Headers} (hh : h.Readable) {header reason : String}
    (hheader : '\n' ∉ header.toList) (hreason : '\n' ∉ reason.toList) :
    (h.require header reason).Readable := by
  unfold Headers.require
  split
  · exact hh
  · exact ⟨hh.named,
      List.forall_mem_append.mpr ⟨hh.added, List.forall_mem_singleton.mpr ⟨hheader, hreason⟩⟩⟩

theorem readable_ofProgram {p : HumanScript.Program Ty}
    (h : ∀ i ∈ p.imports, ∀ c ∈ i.header.toList, c ≠ ' ' ∧ c ≠ '\n') : (ofProgram p).Readable := by
  have hnamed : Readable ⟨p.imports.map Import.header, []⟩ :=
    ⟨List.forall_mem_map.mpr h, by simp⟩
  have hprint : ∀ h : Headers, h.Readable →
      (((h.require "iostream" "Auto-included for 'says'").require
        "iomanip" "Auto-included for std::boolalpha").require
        "string" "Auto-included for std::to_string").Readable := fun h hh =>
    ((hh.require (by decide) (by decide)).require (by decide) (by decide)).require (by decide)
      (by decide)
  unfold ofProgram
  dsimp only
  split_ifs
  · exact hprint _ (hnamed.require (by decide) (by decide))
  · exact hprint _ hnamed
  · exact hnamed.require (by decide) (by decide)
  · exact hnamed

end Cpp.Headers

namespace Program

/-- The code of an accepted program: it can be read in one way only, and read back it is the program
with a block for every arm. -/
theorem exists_code {src : String} {p : Program Unit} {c : Checked (Program Ty)}
    (hp : (Lexed.ofSource src).program = .ok p) (h : p.check = .ok c) :
    ∃ q, c.value.toCpp = .ok q ∧ q.Readable ∧ q.source = p.bracedArms.unplaced := by
  obtain ⟨Δ, qs, hbody, hqs, hq⟩ := exists_toCpp_of_check h
  have htyped : ProgramTyping p c.value := check_iff.mp ⟨c, h, rfl⟩
  obtain ⟨hplaced, -⟩ := Lexed.placed_of_program (fun t ht => Lexed.valueFits_of_mem ht) hp
  obtain ⟨himports, hwritten⟩ := hplaced.written fun t ht => Lexed.written_of_mem ht
  refine ⟨_, hq, ⟨?_, hbody.readable_allToCpp hwritten hqs⟩, ?_⟩
  · rw [← htyped.imports_eq] at himports
    exact Cpp.Headers.readable_ofProgram himports
  · have hnamed : (Cpp.Headers.ofProgram c.value).named = p.imports.map Import.header := by
      rw [named_headers, htyped.imports_eq]
    rw [Cpp.Program.source, hnamed, hbody.source_allToCpp hqs, List.map_map]
    rfl

/-- Lowering loses nothing. Two accepted programs with the same code are the same program, up to
places and to a block around an arm: they name the same headers, declare the same variables with the
same types, and have the same literals, operators, operands, blocks and arms. -/
theorem same_of_same_code {src src' : String} {p p' : Program Unit} {c c' : Checked (Program Ty)}
    (hp : (Lexed.ofSource src).program = .ok p) (hp' : (Lexed.ofSource src').program = .ok p')
    (h : p.check = .ok c) (h' : p'.check = .ok c') :
    ∃ q q', c.value.toCpp = .ok q ∧ c'.value.toCpp = .ok q' ∧
      (q.render = q'.render → p.bracedArms.unplaced = p'.bracedArms.unplaced) := by
  obtain ⟨q, hq, hread, hsource⟩ := exists_code hp h
  obtain ⟨q', hq', hread', hsource'⟩ := exists_code hp' h'
  refine ⟨q, q', hq, hq', fun hcode => ?_⟩
  obtain ⟨hnamed, hbody⟩ := hread.eq_of_render hread' hcode
  calc p.bracedArms.unplaced = q.source := hsource.symm
    _ = q'.source := by rw [Cpp.Program.source, Cpp.Program.source, hnamed, hbody]
    _ = p'.bracedArms.unplaced := hsource'

theorem same_of_same_code_braces :
    ∃ p p' c c' q q', (Lexed.ofSource
        "use <a/b.h>; if (1 ?= 2) says \"a\" + 2.5; else says (1 + 2) + 3;").program = .ok p ∧
      (Lexed.ofSource
        "use<a / b.h>;if(1?=2)\x7bsays\"\\a\"+2.50;\x7d else says 1+2+3;").program = .ok p' ∧
      p.check = .ok c ∧ p'.check = .ok c' ∧ c.value.toCpp = .ok q ∧ c'.value.toCpp = .ok q' ∧
      q.render = q'.render ∧ p.bracedArms.unplaced = p'.bracedArms.unplaced := by
  have hrun : (compile
        "use <a/b.h>; if (1 ?= 2) says \"a\" + 2.5; else says (1 + 2) + 3;"
      ).result.toOption.any (fun code => (compile
        "use<a / b.h>;if(1?=2)\x7bsays\"\\a\"+2.50;\x7d else says 1+2+3;"
      ).result.toOption = some code) = true := by
    decide +kernel
  simp only [Option.any_eq_true, decide_eq_true_eq, Except.toOption_eq_some_iff, compile_eq_ok_iff,
    check_eq_ok_iff, parse_result, Except.mapError_eq_ok_iff] at hrun
  obtain ⟨_, ⟨c, q, ⟨p, hp, hc⟩, hq, rfl⟩, c', q', ⟨p', hp', hc'⟩, hq', hrender⟩ := hrun
  obtain ⟨r, r', hr, hr', hprograms⟩ := same_of_same_code hp hp' hc hc'
  cases hq.symm.trans hr
  cases hq'.symm.trans hr'
  exact ⟨p, p', c, c', q, q', hp, hp', hc, hc', hq, hq', hrender.symm, hprograms hrender.symm⟩

end Program

end HumanScript
