import HumanScript.Proofs.UniqueLines

/-! The pieces of code, as C++ finds them in the text: words and numbers, string literals, and marks.
What is found in `main` are the pieces of its statements, in order. -/
namespace HumanScript.Cpp

theorem length_of_readInside {cs value rest : List Char}
    (h : readInside cs = some (value, rest)) : rest.length < cs.length := by
  induction cs using readInside.induct generalizing value rest with
  | case1 =>
    rw [readInside] at h
    cases h
  | case2 tail =>
    rw [readInside] at h
    cases h
    exact Nat.lt_add_one _
  | case3 tail =>
    rw [readInside] at h
    cases h
  | case4 cs ih =>
    cases hescape : readEscape cs with
    | none =>
      rw [readInside, hescape] at h
      cases h
    | some r =>
      obtain ⟨c, taken⟩ := r
      rw [readInside_backslash hescape, Option.map_eq_some_iff] at h
      obtain ⟨inside, hinside, hsame⟩ := h
      obtain ⟨-, rfl⟩ := Prod.mk.inj hsame
      have hshort : inside.2.length < (cs.drop taken).length := ih taken hinside
      rw [List.length_drop] at hshort
      rw [List.length_cons]
      omega
  | case5 c cs hquote hnewline hslash ih =>
    rw [readInside_plain hquote hslash hnewline, Option.map_eq_some_iff] at h
    obtain ⟨inside, hinside, hsame⟩ := h
    obtain ⟨-, rfl⟩ := Prod.mk.inj hsame
    exact Nat.lt_succ_of_lt (ih hinside)

inductive Piece where
  /-- A run of the characters of words and numbers. -/
  | word (text : List Char)
  | text (value : String)
  | mark (c : Char)
deriving DecidableEq

/-- A character between pieces. -/
def isGap (c : Char) : Bool := c = ' ' || c = '\n'

/-- A character that is a piece of its own. -/
def isMark (c : Char) : Bool := c != '"' && !isAtomic c && !isGap c

/-- The pieces of a text. A quote that opens no literal counts as a mark. -/
def readPieces : List Char → List Piece
  | [] => []
  | c :: cs =>
    if c = '"' then
      match _h : readInside cs with
      | some (value, rest) => .text (String.ofList value) :: readPieces rest
      | none => .mark c :: readPieces cs
    else if isAtomic c then
      .word (c :: cs.takeWhile isAtomic) :: readPieces (cs.dropWhile isAtomic)
    else if isGap c then readPieces cs
    else .mark c :: readPieces cs
termination_by cs => cs.length
decreasing_by
  · exact Nat.lt_succ_of_lt (length_of_readInside ‹_›)
  · exact Nat.lt_add_one _
  · exact Nat.lt_succ_of_le (List.dropWhile_sublist _).length_le
  · exact Nat.lt_add_one _
  · exact Nat.lt_add_one _

section Pieces
variable {c : Char} {word rest : List Char}

theorem readPieces_literal (s : String) (rest : List Char) :
    readPieces ((stringLiteral s).toList ++ rest) = .text s :: readPieces rest := by
  rw [toList_stringLiteral, readPieces, if_pos rfl]
  split
  · rename_i value rest' h
    rw [readInside_escaped, Option.some.injEq, Prod.mk.injEq] at h
    rw [← h.1, ← h.2, String.ofList_toList]
  · rename_i h
    rw [readInside_escaped] at h
    cases h

/-- A word ends where no character of words and numbers follows. -/
theorem readPieces_word (hne : word ≠ []) (hword : ∀ c ∈ word, isAtomic c = true)
    (hrest : ∀ c ∈ rest.head?, isAtomic c = false) :
    readPieces (word ++ rest) = .word word :: readPieces rest := by
  obtain ⟨c, more, rfl⟩ := List.exists_cons_of_ne_nil hne
  rw [List.forall_mem_cons] at hword
  obtain ⟨htake, hdrop⟩ := Lexeme.takeWhile_run hword.2 hrest
  have hquote : c ≠ '"' := by
    rintro rfl
    cases hword.1
  rw [List.cons_append, readPieces, if_neg hquote, if_pos hword.1, htake, hdrop]

theorem readPieces_gap (h : isGap c = true) (rest : List Char) :
    readPieces (c :: rest) = readPieces rest := by
  have hgap : c = ' ' ∨ c = '\n' := by simpa [isGap] using h
  rcases hgap with rfl | rfl
  · rw [readPieces]
    rfl
  · rw [readPieces]
    rfl

theorem readPieces_mark (h : isMark c = true) (rest : List Char) :
    readPieces (c :: rest) = .mark c :: readPieces rest := by
  simp only [isMark, Bool.and_eq_true, Bool.not_eq_true', bne_iff_ne] at h
  rw [readPieces, if_neg h.1.1, h.1.2, h.2]
  rfl

theorem readPieces_gaps {gaps : List Char} (h : ∀ c ∈ gaps, isGap c = true) (rest : List Char) :
    readPieces (gaps ++ rest) = readPieces rest := by
  induction gaps with
  | nil => rfl
  | cons c gaps ih =>
    rw [List.forall_mem_cons] at h
    rw [List.cons_append, readPieces_gap h.1, ih h.2]

/-- Blanks at the front of a line are passed over. -/
theorem readPieces_line (depth : Nat) (t : String) (rest : List Char) :
    readPieces ((line depth t).toList ++ rest) = readPieces (t.toList ++ rest) := by
  have hblanks : ∀ c ∈ List.replicate (4 * depth) ' ', isGap c = true := by
    intro c hc
    rw [List.eq_of_mem_replicate hc]
    rfl
  rw [line, Text.indented, String.toList_append, String.toList_ofList, List.append_assoc,
    readPieces_gaps hblanks]

end Pieces

/-! Expressions. -/

/-- A standard name. -/
def stdPieces (name : String) : List Piece :=
  [.word "std".toList, .mark ':', .mark ':', .word name.toList]

theorem readPieces_std {name : String} (hne : name.toList ≠ [])
    (hname : ∀ c ∈ name.toList, isAtomic c = true) {rest : List Char}
    (hrest : ∀ c ∈ rest.head?, isAtomic c = false) :
    readPieces ("std::".toList ++ (name.toList ++ rest)) = stdPieces name ++ readPieces rest := by
  have hstd : ∀ c ∈ "std".toList, isAtomic c = true := List.all_eq_true.mp rfl
  have hcolon : ∀ cs, ∀ c ∈ (':' :: cs).head?, isAtomic c = false := by
    rintro cs c ⟨⟩
    rfl
  change readPieces ("std".toList ++ ':' :: ':' :: (name.toList ++ rest)) = _
  rw [readPieces_word (by decide) hstd (hcolon _), readPieces_mark rfl,
    readPieces_mark rfl, readPieces_word hne hname hrest]
  rfl

def operatorPieces (op : BinaryOp) : List Piece := (operator op).toList.map .mark

namespace Expr

def pieces : Expr → List Piece
  | int value => [.word (int value).render.toList]
  | double value => [.word (double value).render.toList]
  | string value => [.text value]
  | bool value => [.word (bool value).render.toList]
  | name x => [.word x.toList]
  | stringOf value => stdPieces "string" ++ .mark '(' :: (value.pieces ++ [.mark ')'])
  | toString value => stdPieces "to_string" ++ .mark '(' :: (value.pieces ++ [.mark ')'])
  | choice condition whenTrue whenFalse =>
    condition.pieces ++ .mark '?' :: (whenTrue.pieces ++ .mark ':' :: whenFalse.pieces)
  | binary op lhs rhs =>
    .mark '(' :: (lhs.pieces ++ (operatorPieces op ++ (rhs.pieces ++ [.mark ')'])))

/-- In the parentheses that a condition gets. -/
def conditionPieces : Expr → List Piece
  | binary op lhs rhs => (binary op lhs rhs).pieces
  | e => .mark '(' :: (e.pieces ++ [.mark ')'])

theorem IsAtom.pieces_eq {e : Expr} (h : IsAtom e) : e.pieces = [.word e.render.toList] := by
  cases h <;> rfl

theorem IsAtom.readPieces {e : Expr} (h : IsAtom e) {rest : List Char} (hrest : Ends rest) :
    readPieces (e.render.toList ++ rest) = e.pieces ++ Cpp.readPieces rest := by
  obtain ⟨c, more, hc, -⟩ := h.exists_head
  have hne : e.render.toList ≠ [] := by
    rw [hc]
    exact List.cons_ne_nil c more
  rw [readPieces_word hne h.atomic hrest.head?_not_isAtomic, h.pieces_eq]
  rfl

theorem toList_stringOf (v : Expr) (rest : List Char) :
    (stringOf v).render.toList ++ rest =
      "std::".toList ++ ("string".toList ++ '(' :: (v.render.toList ++ ')' :: rest)) := by
  rw [render_stringOf]
  simp only [String.toList_append, List.append_assoc]
  rfl

theorem toList_toString (v : Expr) (rest : List Char) :
    (toString v).render.toList ++ rest =
      "std::".toList ++ ("to_string".toList ++ '(' :: (v.render.toList ++ ')' :: rest)) := by
  rw [render_toString]
  simp only [String.toList_append, List.append_assoc]
  rfl

theorem toList_choice (v l r : Expr) (rest : List Char) :
    (choice v l r).render.toList ++ rest =
      v.render.toList ++ ' ' :: '?' :: ' ' :: (l.render.toList ++ ' ' :: ':' :: ' ' ::
        (r.render.toList ++ rest)) := by
  rw [render_choice]
  simp only [String.toList_append, List.append_assoc]
  rfl

/-- The pieces of an expression are found wherever it stands. -/
theorem Readable.readPieces {e : Expr} (h : Readable e) {rest : List Char} (hrest : Ends rest) :
    readPieces (e.render.toList ++ rest) = e.pieces ++ Cpp.readPieces rest := by
  have hstring : ∀ c ∈ "string".toList, isAtomic c = true := List.all_eq_true.mp rfl
  have htoString : ∀ c ∈ "to_string".toList, isAtomic c = true := List.all_eq_true.mp rfl
  have hparen : ∀ cs, ∀ c ∈ ('(' :: cs).head?, isAtomic c = false := by
    rintro cs c ⟨⟩
    rfl
  induction h generalizing rest with
  | atom ha => exact ha.readPieces hrest
  | string s => exact readPieces_literal s rest
  | @conversion k v _ ih =>
    cases k with
    | literal =>
      rw [Conversion.apply, toList_stringOf, readPieces_std (by decide) hstring (hparen _),
        readPieces_mark rfl, ih (ends_paren _), readPieces_mark rfl]
      simp [pieces]
    | truth =>
      rw [Conversion.apply, toList_stringOf, readPieces_std (by decide) hstring (hparen _),
        readPieces_mark rfl, toList_choice, ih (ends_blank _), readPieces_gap rfl,
        readPieces_mark rfl, readPieces_gap rfl, render_string, readPieces_literal,
        readPieces_gap rfl, readPieces_mark rfl, readPieces_gap rfl, render_string,
        readPieces_literal, readPieces_mark rfl]
      simp [pieces]
    | number =>
      rw [Conversion.apply, toList_toString, readPieces_std (by decide) htoString (hparen _),
        readPieces_mark rfl, ih (ends_paren _), readPieces_mark rfl]
      simp [pieces]
  | binary op _ _ ihl ihr =>
    have hop : ∀ cs, Cpp.readPieces ((operator op).toList ++ ' ' :: cs) =
        operatorPieces op ++ Cpp.readPieces cs := by
      intro cs
      cases op with
      | add =>
        change Cpp.readPieces ('+' :: ' ' :: cs) = _
        rw [readPieces_mark rfl, readPieces_gap rfl]
        rfl
      | eq =>
        change Cpp.readPieces ('=' :: '=' :: ' ' :: cs) = _
        rw [readPieces_mark rfl, readPieces_mark rfl, readPieces_gap rfl]
        rfl
    rw [toList_binary, readPieces_mark rfl, ihl (ends_blank _), readPieces_gap rfl, hop,
      ihr (ends_paren _), readPieces_mark rfl]
    simp [pieces]

theorem Readable.readPieces_condition {c : Expr} (hc : Readable c) {rest : List Char}
    (hrest : Ends rest) : Cpp.readPieces (c.renderCondition.toList ++ rest) =
      c.conditionPieces ++ Cpp.readPieces rest := by
  have hplain : Cpp.readPieces (("(" ++ c.render ++ ")").toList ++ rest) =
      .mark '(' :: (c.pieces ++ [.mark ')']) ++ Cpp.readPieces rest := by
    rw [String.toList_append, String.toList_append, List.append_assoc, List.append_assoc]
    change Cpp.readPieces ('(' :: (c.render.toList ++ ')' :: rest)) = _
    rw [readPieces_mark rfl, hc.readPieces (ends_paren _), readPieces_mark rfl]
    simp
  cases c with
  | binary op l r => exact hc.readPieces hrest
  | int | double | string | bool | name | stringOf | toString | choice => exact hplain

end Expr

/-! Lines and statements. -/

theorem readPieces_keyword {w : String} (hne : w.toList ≠ []) (hw : w.toList.all isAtomic = true)
    (rest : List Char) :
    readPieces (w.toList ++ ' ' :: rest) = .word w.toList :: readPieces rest := by
  have hblank : ∀ c ∈ (' ' :: rest).head?, isAtomic c = false := by
    rintro c ⟨⟩
    rfl
  rw [readPieces_word hne (List.all_eq_true.mp hw) hblank, readPieces_gap rfl]

def CType.pieces : CType → List Piece
  | int => [.word "int".toList]
  | longLong => [.word "long".toList, .word "long".toList]
  | string => stdPieces "string"
  | bool => [.word "bool".toList]
  | double => [.word "double".toList]
  | void => [.word "void".toList]

theorem CType.readPieces (ty : CType) (rest : List Char) :
    readPieces (ty.render.toList ++ ' ' :: rest) = ty.pieces ++ Cpp.readPieces rest := by
  cases ty with
  | int | bool | double | void => exact readPieces_keyword (by decide) rfl rest
  | longLong =>
    change Cpp.readPieces ("long".toList ++ ' ' :: ("long".toList ++ ' ' :: rest)) = _
    rw [readPieces_keyword (by decide) rfl, readPieces_keyword (by decide) rfl]
    rfl
  | string =>
    have hstring : ∀ c ∈ "string".toList, isAtomic c = true := List.all_eq_true.mp rfl
    have hblank : ∀ c ∈ (' ' :: rest).head?, isAtomic c = false := by
      rintro c ⟨⟩
      rfl
    change Cpp.readPieces ("std::".toList ++ ("string".toList ++ ' ' :: rest)) = _
    rw [readPieces_std (by decide) hstring hblank, readPieces_gap rfl]
    rfl

namespace Opening

def pieces : Opening → List Piece
  | declare ty x e => ty.pieces ++ .word x.toList :: .mark '=' :: (e.pieces ++ [.mark ';'])
  | print e =>
    stdPieces "cout" ++ .mark '<' :: .mark '<' :: (e.pieces ++
      .mark '<' :: .mark '<' :: (stdPieces "endl" ++ [.mark ';']))
  | test c => .word "if".toList :: (c.conditionPieces ++ [.mark '\x7b'])
  | brace => [.mark '\x7b']

theorem Readable.readPieces {o : Opening} (h : o.Readable) (rest : List Char) :
    readPieces (o.text.toList ++ '\n' :: rest) = o.pieces ++ Cpp.readPieces rest := by
  cases h with
  | @declare ty x e hx he =>
    obtain ⟨c, more, hc, -⟩ := hx.chars
    have hne : x.toList ≠ [] := by
      rw [hc]
      exact List.cons_ne_nil c more
    have hword : x.toList.all isAtomic = true := List.all_eq_true.mpr hx.atomic
    rw [text]
    simp only [String.toList_append, List.append_assoc]
    change Cpp.readPieces (ty.render.toList ++ ' ' :: (x.toList ++ ' ' :: '=' :: ' ' ::
      (e.render.toList ++ ';' :: '\n' :: rest))) = _
    rw [ty.readPieces, readPieces_keyword hne hword, readPieces_mark rfl, readPieces_gap rfl,
      he.readPieces (ends_semicolon _), readPieces_mark rfl, readPieces_gap rfl]
    simp [pieces]
  | @print e he =>
    have hcout : ∀ c ∈ "cout".toList, isAtomic c = true := List.all_eq_true.mp rfl
    have hendl : ∀ c ∈ "endl".toList, isAtomic c = true := List.all_eq_true.mp rfl
    have hends : ∀ cs, Ends cs → ∀ c ∈ cs.head?, isAtomic c = false := fun _ hcs =>
      hcs.head?_not_isAtomic
    rw [text]
    simp only [String.toList_append, List.append_assoc]
    change Cpp.readPieces ("std::".toList ++ ("cout".toList ++ ' ' :: '<' :: '<' :: ' ' ::
      (e.render.toList ++ ' ' :: '<' :: '<' :: ' ' :: ("std::".toList ++ ("endl".toList ++
        ';' :: '\n' :: rest))))) = _
    rw [readPieces_std (by decide) hcout (hends _ (ends_blank _)), readPieces_gap rfl,
      readPieces_mark rfl, readPieces_mark rfl, readPieces_gap rfl, he.readPieces (ends_blank _),
      readPieces_gap rfl, readPieces_mark rfl, readPieces_mark rfl, readPieces_gap rfl,
      readPieces_std (by decide) hendl (hends _ (ends_semicolon _)), readPieces_mark rfl,
      readPieces_gap rfl]
    simp [pieces]
  | @test c hc =>
    rw [text]
    simp only [String.toList_append, List.append_assoc]
    change Cpp.readPieces ("if".toList ++ ' ' :: (c.renderCondition.toList ++
      ' ' :: '\x7b' :: '\n' :: rest)) = _
    rw [readPieces_keyword (by decide) rfl, hc.readPieces_condition (ends_blank _),
      readPieces_gap rfl, readPieces_mark rfl, readPieces_gap rfl]
    simp [pieces]
  | brace =>
    change Cpp.readPieces ('\x7b' :: '\n' :: rest) = _
    rw [readPieces_mark rfl, readPieces_gap rfl]
    rfl

end Opening

mutual

def Stmt.pieces : Stmt → List Piece
  | .declare ty x e => (Opening.declare ty x e).pieces
  | .print e => (Opening.print e).pieces
  | .ifThen c a => (Opening.test c).pieces ++ (Stmt.piecesAll a ++ [.mark '\x7d'])
  | .ifElse c a b =>
    (Opening.test c).pieces ++ (Stmt.piecesAll a ++ .mark '\x7d' :: .word "else".toList ::
      .mark '\x7b' :: (Stmt.piecesAll b ++ [.mark '\x7d']))
  | .block body => Opening.brace.pieces ++ (Stmt.piecesAll body ++ [.mark '\x7d'])

def Stmt.piecesAll : List Stmt → List Piece
  | [] => []
  | s :: body => s.pieces ++ Stmt.piecesAll body

end

/-- The pieces of lines, whatever comes after them. -/
def HasPieces (lines : List String) (ps : List Piece) : Prop :=
  ∀ rest, readPieces ((Text.unlines lines).toList ++ rest) = ps ++ readPieces rest

namespace HasPieces
variable {ls ms : List String} {ps qs : List Piece}

theorem nil : HasPieces [] [] := fun _ => rfl

theorem append (hls : HasPieces ls ps) (hms : HasPieces ms qs) :
    HasPieces (ls ++ ms) (ps ++ qs) := by
  have hlines : (Text.unlines (ls ++ ms)).toList =
      (Text.unlines ls).toList ++ (Text.unlines ms).toList := by
    simp [Text.unlines]
  intro rest
  rw [hlines, List.append_assoc, hls, hms, List.append_assoc]

theorem line {t : String} (h : ∀ rest, readPieces (t.toList ++ '\n' :: rest) =
    ps ++ readPieces rest) (depth : Nat) : HasPieces [line depth t] ps := by
  intro rest
  rw [Text.toList_unlines_cons, List.append_assoc, readPieces_line]
  exact h rest

theorem close (depth : Nat) : HasPieces [Cpp.line depth "\x7d"] [.mark '\x7d'] := by
  refine line (fun rest => ?_) depth
  change readPieces ('\x7d' :: '\n' :: rest) = _
  rw [readPieces_mark rfl, readPieces_gap rfl]
  rfl

theorem else_ (depth : Nat) : HasPieces [Cpp.line depth "\x7d else \x7b"]
    [.mark '\x7d', .word "else".toList, .mark '\x7b'] := by
  refine line (fun rest => ?_) depth
  change readPieces ('\x7d' :: ' ' :: ("else".toList ++ ' ' :: '\x7b' :: '\n' :: rest)) = _
  rw [readPieces_mark rfl, readPieces_gap rfl, readPieces_keyword (by decide) rfl,
    readPieces_mark rfl, readPieces_gap rfl]
  rfl

end HasPieces

namespace Stmt

theorem hasPieces_linesAll_of_forall {body : List Stmt} {depth : Nat}
    (hstmt : ∀ s ∈ body, HasPieces (s.lines depth) s.pieces) :
    HasPieces (linesAll depth body) (piecesAll body) := by
  induction body with
  | nil => exact .nil
  | cons s body ih =>
    exact (hstmt s (by simp)).append (ih fun t ht => hstmt t (List.mem_cons_of_mem _ ht))

theorem Readable.hasPieces {s : Stmt} (h : Readable s) (depth : Nat) :
    HasPieces (s.lines depth) s.pieces := by
  have hopening : ∀ {o : Opening} (_ : o.Readable) (d : Nat),
      HasPieces [line d o.text] o.pieces := fun ho d => .line ho.readPieces d
  induction h generalizing depth with
  | declare ty hx he => exact hopening (.declare ty hx he) depth
  | print he => exact hopening (.print he) depth
  | ifThen hc ha ih =>
    have harm := hasPieces_linesAll_of_forall fun t ht => ih t ht (depth + 1)
    rw [lines_eq]
    exact (hopening (.test hc) depth).append (harm.append (.close depth))
  | ifElse hc ha hb iha ihb =>
    have hthen := hasPieces_linesAll_of_forall fun t ht => iha t ht (depth + 1)
    have helse := hasPieces_linesAll_of_forall fun t ht => ihb t ht (depth + 1)
    rw [lines_eq]
    exact (hopening (.test hc) depth).append
      (hthen.append ((HasPieces.else_ depth).append (helse.append (.close depth))))
  | block hbody ih =>
    have hinside := hasPieces_linesAll_of_forall fun t ht => ih t ht (depth + 1)
    rw [lines_eq]
    exact (hopening .brace depth).append (hinside.append (.close depth))

end Stmt

namespace Program

/-- The pieces between the braces of `main`. -/
def mainPieces (q : Program) : List Piece :=
  (if q.headers.includes "iostream" then
    stdPieces "cout" ++ .mark '<' :: .mark '<' :: (stdPieces "boolalpha" ++ [.mark ';'])
    else []) ++ (Stmt.piecesAll q.body ++ [.word "return".toList, .word "0".toList, .mark ';'])

theorem hasPieces_boolalphaLine : HasPieces [boolalphaLine]
    (stdPieces "cout" ++ .mark '<' :: .mark '<' :: (stdPieces "boolalpha" ++ [.mark ';'])) := by
  have hcout : ∀ c ∈ "cout".toList, isAtomic c = true := List.all_eq_true.mp rfl
  have hboolalpha : ∀ c ∈ "boolalpha".toList, isAtomic c = true := List.all_eq_true.mp rfl
  refine .line (fun rest => ?_) 1
  change readPieces ("std::".toList ++ ("cout".toList ++ ' ' :: '<' :: '<' :: ' ' ::
    ("std::".toList ++ ("boolalpha".toList ++ ';' :: '\n' :: rest)))) = _
  rw [readPieces_std (by decide) hcout (ends_blank _).head?_not_isAtomic, readPieces_gap rfl,
    readPieces_mark rfl, readPieces_mark rfl, readPieces_gap rfl,
    readPieces_std (by decide) hboolalpha (ends_semicolon _).head?_not_isAtomic,
    readPieces_mark rfl, readPieces_gap rfl]
  rfl

theorem hasPieces_return : HasPieces [line 1 "return 0;"]
    [.word "return".toList, .word "0".toList, .mark ';'] := by
  have hzero : ∀ c ∈ "0".toList, isAtomic c = true := List.all_eq_true.mp rfl
  refine .line (fun rest => ?_) 1
  change readPieces ("return".toList ++ ' ' :: ("0".toList ++ ';' :: '\n' :: rest)) = _
  rw [readPieces_keyword (by decide) rfl,
    readPieces_word (by decide) hzero (ends_semicolon _).head?_not_isAtomic, readPieces_mark rfl,
    readPieces_gap rfl]
  rfl

/-- In the code of `main` the pieces of its statements are found, and nothing else. -/
theorem Readable.readPieces_main {q : Program} (h : q.Readable) :
    readPieces (Text.unlines q.mainLines).toList = q.mainPieces := by
  have hbody : HasPieces (Stmt.linesAll 1 q.body) (Stmt.piecesAll q.body) :=
    Stmt.hasPieces_linesAll_of_forall fun s hs => (h.body s hs).hasPieces 1
  have hmain : HasPieces q.mainLines q.mainPieces := by
    refine HasPieces.append ?_ (hbody.append hasPieces_return)
    split
    · exact hasPieces_boolalphaLine
    · exact .nil
  have hpieces := hmain []
  rwa [List.append_nil, readPieces, List.append_nil] at hpieces

end Program

end HumanScript.Cpp
