import HumanScript.Program.Reader
import HumanScript.Proofs.Typing

/-! What checking writes down. The table of variables is the list of the declarations of a program,
and the notes are the list of its imports and statements, each statement once it is finished. -/
namespace HumanScript
variable {α : Type}

/-- The variable that a declaration adds. -/
def Stmt.declaration? : Stmt α → Option (String × Symbol)
  | .declare ty name _ _ => some (name.name, ⟨ty, name.span⟩)
  | _ => none

def Stmt.declarations (s : Stmt α) : List (String × Symbol) := s.parts.filterMap declaration?

/-- The variables that a program declares at any depth, in the order they are written. -/
def Program.declarations (p : Program α) : List (String × Symbol) :=
  (Stmt.partsAll p.body).filterMap Stmt.declaration?

mutual

/-- A statement and the statements in it at any depth, in the order in which they are finished: a
statement comes after all that is in it. -/
def Stmt.finished : Stmt α → List (Stmt α)
  | .declare ty name init span => [.declare ty name init span]
  | .print value span => [.print value span]
  | .ifThen condition thenArm span => thenArm.finished ++ [.ifThen condition thenArm span]
  | .ifElse condition thenArm elseArm span =>
    thenArm.finished ++ elseArm.finished ++ [.ifElse condition thenArm elseArm span]
  | .block body span => Stmt.finishedAll body ++ [.block body span]

def Stmt.finishedAll : List (Stmt α) → List (Stmt α)
  | [] => []
  | s :: body => s.finished ++ Stmt.finishedAll body

end

/-- What is remarked once a statement is finished. -/
def Stmt.note : Stmt Ty → Spanned Note
  | .declare ty name _ span => ⟨span, .declared name.name ty⟩
  | .print value span => ⟨span, .printed value.info⟩
  | .ifThen _ _ span => ⟨span, .conditional⟩
  | .ifElse _ _ _ span => ⟨span, .conditional⟩
  | .block _ span => ⟨span, .block⟩

/-- A note for each import, then a note for each statement. -/
def Program.notes (p : Program Ty) : List (Spanned Note) :=
  p.imports.map Import.note ++ (Stmt.finishedAll p.body).map Stmt.note

namespace Stmt

theorem finishedAll_perm_of_forall {body : List (Stmt α)}
    (hbody : ∀ s ∈ body, s.finished.Perm s.parts) : (finishedAll body).Perm (partsAll body) := by
  induction body with
  | nil => exact .nil
  | cons s body ih =>
    rw [finishedAll, partsAll]
    exact (hbody s (by simp)).append (ih fun t ht => hbody t (by simp [ht]))

theorem finished_perm (s : Stmt α) : s.finished.Perm s.parts := by
  induction s with
  | declare ty name init span => exact .refl _
  | print value span => exact .refl _
  | ifThen condition thenArm span ih =>
    rw [finished, parts]
    exact List.perm_append_comm.trans (ih.cons _)
  | ifElse condition thenArm elseArm span iha ihb =>
    rw [finished, parts]
    exact List.perm_append_comm.trans ((iha.append ihb).cons _)
  | block body span ih =>
    rw [finished, parts]
    exact List.perm_append_comm.trans ((finishedAll_perm_of_forall ih).cons _)

/-- The order of finishing leaves no statement out and has none twice. -/
theorem finishedAll_perm (body : List (Stmt α)) : (finishedAll body).Perm (partsAll body) :=
  finishedAll_perm_of_forall fun s _ => s.finished_perm

theorem finishedAll_untyped_of_forall {body : List (Stmt α)}
    (hbody : ∀ s ∈ body, s.untyped.finished = s.finished.map untyped) :
    finishedAll (body.map untyped) = (finishedAll body).map untyped := by
  induction body with
  | nil => rfl
  | cons s body ih =>
    obtain ⟨hs, hmore⟩ := List.forall_mem_cons.mp hbody
    rw [List.map_cons, finishedAll, finishedAll, hs, ih hmore, List.map_append]

/-- Types do not matter for the order of finishing. -/
theorem finished_untyped (s : Stmt α) : s.untyped.finished = s.finished.map untyped := by
  induction s with
  | declare | print => rfl
  | ifThen condition thenArm span ih =>
    change thenArm.untyped.finished ++ _ = _
    rw [ih, finished, List.map_append]
    rfl
  | ifElse condition thenArm elseArm span iha ihb =>
    change thenArm.untyped.finished ++ elseArm.untyped.finished ++ _ = _
    rw [iha, ihb, finished, List.map_append, List.map_append]
    rfl
  | block body span ih =>
    rw [untyped_block, finished, finished, finishedAll_untyped_of_forall ih, List.map_append]
    exact congrArg _ (congrArg (· :: []) (untyped_block body span).symm)

theorem finishedAll_untyped (body : List (Stmt α)) :
    finishedAll (body.map untyped) = (finishedAll body).map untyped :=
  finishedAll_untyped_of_forall fun s _ => s.finished_untyped

theorem finishedAll_append (body more : List (Stmt α)) :
    finishedAll (body ++ more) = finishedAll body ++ finishedAll more := by
  induction body with
  | nil => rfl
  | cons s body ih => rw [List.cons_append, finishedAll, finishedAll, ih, List.append_assoc]

end Stmt

/-- No name is declared twice. -/
def SymbolTable.Distinct (t : SymbolTable) : Prop := (t.entries.map Prod.fst).Nodup

namespace SymbolTable
variable {t u : SymbolTable} {name : String} {symbol : Symbol}

theorem get?_eq_none_iff : t.get? name = none ↔ name ∉ t.entries.map Prod.fst := by
  rw [get?, List.lookup_eq_none_iff, List.mem_map]
  constructor
  · rintro h ⟨entry, hmem, rfl⟩
    simpa using h entry hmem
  · intro h entry hmem
    have hne : name ≠ entry.1 := fun heq => h ⟨entry, hmem, heq.symm⟩
    simpa using hne

/-- Where names are distinct, an entry is found by its name. -/
theorem Distinct.get?_eq_some_iff (h : t.Distinct) :
    t.get? name = some symbol ↔ (name, symbol) ∈ t.entries := by
  obtain ⟨entries⟩ := t
  unfold get?
  induction entries with
  | nil => simp
  | cons entry entries ih =>
    obtain ⟨other, first⟩ := entry
    obtain ⟨hfresh, hrest⟩ := List.nodup_cons.mp h
    by_cases hname : name = other
    · subst hname
      have habsent : (name, symbol) ∉ entries := fun hmem =>
        hfresh (List.mem_map.mpr ⟨_, hmem, rfl⟩)
      simp [habsent, eq_comm]
    · have hne : (name == other) = false := by simpa using hname
      simp only [List.lookup_cons, hne, List.mem_cons, Prod.mk.injEq, hname, false_and, false_or]
      exact ih hrest

theorem Distinct.define (ht : t.Distinct) (h : t.define name symbol = .ok u) : u.Distinct := by
  obtain ⟨hnew, rfl⟩ := define_eq_ok_iff.mp h
  exact List.nodup_cons.mpr ⟨get?_eq_none_iff.mp hnew, ht⟩

end SymbolTable

/-- How a part of a program leaves the records: its declarations are added to the table, latest
first, under names that are new, and its notes are those given. -/
structure Checked.Records {β : Type} (c : Checked β) (before : SymbolTable)
    (declared : List (String × Symbol)) (noted : List (Spanned Note)) : Prop where
  entries : c.symbols.entries = declared.reverse ++ before.entries
  distinct : before.Distinct → c.symbols.Distinct
  notes : c.notes = noted

namespace Stmt
variable {symbols : SymbolTable}

theorem check_declare_records {ty : Ty} {name : Ident} {init : Expr Unit} {span : Span}
    {c : Checked (Stmt Ty)} (h : (declare ty name init span).check symbols = .ok c) :
    c.Records symbols (declarations (.declare ty name init span)) (c.value.finished.map note) := by
  unfold check at h
  simp only [Except.bind_eq_ok_iff, Except.mapError_eq_ok_iff] at h
  obtain ⟨extended, hdefine, init', _, h⟩ := h
  split at h
  · cases h
    exact {
      entries := by rw [(SymbolTable.define_eq_ok_iff.mp hdefine).2]; rfl
      distinct := fun hd => hd.define hdefine
      notes := rfl }
  · cases h

theorem check_print_records {value : Expr Unit} {span : Span} {c : Checked (Stmt Ty)}
    (h : (print value span).check symbols = .ok c) :
    c.Records symbols (declarations (.print value span)) (c.value.finished.map note) := by
  unfold check at h
  simp only [Except.bind_eq_ok_iff] at h
  obtain ⟨value', _, h⟩ := h
  split at h
  · cases h
    exact { entries := rfl, distinct := id, notes := rfl }
  · cases h

/-- Each statement of a body adds to the records that the ones before it left. -/
theorem checkAll_records_of_forall {body : List (Stmt Unit)}
    (hstmt : ∀ s ∈ body, ∀ (symbols : SymbolTable) (c : Checked (Stmt Ty)),
      s.check symbols = .ok c → c.Records symbols s.declarations (c.value.finished.map note))
    {c : Checked (List (Stmt Ty))} (h : checkAll symbols body = .ok c) :
    c.Records symbols ((partsAll body).filterMap declaration?)
      ((finishedAll c.value).map note) := by
  induction body generalizing symbols c with
  | nil =>
    cases h
    exact { entries := rfl, distinct := id, notes := rfl }
  | cons s body ih =>
    unfold checkAll at h
    simp only [Except.bind_eq_ok_iff] at h
    obtain ⟨first, hfirst, more, hmore, h⟩ := h
    cases h
    have hs := hstmt s (by simp) symbols first hfirst
    have hbody := ih (fun t ht => hstmt t (by simp [ht])) hmore
    exact {
      entries := by
        rw [hbody.entries, hs.entries, partsAll, List.filterMap_append, List.reverse_append,
          List.append_assoc]
        rfl
      distinct := fun hd => hbody.distinct (hs.distinct hd)
      notes := by rw [hs.notes, hbody.notes, finishedAll, List.map_append] }

theorem check_records {s : Stmt Unit} {c : Checked (Stmt Ty)} (h : s.check symbols = .ok c) :
    c.Records symbols s.declarations (c.value.finished.map note) := by
  induction s generalizing symbols c with
  | declare ty name init span => exact check_declare_records h
  | print value span => exact check_print_records h
  | ifThen condition thenArm span ih =>
    unfold check at h
    simp only [Except.bind_eq_ok_iff] at h
    obtain ⟨condition', _, first, hfirst, h⟩ := h
    cases h
    have harm := ih hfirst
    exact {
      entries := harm.entries
      distinct := harm.distinct
      notes := by rw [harm.notes, finished, List.map_append]; rfl }
  | ifElse condition thenArm elseArm span iha ihb =>
    unfold check at h
    simp only [Except.bind_eq_ok_iff] at h
    obtain ⟨condition', _, first, hfirst, second, hsecond, h⟩ := h
    cases h
    have hthen := iha hfirst
    have helse := ihb hsecond
    have hparts : declarations (.ifElse condition thenArm elseArm span) =
        thenArm.declarations ++ elseArm.declarations :=
      List.filterMap_append (l := thenArm.parts)
    exact {
      entries := by
        rw [helse.entries, hthen.entries, hparts, List.reverse_append, List.append_assoc]
      distinct := fun hd => helse.distinct (hthen.distinct hd)
      notes := by
        rw [hthen.notes, helse.notes, finished, List.map_append, List.map_append]
        rfl }
  | block body span ih =>
    unfold check at h
    simp only [Except.bind_eq_ok_iff] at h
    obtain ⟨inner, hinner, h⟩ := h
    cases h
    have hbody := checkAll_records_of_forall (fun s hs _ _ => ih s hs) hinner
    exact {
      entries := hbody.entries
      distinct := hbody.distinct
      notes := by rw [hbody.notes, finished, List.map_append]; rfl }

end Stmt

namespace Program
variable {p : Program Unit} {c : Checked (Program Ty)}

theorem check_records (h : p.check = .ok c) : c.Records .empty p.declarations c.value.notes := by
  unfold check at h
  simp only [Except.bind_eq_ok_iff] at h
  obtain ⟨body, hbody, h⟩ := h
  cases h
  have hrecords := Stmt.checkAll_records_of_forall (fun s _ _ _ => s.check_records) hbody
  exact {
    entries := hrecords.entries
    distinct := hrecords.distinct
    notes := by rw [hrecords.notes]; rfl }

end Program
end HumanScript
