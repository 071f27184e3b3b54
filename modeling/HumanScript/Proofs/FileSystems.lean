import HumanScript.Command.FileTree
import HumanScript.Proofs.CodePaths
import HumanScript.Proofs.Except

/-! Disks without links, where a file is known by its directory and its name there. What reading,
opening and writing do to the files of such a disk is said by laws, whatever else goes wrong; the
disk that the files of a tree make up keeps them. -/
namespace HumanScript.Command

/-- A path ends in the name of a file, and what stands before leads to its directory. -/
def Leads {D : Type} (walk : List (List Char) → Option D) (path : String) (file : D × List Char) :
    Prop :=
  isIdle file.2 = false ∧ file.2 ≠ ['.', '.'] ∧
    ∃ before, segments path.toList = before ++ [file.2] ∧ walk before = some file.1

theorem Leads.unique {D : Type} {walk : List (List Char) → Option D} {path : String}
    {file file' : D × List Char} (h : Leads walk path file) (h' : Leads walk path file') :
    file = file' := by
  obtain ⟨-, -, before, hpath, hwalk⟩ := h
  obtain ⟨-, -, before', hpath', hwalk'⟩ := h'
  obtain ⟨rfl, hname⟩ := List.append_inj' (hpath.symm.trans hpath') rfl
  exact Prod.ext (Option.some.inj (hwalk.symm.trans hwalk')) (List.head_eq_of_cons_eq hname)

structure FileSystem (σ D Handle : Type) extends Disk Handle (StateM σ) where
  /-- The directory that the pieces of a path lead to. -/
  walk : σ → List (List Char) → Option D
  /-- What a file holds, if there is one of this name in the directory. -/
  content : σ → D × List Char → Option ByteArray
  /-- The file that is open, if it is one. -/
  file? : Handle → Option (D × List Char)
  walk_idle : ∀ {s pieces piece directory}, pieces ≠ [] → isIdle piece = true →
    walk s (pieces ++ [piece]) = some directory → walk s pieces = some directory
  read_keeps : ∀ path s, ((read path).run s).2 = s
  read_finds : ∀ {path s bytes}, ((read path).run s).1 = .ok bytes →
    ∃ file, Leads (walk s) path file ∧ ∀ old, content s file = some old → old = bytes
  create_fails : ∀ {path s cause}, ((create path).run s).1 = .error cause →
    ((create path).run s).2 = s
  create_opens : ∀ {path s handle file}, ((create path).run s).1 = .ok handle →
    file? handle = some file →
    Leads (walk s) path file ∧ content ((create path).run s).2 file = some .empty
  create_frame : ∀ {path s handle file}, ((create path).run s).1 = .ok handle →
    file? handle ≠ some file → content ((create path).run s).2 file = content s file
  write_appends : ∀ {s handle file old} (bytes : ByteArray), file? handle = some file →
    content s file = some old →
    content ((write handle bytes).run s).2 file =
      some (old ++ takenOf bytes ((write handle bytes).run s).1)
  write_frame : ∀ {s handle file} (bytes : ByteArray), file? handle ≠ some file →
    content ((write handle bytes).run s).2 file = content s file
  file?_stdout : file? stdout = none

namespace FileSystem
variable {σ D Handle : Type} (fs : FileSystem σ D Handle) {s : σ} {path : String}
  {file : D × List Char} {directory : D} {name : List Char}

section Writing
variable {bytes : ByteArray} {handle : Handle}

end Writing
end FileSystem

/-! The disk of a tree. -/

namespace TreePath

def along (place : TreePath) (segment : List Char) : TreePath :=
  if isIdle segment then place
  else if segment = ['.', '.'] then place.parent
  else place ++ [segment]

def start (path : List (List Char)) : TreePath := if path.head? = some [] then [[]] else []

theorem isStanding_start (path : List (List Char)) : (start path).isStanding = true := by
  unfold start
  split <;> decide

/-- What a standing directory is in stands too. -/
theorem isStanding_parent {path : TreePath} (h : path.isStanding = true) :
    path.parent.isStanding = true := by
  unfold parent
  split_ifs with hroot habove
  · exact h
  · rw [isStanding, Bool.or_eq_true]
    left
    simpa [isAbove] using habove
  · rw [isStanding, Bool.or_eq_true, or_iff_right habove] at h
    unfold isRootDirectory at h
    split at h
    · exact absurd rfl hroot
    · rfl
    · cases h

theorem parent_concat (place : TreePath) {name : List Char} (hidle : isIdle name = false)
    (hup : name ≠ ['.', '.']) : parent (place ++ [name]) = place := by
  have hroot : place ++ [name] ≠ [[]] := by
    intro h
    have hname : name = [] := by
      have hlast := congrArg List.getLast? h
      simpa using hlast
    rw [hname] at hidle
    cases hidle
  have habove : ¬ isAbove (place ++ [name]) = true := by simp [isAbove, hup]
  rw [parent, if_neg hroot, if_neg habove, List.dropLast_concat]

end TreePath

namespace FileTree
variable {t : FileTree} {place next : TreePath} {path : List (List Char)} {s : List Char}

theorem entry_of_isStanding (h : place.isStanding = true) : t.entry place = .directory := if_pos h

theorem lookup_of_file {content : ByteArray} (h : t.entry place = .file content) :
    t.files.lookup place = some content := by
  unfold entry at h
  split at h
  · cases h
  · split at h
    · rename_i found hfound
      cases h
      exact hfound
    · split at h
      · cases h
      · split at h <;> cases h

theorem lookup_of_device {d : Device} (h : t.entry place = .device d) :
    t.files.lookup place = none := by
  unfold entry at h
  split at h
  · cases h
  · split at h
    · cases h
    · assumption

theorem enter_eq_ok_iff : t.enter place s = .ok next ↔
    t.entry place = .directory ∧ isLongName s = false ∧ place.along s = next := by
  unfold enter TreePath.along
  cases t.entry place with
  | missing | file _ | device _ => simp
  | directory =>
    cases isLongName s with
    | true => simp
    | false =>
      simp only [Bool.false_eq_true, if_false, true_and]
      split_ifs <;> simp

theorem resolve_eq (path : List (List Char)) :
    t.resolve path = path.foldlM t.enter (.start path) := rfl

theorem walk_append_iff {more : List (List Char)} :
    (path ++ more).foldlM t.enter place = .ok next ↔
      ∃ middle, path.foldlM t.enter place = .ok middle ∧ more.foldlM t.enter middle = .ok next := by
  rw [List.foldlM_append, Except.bind_eq_ok_iff]

theorem walk_cons_iff : (s :: path).foldlM t.enter place = .ok next ↔
    ∃ middle, t.enter place s = .ok middle ∧ path.foldlM t.enter middle = .ok next := by
  rw [List.foldlM_cons, Except.bind_eq_ok_iff]

theorem walk_singleton : [s].foldlM t.enter place = t.enter place s := by
  rw [List.foldlM_cons]
  exact bind_pure _

/-- The place stands, or is below directories down from one that does. -/
inductive Reached (t : FileTree) : TreePath → Prop where
  | standing {place : TreePath} (h : place.isStanding = true) : Reached t place
  | child {place : TreePath} {name : List Char} (h : Reached t place)
      (hdir : t.entry place = .directory) (hidle : isIdle name = false)
      (hup : name ≠ ['.', '.']) : Reached t (place ++ [name])

/-- What a directory is in is a directory. -/
theorem Reached.parent (h : t.Reached place) :
    t.Reached place.parent ∧ t.entry place.parent = .directory := by
  cases h with
  | standing h =>
    have hparent := TreePath.isStanding_parent h
    exact ⟨.standing hparent, entry_of_isStanding hparent⟩
  | child houter hinner hidle hup =>
    rw [TreePath.parent_concat _ hidle hup]
    exact ⟨houter, hinner⟩

theorem Reached.along (h : t.Reached place) (hdir : t.entry place = .directory) :
    t.Reached (place.along s) := by
  unfold TreePath.along
  split_ifs with hidle hup
  · exact h
  · exact h.parent.1
  · exact .child h hdir (Bool.eq_false_iff.mpr hidle) hup

theorem Reached.walk (hplace : t.Reached place) (h : path.foldlM t.enter place = .ok next) :
    t.Reached next := by
  induction path generalizing place with
  | nil =>
    cases h
    exact hplace
  | cons s path ih =>
    obtain ⟨middle, hmiddle, hpath⟩ := walk_cons_iff.mp h
    obtain ⟨hdir, -, rfl⟩ := enter_eq_ok_iff.mp hmiddle
    exact ih (hplace.along hdir) hpath

/-- A path that does not lead to a directory ends in a name. -/
theorem Reached.exists_name (hplace : t.Reached place)
    (h : (path ++ [s]).foldlM t.enter place = .ok next) (hnext : t.entry next ≠ .directory) :
    isIdle s = false ∧ s ≠ ['.', '.'] ∧ ∃ directory, path.foldlM t.enter place = .ok directory ∧
      t.entry directory = .directory ∧ next = directory ++ [s] := by
  obtain ⟨directory, hpath, hlast⟩ := walk_append_iff.mp h
  rw [walk_singleton] at hlast
  obtain ⟨hdir, -, rfl⟩ := enter_eq_ok_iff.mp hlast
  unfold TreePath.along at hnext ⊢
  split_ifs at hnext ⊢ with hidle hup
  · exact absurd hdir hnext
  · exact absurd (hplace.walk hpath).parent.2 hnext
  · exact ⟨Bool.eq_false_iff.mpr hidle, hup, directory, hpath, hdir, rfl⟩

def walk (t : FileTree) (pieces : List (List Char)) : Option TreePath :=
  (t.resolve (directoryOf pieces)).toOption

theorem walk_eq_some_iff {pieces : List (List Char)} :
    t.walk pieces = some place ↔ t.resolve (directoryOf pieces) = .ok place :=
  Except.toOption_eq_some_iff

def content (t : FileTree) (file : TreePath × List Char) : Option ByteArray :=
  t.files.lookup (file.1 ++ [file.2])

/-- A file that can be read has a name, and is in a directory by it. -/
theorem read_finds {path : String} {bytes : ByteArray} (h : t.read path = .ok bytes) :
    ∃ file : TreePath × List Char, Leads t.walk path file ∧
      ∀ old, t.content file = some old → old = bytes := by
  unfold read at h
  dsimp only at h
  split at h
  · cases h
  rw [Except.bind_eq_ok_iff] at h
  obtain ⟨place, hplace, h⟩ := h
  have hfile : t.entry place ≠ .directory := by
    intro hdir
    rw [hdir] at h
    cases h
  obtain ⟨before, name, hpath⟩ : ∃ before name, segments path.toList = before ++ [name] :=
    ⟨_, _, (List.dropLast_append_getLast (segments_ne_nil path.toList)).symm⟩
  rw [hpath, resolve_eq] at hplace
  obtain ⟨hidle, hup, directory, hbefore, hdir, rfl⟩ :=
    (Reached.standing (TreePath.isStanding_start _)).exists_name hplace hfile
  refine ⟨(directory, name), ⟨hidle, hup, before, hpath, ?_⟩, ?_⟩
  · rw [walk_eq_some_iff]
    cases before with
    | cons first more => exact hbefore
    | nil =>
      have hname : name ≠ [] := by
        rintro rfl
        cases hidle
      have hstart : TreePath.start ([] ++ [name]) = [] := if_neg (by simpa using hname)
      rw [hstart] at hbefore
      cases hbefore
      have hdot : t.enter [] ['.'] = .ok [] := enter_eq_ok_iff.mpr ⟨hdir, by decide, rfl⟩
      rwa [← walk_singleton] at hdot
  · intro old hold
    cases hentry : t.entry (directory ++ [name]) with
    | file content =>
      rw [hentry] at h
      cases h
      exact Option.some.inj (hold.symm.trans (lookup_of_file hentry))
    | device d => cases hold.symm.trans (lookup_of_device hentry)
    | directory => exact absurd hentry hfile
    | missing =>
      rw [hentry] at h
      cases h

theorem lookup_map (f : TreePath → ByteArray → ByteArray) (files : List (TreePath × ByteArray))
    (path : TreePath) :
    (files.map fun (p, old) => (p, f p old)).lookup path = (files.lookup path).map (f path) := by
  induction files with
  | nil => rfl
  | cons file files ih =>
    obtain ⟨p, old⟩ := file
    rw [List.map_cons, List.lookup_cons, List.lookup_cons, ih]
    by_cases hp : path = p
    · simp [hp]
    · simp [beq_eq_false_iff_ne.mpr hp]

theorem lookup_put (t : FileTree) (path other : TreePath) (content : ByteArray) :
    (t.put path content).files.lookup other =
      if other = path then some content else t.files.lookup other := by
  unfold put
  split
  · rename_i hsome
    rw [lookup_map fun p old => if p = path then content else old]
    split_ifs with hother
    · obtain ⟨old, hold⟩ := Option.isSome_iff_exists.mp hsome
      rw [hother, hold]
      rfl
    · rw [Option.map_id_fun']
      rfl
  · rename_i hnone
    rw [Option.not_isSome_iff_eq_none] at hnone
    rw [List.lookup_append]
    split_ifs with hother
    · simp [hother, hnone]
    · simp [List.lookup_cons, beq_eq_false_iff_ne.mpr hother]

def Target.file? : Target → Option (TreePath × List Char)
  | .file directory name => some (directory, name)
  | .device _ => none

/-- Opening empties the file that the path leads to, or it opens a device. -/
theorem create_cases {path : String} {t' : FileTree} {target : Target}
    (h : t.create path = .ok (t', target)) :
    (∃ directory name, target = .file directory name ∧ Leads t.walk path (directory, name) ∧
      t' = t.put (directory ++ [name]) .empty) ∨ ∃ d, target = .device d ∧ t' = t := by
  unfold create at h
  dsimp only at h
  split at h
  · cases h
  split at h
  · cases h
  rename_i name before hnamed
  rw [Except.bind_eq_ok_iff] at h
  obtain ⟨directory, hdirectory, h⟩ := h
  split at h
  · cases h
  · cases h
  · cases h
  rename_i hdir
  split at h
  · cases h
  rename_i hplain
  split at h
  · cases h
  simp only [ne_eq, not_or, not_not] at hplain
  obtain ⟨hpieces, hdot, hup⟩ := hplain
  have hname : name ≠ [] := by
    have hhead := List.head?_dropWhile_not List.isEmpty (segments path.toList).reverse
    rw [hnamed] at hhead
    simpa using hhead
  have hpath : segments path.toList = before.reverse ++ [name] := by
    rw [← List.reverse_cons, ← hnamed, hpieces, List.reverse_reverse]
  have hleads : Leads t.walk path (directory, name) :=
    ⟨by simp [isIdle, hname, hdot], hup, before.reverse, hpath, walk_eq_some_iff.mpr hdirectory⟩
  split at h
  · cases h
  · cases h
    exact .inr ⟨_, rfl, rfl⟩
  · cases h
    exact .inl ⟨directory, name, rfl, hleads, rfl⟩
  · cases h
    exact .inl ⟨directory, name, rfl, hleads, rfl⟩

section Laws
variable {room : Option Nat} {path : String} {target : Target} {file : TreePath × List Char}

theorem content_put (t : FileTree) (directory : TreePath) (name : List Char) (bytes : ByteArray)
    (file : TreePath × List Char) :
    (t.put (directory ++ [name]) bytes).content file =
      if file = (directory, name) then some bytes else t.content file := by
  have hiff : file.1 ++ [file.2] = directory ++ [name] ↔ file = (directory, name) := by
    rw [← List.concat_eq_append, ← List.concat_eq_append, List.concat_inj, Prod.ext_iff]
  rw [content, lookup_put]
  simp only [hiff, content]

theorem run_create_ok {t' : FileTree} (h : t.create path = .ok (t', target)) :
    ((disk room).create path).run t = pure (.ok target, t') := by
  simp [disk, h]

theorem run_create_error {cause : FileError} (h : t.create path = .error cause) :
    ((disk room).create path).run t = pure (.error cause, t) := by
  simp [disk, h]

theorem create_fails {cause : FileError}
    (h : (((disk room).create path).run t).1 = .error cause) :
    (((disk room).create path).run t).2 = t := by
  cases hcreate : t.create path with
  | error e =>
    rw [run_create_error hcreate]
    rfl
  | ok opened =>
    rw [run_create_ok hcreate] at h
    cases h

theorem exists_create (h : (((disk room).create path).run t).1 = .ok target) :
    t.create path = .ok ((((disk room).create path).run t).2, target) := by
  cases hcreate : t.create path with
  | error e =>
    rw [run_create_error hcreate] at h
    cases h
  | ok opened =>
    obtain ⟨t', target'⟩ := opened
    rw [run_create_ok hcreate] at h ⊢
    cases h
    rfl

theorem create_opens (h : (((disk room).create path).run t).1 = .ok target)
    (hfile : target.file? = some file) :
    Leads t.walk path file ∧ (((disk room).create path).run t).2.content file = some .empty := by
  obtain ⟨directory, name, rfl, hleads, ht⟩ | ⟨d, rfl, -⟩ := create_cases (exists_create h)
  · cases hfile
    rw [ht, content_put, if_pos rfl]
    exact ⟨hleads, rfl⟩
  · cases hfile

theorem create_frame (h : (((disk room).create path).run t).1 = .ok target)
    (hfile : target.file? ≠ some file) :
    (((disk room).create path).run t).2.content file = t.content file := by
  obtain ⟨directory, name, rfl, -, ht⟩ | ⟨d, -, ht⟩ := create_cases (exists_create h)
  · have hother : file ≠ (directory, name) := fun heq => hfile (congrArg some heq.symm)
    rw [ht, content_put, if_neg hother]
  · rw [ht]

theorem write_appends {old : ByteArray} (bytes : ByteArray) (hfile : target.file? = some file)
    (hold : t.content file = some old) :
    (((disk room).write target bytes).run t).2.content file =
      some (old ++ takenOf bytes (((disk room).write target bytes).run t).1) := by
  cases target with
  | device d => cases hfile
  | file directory name =>
    cases hfile
    change (t.put (directory ++ [name]) ((t.content (directory, name)).getD .empty ++ _)).content _ =
      some (old ++ _)
    rw [content_put, if_pos rfl, hold, Option.getD_some]
    rfl

theorem write_frame (bytes : ByteArray) (hfile : target.file? ≠ some file) :
    (((disk room).write target bytes).run t).2.content file = t.content file := by
  cases target with
  | device d => rfl
  | file directory name =>
    have hother : file ≠ (directory, name) := fun heq => hfile (congrArg some heq.symm)
    change (t.put (directory ++ [name]) _).content file = _
    rw [content_put, if_neg hother]

end Laws

end FileTree
end HumanScript.Command
