import HumanScript.Command.Disk
import HumanScript.Command.Path

/-! A disk to run the command on: the files below the current directory, and of the machine around
them a few directories and devices. -/
namespace HumanScript.Command

/-- Names from the current directory down. Further up a path starts with `..`, as often as it goes
up, and from the root with an empty name. -/
abbrev TreePath := List (List Char)

/-- The files of a disk. A directory is there if a file is below it. -/
structure FileTree where
  files : List (TreePath × ByteArray)

/-- A place that keeps no bytes, so that there are none to be read. -/
inductive Device where
  | null
  | full
  | stdout
  | stderr
deriving DecidableEq

inductive Entry where
  | file (content : ByteArray)
  | device (d : Device)
  | directory
  | missing

namespace Device

def ofName? (name : List Char) : Option Device :=
  [("null", null), ("full", full), ("stdin", null), ("stdout", stdout),
    ("stderr", stderr)].findSome? fun (n, d) => if n.toList = name then some d else none

def ofPath? : TreePath → Option Device
  | [[], directory, name] => if directory = "dev".toList then ofName? name else none
  | _ => none

def write : Device → Except Stopped Unit
  | full => .error ⟨0, .noSpace⟩
  | null | stdout | stderr => .ok ()

def sink : Device → Sink
  | null | full => .stored
  | stdout => .stdout
  | stderr => .stderr

end Device

namespace TreePath

def isAbove (path : TreePath) : Bool := path.all (· = ['.', '.'])

def parent (path : TreePath) : TreePath :=
  if path = [[]] then path
  else if path.isAbove then path ++ [['.', '.']]
  else path.dropLast

def isRootDirectory : TreePath → Bool
  | [[]] => true
  | [[], name] => ["bin", "dev", "etc", "home", "lib", "opt", "proc", "root", "run", "sbin", "sys",
      "tmp", "usr", "var"].any (·.toList = name)
  | _ => false

/-- The directories that are there whatever the files are. -/
def isStanding (path : TreePath) : Bool := path.isAbove || path.isRootDirectory

def isInside : TreePath → Bool
  | [] => true
  | name :: _ => name ≠ [] ∧ name ≠ ['.', '.']

end TreePath

namespace FileTree

def entry (t : FileTree) (path : TreePath) : Entry :=
  if path.isStanding then .directory
  else
    match t.files.lookup path with
    | some content => .file content
    | none =>
      match Device.ofPath? path with
      | some d => .device d
      | none => if t.files.any (path.isPrefixOf ·.1) then .directory else .missing

def enter (t : FileTree) (place : TreePath) (segment : List Char) : Except FileError TreePath :=
  match t.entry place with
  | .missing => .error .notFound
  | .file _ | .device _ => .error .notDirectory
  | .directory =>
    if isLongName segment then .error .nameTooLong
    else if isIdle segment then .ok place
    else if segment = ['.', '.'] then .ok place.parent
    else .ok (place ++ [segment])

def resolve (t : FileTree) (path : List (List Char)) : Except FileError TreePath :=
  path.foldlM t.enter (if path.head? = some [] then [[]] else [])

def read (t : FileTree) (path : String) : Except FileError ByteArray := do
  if isLongPath path then throw .nameTooLong
  match t.entry (← t.resolve (segments path.toList)) with
  | .file content => return content
  | .device _ => return .empty
  | .directory => throw .isDirectory
  | .missing => throw .notFound

def put (t : FileTree) (path : TreePath) (content : ByteArray) : FileTree :=
  if (t.files.lookup path).isSome then
    ⟨t.files.map fun (p, old) => (p, if p = path then content else old)⟩
  else ⟨t.files ++ [(path, content)]⟩

def directoryOf (before : List (List Char)) : List (List Char) :=
  if before.isEmpty then [['.']] else before

/-- What is open for writing: a file, by its directory and its name there, or a device. -/
inductive Target where
  | file (directory : TreePath) (name : List Char)
  | device (d : Device)

/-- Opens a file, which is empty then. Its directory has to be there, and its name may not be a
directory's. -/
def create (t : FileTree) (path : String) : Except FileError (FileTree × Target) := do
  if isLongPath path then throw .nameTooLong
  let pieces := (segments path.toList).reverse
  let named := pieces.dropWhile List.isEmpty
  match named with
  | [] => throw .isDirectory
  | name :: before =>
    let directory ← t.resolve (directoryOf before.reverse)
    match t.entry directory with
    | .missing => throw .notFound
    | .file _ | .device _ => throw .notDirectory
    | .directory =>
      if named ≠ pieces ∨ name = ['.'] ∨ name = ['.', '.'] then throw .isDirectory
      if isLongName name then throw .nameTooLong
      match t.entry (directory ++ [name]) with
      | .directory => throw .isDirectory
      | .device d => return (t, .device d)
      | .file _ | .missing => return (t.put (directory ++ [name]) .empty, .file directory name)

/-- Writes to a file of which no more than `room` bytes fit on the disk. -/
def write (room : Option Nat) (t : FileTree) (bytes : ByteArray) :
    Target → Except Stopped Unit × FileTree
  | .file directory name =>
    let result := match room with
      | none => .ok ()
      | some n => if n < bytes.size then .error ⟨n, .noSpace⟩ else .ok ()
    let old := (t.files.lookup (directory ++ [name])).getD .empty
    (result, t.put (directory ++ [name]) (old ++ takenOf bytes result))
  | .device d => (d.write, t)

def disk (room : Option Nat) : Disk Target (StateM FileTree) where
  read path := do return (← get).read path
  create path := do
    match (← get).create path with
    | .ok (tree, target) => set tree; return .ok target
    | .error e => return .error e
  write target bytes := do
    let (result, tree) := (← get).write room bytes target
    set tree
    return result
  stdout := .device .stdout
  sink
    | .file .. => .stored
    | .device d => d.sink

/-- What is new or changed below the current directory. -/
def changesSince (t old : FileTree) : List (TreePath × ByteArray) :=
  t.files.filter fun (path, content) =>
    path.isInside && (old.files.lookup path).map ByteArray.data ≠ some content.data

end FileTree

def treeDisk : Disk FileTree.Target (StateM FileTree) := FileTree.disk none

end HumanScript.Command
