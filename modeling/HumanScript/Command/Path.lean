import HumanScript.Text.Bytes

/-! Paths as they are written, and the name of the file that code goes to. -/
namespace HumanScript.Command

/-- The pieces of a path between slashes. Two slashes in a row have an empty piece between them. -/
def segments : List Char → List (List Char)
  | [] => [[]]
  | c :: cs =>
    match segments cs with
    | [] => [[c]]
    | s :: more => if c = '/' then [] :: s :: more else (c :: s) :: more

/-- The path with the given pieces. -/
def joinSegments : List (List Char) → List Char
  | [] => []
  | [s] => s
  | s :: more => s ++ '/' :: joinSegments more

/-- A piece that leads nowhere else. -/
def isIdle (segment : List Char) : Bool := segment.isEmpty || segment = ['.']

/-- A name takes at most 255 bytes. -/
def isLongName (segment : List Char) : Bool := 255 < Text.byteLength segment

/-- A path takes fewer than 4096 bytes. -/
def isLongPath (path : String) : Bool := 4096 ≤ path.utf8ByteSize

/-- Without idle pieces at the end. -/
def trimIdle (path : List (List Char)) : List (List Char) :=
  (path.reverse.dropWhile isIdle).reverse

/-- The directory part and the file name, if the path ends in a name. The first piece of the
directory part stays even if it is idle: it tells a path from the root or from the current place. -/
def splitFileName? (path : List Char) : Option (List (List Char) × List Char) :=
  match (trimIdle (segments path)).reverse with
  | [] => none
  | name :: before =>
    if name = ['.', '.'] then none
    else
      match before.reverse with
      | [] => some ([], name)
      | first :: more => some (first :: trimIdle more, name)

/-- A file name up to its last dot. A dot in front belongs to the name. -/
def stem (name : List Char) : List Char :=
  let upToDot := name.reverse.dropWhile (· ≠ '.')
  match upToDot with
  | [] | ['.'] => name
  | _ :: before => before.reverse

def codeSuffix : List Char := "_hs_generated.cpp".toList

/-- Where the code of a source file goes: next to it, under a name made from its stem. -/
def codePath (path : String) : String :=
  match splitFileName? path.toList with
  | some (directory, name) => String.ofList (joinSegments (directory ++ [stem name ++ codeSuffix]))
  | none =>
    let slash := if path.isEmpty || path.toList.getLast? = some '/' then "" else "/"
    path ++ slash ++ String.ofList ("out".toList ++ codeSuffix)

end HumanScript.Command
