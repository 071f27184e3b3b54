/-! The files and the standard output that a run is given. Each operation may fail, and a write may
fail when part of it is done. -/
namespace HumanScript.Command

inductive FileError where
  | notFound
  | notDirectory
  | isDirectory
  | noSpace
  | nameTooLong
  | notText
  | other (reason : String)
deriving DecidableEq

def FileError.message : FileError → String
  | notFound => "No such file or directory (os error 2)"
  | notDirectory => "Not a directory (os error 20)"
  | isDirectory => "Is a directory (os error 21)"
  | noSpace => "No space left on device (os error 28)"
  | nameTooLong => "File name too long (os error 36)"
  | notText => "stream did not contain valid UTF-8"
  | other reason => reason

/-- A write that did not get through: so many bytes were taken before it failed. -/
structure Stopped where
  taken : Nat
  cause : FileError

def takenOf (bytes : ByteArray) : Except Stopped Unit → ByteArray
  | .ok _ => bytes
  | .error stopped => bytes.extract 0 stopped.taken

/-- Where the bytes of a write come out. -/
inductive Sink where
  | stored
  | stdout
  | stderr
deriving DecidableEq

structure Disk (Handle : Type) (m : Type → Type) where
  read : String → m (Except FileError ByteArray)
  /-- Opens a file to write it from its start. By that it is made, or loses what it held. -/
  create : String → m (Except FileError Handle)
  write : Handle → ByteArray → m (Except Stopped Unit)
  stdout : Handle
  sink : Handle → Sink

/-- How writing a whole file went. -/
inductive Written (Handle : Type) where
  | unopened (cause : FileError)
  | opened (handle : Handle) (write : Except Stopped Unit)

variable {Handle : Type} {m : Type → Type} [Monad m]

def Disk.writeFile (disk : Disk Handle m) (path : String) (bytes : ByteArray) :
    m (Written Handle) := do
  match ← disk.create path with
  | .error cause => return .unopened cause
  | .ok handle => return .opened handle (← disk.write handle bytes)

def Disk.readText (disk : Disk Handle m) (path : String) : m (Except FileError String) := do
  let content ← disk.read path
  return content.bind fun bytes => (String.fromUTF8? bytes).elim (.error .notText) .ok

end HumanScript.Command
