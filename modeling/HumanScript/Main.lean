import HumanScript.Command.Run

/-! The command line. -/
namespace HumanScript.Command

/-- Whether the code of the machine, which comes plain or negated, is the one expected. -/
def isCode (code expected : UInt32) : Bool := code = expected || -code = expected

/-- The cause of a failed file operation. -/
def fileError : IO.Error → FileError
  | .noFileOrDirectory .. => .notFound
  | .inappropriateType _ code _ => if isCode code 20 then .notDirectory else .isDirectory
  | e@(.resourceExhausted _ code _) => if isCode code 28 then .noSpace else .other (toString e)
  | e@(.invalidArgument _ code _) => if isCode code 36 then .nameTooLong else .other (toString e)
  | e => .other (toString e)

/-- What the machine has open for writing. -/
inductive MachineHandle where
  | file (handle : IO.FS.Handle)
  | stdout

/-- The files of the machine, which shows by itself what is written to its streams. -/
def machineDisk : Disk MachineHandle IO where
  read path := do
    try return .ok (← IO.FS.readBinFile path)
    catch e => return .error (fileError e)
  create path := do
    try return .ok (.file (← IO.FS.Handle.mk path .write))
    catch e => return .error (fileError e)
  write handle bytes := do
    try
      match handle with
      | .file handle => do handle.write bytes; handle.flush
      | .stdout => do
        let stream ← IO.getStdout
        stream.write bytes
        stream.flush
      return .ok ()
    catch e => return .error ⟨0, fileError e⟩
  stdout := .stdout
  sink _ := .stored

end HumanScript.Command

open HumanScript.Command in
def main (arguments : List String) : IO UInt32 := do
  let outcome ← execute machineDisk arguments
  (← IO.getStderr).putStr outcome.stderr
  (← IO.getStdout).putStr outcome.stdout
  return outcome.code.toUInt32
