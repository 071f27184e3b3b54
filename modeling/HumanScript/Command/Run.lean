import HumanScript.Compile
import HumanScript.Program.Outline
import HumanScript.Command.Arguments
import HumanScript.Command.FileTree
import HumanScript.Text.ControlSequence

/-! The command: it reads a source file, compiles it, and delivers the result. -/
namespace HumanScript.Command

/-- Something said on the standard error: a record for the log, or bytes as they are. -/
inductive Remark where
  | record (r : LogRecord)
  | bytes (b : ByteArray)

namespace Remark

def line (text : String) : Remark := .bytes (text ++ "\n").toUTF8

/-- Why the run fails, if not because of the source. -/
def failure (attempt : String) (cause : FileError) : Remark :=
  line ("error: failed to " ++ attempt ++ ": " ++ cause.message)

end Remark

/-- What a run comes to, besides files: the exit code, what came out on the standard output, and what
was said. -/
structure Ending where
  code : Nat
  stdout : ByteArray
  said : List Remark

/-- The product of a source text, or why there is none; and what is said meanwhile. -/
def produce (product : Product) (src : String) : Except CompileError String × List Remark :=
  match product with
  | .tokens =>
    let lexed := Lexed.ofSource src
    (.ok (Text.unlines (lexed.all.map Token.describe)),
      lexed.errors.map fun e => .line (e.render LexError.message))
  | .ast =>
    let report := parse src
    (report.result.map fun p => Text.unlines (p.outline Outline.untyped),
      report.log.map .record)
  | .typedAst =>
    let report := check src
    (report.result.map fun c => Text.unlines (c.value.outline Outline.typed),
      report.log.map .record)
  | .cpp =>
    let report := compile src
    (report.result, report.log.map .record)

/-- An error in a source file, with its place there. -/
def errorLine (path src : String) (e : CompileError) : String :=
  let place := match e.location? src with
    | some l => ":" ++ l.render
    | none => ""
  path ++ place ++ ": error: " ++ e.cause

namespace Invocation
variable {Handle : Type} {m : Type → Type} [Monad m]

/-- Where the code goes. -/
def outputPath (i : Invocation) : String := i.output.getD (codePath i.input)

/-- How a run ends that wrote its product. What a stream took comes out, also of a write that
failed. -/
def ending (disk : Disk Handle m) (handle : Handle) (product : ByteArray) (target : String)
    (said done : List Remark) (write : Except Stopped Unit) : Ending :=
  let taken := takenOf product write
  let stdout := if disk.sink handle = .stdout then taken else .empty
  let said := if disk.sink handle = .stderr then said ++ [.bytes taken] else said
  match write with
  | .ok _ => ⟨0, stdout, said ++ done⟩
  | .error stopped => ⟨1, stdout, said ++ [.failure ("write " ++ target) stopped.cause]⟩

/-- Hands over a product. Only code goes to a file, and only if it is not asked for on the standard
output. -/
def deliver (disk : Disk Handle m) (i : Invocation) (product : String) (said : List Remark) :
    m Ending := do
  if i.toStdout || i.product ≠ .cpp then
    let write ← disk.write disk.stdout product.toUTF8
    return ending disk disk.stdout product.toUTF8 "to stdout" said [] write
  else
    match ← disk.writeFile i.outputPath product.toUTF8 with
    | .unopened cause =>
      return ⟨1, .empty, said ++ [.failure ("write " ++ i.outputPath) cause]⟩
    | .opened handle write =>
      let wrote : LogRecord := ⟨.info, "hsc", "wrote " ++ i.outputPath⟩
      return ending disk handle product.toUTF8 i.outputPath said [.record wrote] write

/-- Goes on with the text of the input, if it could be read. -/
def proceed (disk : Disk Handle m) (i : Invocation) : Except FileError String → m Ending
  | .error e => return ⟨1, .empty, [.failure ("read " ++ i.input) e]⟩
  | .ok src =>
    match produce i.product src with
    | (.error e, said) => return ⟨1, .empty, said ++ [.line (errorLine i.input src e)]⟩
    | (.ok product, said) => i.deliver disk product said

def run (disk : Disk Handle m) (i : Invocation) : m Ending := do
  i.proceed disk (← disk.readText i.input)

end Invocation

/-- A log record as a line, without colours and time. Further lines of a message are set in by four
blanks. The log holds no controls: what a message opens and does not close takes the rest of its line
along. -/
def logLine (r : LogRecord) : String :=
  let level := r.level.name ++ String.ofList (List.replicate (5 - r.level.name.length) ' ')
  let message := r.message.toList.flatMap fun c => if c = '\n' then "\n    ".toList else [c]
  Text.stripControls ("[" ++ level ++ " " ++ r.target ++ "] " ++ String.ofList message ++ "\n")

/-- What is read on the standard error, of log records only those that are at least as important as
`level`. This is the filter that the options ask for; the environment sets no other. -/
def Remark.render (level : Level) : Remark → String
  | .record r => if r.level.rank ≤ level.rank then logLine r else ""
  | .bytes b => (String.fromUTF8? b).getD ""

structure Outcome where
  code : Nat
  stdout : String
  stderr : String
deriving DecidableEq

def Ending.outcome (level : Level) (e : Ending) : Outcome :=
  ⟨e.code, (String.fromUTF8? e.stdout).getD "", String.join (e.said.map (Remark.render level))⟩

def versionText : String := "hsc 0.0.1\n"

def usage : String := "Usage: hsc [OPTIONS] <INPUT>\n"

def helpText : String :=
  "HumanScript to C++ compiler\n\n" ++ usage ++
  "\nArguments:\n  <INPUT>  HumanScript source file\n" ++
  "\nOptions:\n" ++
  "  -o, --output <OUTPUT>  Where to write the generated C++\n" ++
  "      --stdout           Write the result to stdout instead of a file\n" ++
  "      --emit <EMIT>      What to produce: tokens, ast, typed-ast or cpp\n" ++
  "  -v, --verbose...       More logging (-v for notes, -vv for stage transitions)\n" ++
  "  -q, --quiet            Only log errors\n" ++
  "  -h, --help             Print help\n" ++
  "  -V, --version          Print version\n"

/-- Runs the command with the given arguments. -/
def execute {Handle : Type} {m : Type → Type} [Monad m] (disk : Disk Handle m)
    (arguments : List String) : m Outcome :=
  match Request.ofArguments arguments with
  | .error e => return ⟨2, "", "error: " ++ e.message ++ "\n\n" ++ usage⟩
  | .ok .help => return ⟨0, helpText, ""⟩
  | .ok .version => return ⟨0, versionText, ""⟩
  | .ok (.run invocation) => do return (← invocation.run disk).outcome invocation.level

end HumanScript.Command
