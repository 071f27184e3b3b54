import HumanScript.Diagnostic
import HumanScript.Program.Reader
import HumanScript.Cpp.Lower

/-! From source text to C++ code. Each step stops at its first error; remarks and log records
made up to there are kept. -/
namespace HumanScript

inductive CompileError where
  | parse (error : Spanned ParseError)
  | check (error : Spanned CheckError)
  | emit (error : EmitError)
deriving DecidableEq

namespace CompileError

def span? : CompileError → Option Span
  | parse error => some error.span
  | check error => some error.span
  | emit _ => none

/-- Where in `src` the error is. -/
def location? (e : CompileError) (src : String) : Option Location := e.span?.map (·.location src)

/-- The cause, without its place. -/
def cause : CompileError → String
  | parse error => error.value.message
  | check error => error.value.message
  | emit error => error.message

/-- The cause behind its place. -/
def message : CompileError → String
  | parse error => error.render ParseError.message
  | check error => error.render CheckError.message
  | emit error => error.message

end CompileError

/-- How a step ended, and what was remarked and logged on the way. -/
structure Report (α : Type) where
  result : Except CompileError α
  diagnostics : List Diagnostic
  log : List LogRecord

namespace Report
variable {α β : Type}

def ofExcept (result : Except CompileError α) : Report α := ⟨result, [], []⟩

/-- Goes on with the result, unless it is an error. -/
def bind (r : Report α) (f : α → Report β) : Report β :=
  match r.result with
  | .error e => ⟨.error e, r.diagnostics, r.log⟩
  | .ok a =>
    let s := f a
    ⟨s.result, r.diagnostics ++ s.diagnostics, r.log ++ s.log⟩

instance : Monad Report where
  pure a := ofExcept (.ok a)
  bind := bind

/-- Logs the progress of the work. -/
def trace (message : String) : Report Unit :=
  ⟨.ok (), [], [⟨.debug, "humanscript::pipeline", message⟩]⟩

/-- Makes remarks about `src`, each with its log record. -/
def remark (src : String) (diagnostics : List Diagnostic) : Report Unit :=
  let cs := src.toList
  ⟨.ok (), diagnostics, diagnostics.map (·.record cs)⟩

end Report

/-- The program that a text spells. Reading goes on over what the lexer could mend. -/
def parse (src : String) : Report (Program Unit) := do
  Report.trace ("parsing " ++ toString src.utf8ByteSize ++ " bytes")
  let lexed := Lexed.ofSource src
  Report.remark src (lexed.errors.map .ofLexError)
  let program ← .ofExcept (lexed.program.mapError .parse)
  Report.trace ("parsed " ++ toString lexed.all.length ++ " tokens into " ++
    toString program.imports.length ++ " imports and " ++ toString program.body.length ++
    " statements")
  return program

def check (src : String) : Report (Checked (Program Ty)) := do
  let program ← parse src
  Report.trace "checking"
  let checked ← .ofExcept (program.check.mapError .check)
  Report.remark src (checked.notes.map .ofNote)
  Report.trace (toString checked.symbols.size ++ " variables declared")
  return checked

/-- The C++ code of a text. -/
def compile (src : String) : Report String := do
  let checked ← check src
  Report.trace "generating code"
  let program ← .ofExcept (checked.value.toCpp.mapError .emit)
  let code := program.render
  Report.trace ("generated " ++ toString code.utf8ByteSize ++ " bytes")
  return code

end HumanScript
