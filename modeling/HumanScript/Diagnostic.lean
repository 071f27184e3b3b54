import HumanScript.Lexeme
import HumanScript.Program.Check

/-! Remarks about a source text, and the log records that they leave. -/
namespace HumanScript

/-- Importance of a log record. -/
inductive Level where
  | error
  | warn
  | info
  | debug
deriving DecidableEq

namespace Level

def name : Level → String
  | error => "ERROR"
  | warn => "WARN"
  | info => "INFO"
  | debug => "DEBUG"

/-- The most important level comes first. -/
def rank : Level → Nat
  | error => 0
  | warn => 1
  | info => 2
  | debug => 3

end Level

structure LogRecord where
  level : Level
  target : String
  message : String
deriving DecidableEq

inductive Severity where
  | info
  | warning
  | error
deriving DecidableEq

namespace Severity

def name : Severity → String
  | info => "info"
  | warning => "warning"
  | error => "error"

def level : Severity → Level
  | info => .info
  | warning => .warn
  | error => .error

/-- The gravest severity comes last. -/
def rank : Severity → Nat
  | info => 0
  | warning => 1
  | error => 2

instance : Ord Severity := ⟨fun a b => compare a.rank b.rank⟩

end Severity

/-- The part of the work that a remark comes from. -/
inductive Stage where
  | lexer
  | checker
deriving DecidableEq

namespace Stage

def name : Stage → String
  | lexer => "Lexer"
  | checker => "Checker"

/-- Where the stage's log records are filed. -/
def target : Stage → String
  | lexer => "humanscript::lexer"
  | checker => "humanscript::checker"

end Stage

structure Diagnostic where
  severity : Severity
  stage : Stage
  span : Span
  message : String
deriving DecidableEq

namespace Diagnostic

def ofLexError (e : Spanned LexError) : Diagnostic :=
  ⟨if e.value.isWarning then .warning else .error, .lexer, e.span, e.value.message⟩

def ofNote (n : Spanned Note) : Diagnostic := ⟨.info, .checker, n.span, n.value.message⟩

def render (d : Diagnostic) : String := d.severity.name ++ ": " ++ d.message

/-- The log record of a remark about a place. -/
def recordAt (d : Diagnostic) (l : Location) : LogRecord :=
  ⟨d.severity.level, d.stage.target, l.render ++ ": " ++ d.message⟩

/-- The log record of a remark about a text. -/
def record (d : Diagnostic) (cs : List Char) : LogRecord := d.recordAt (d.span.locationIn cs)

end Diagnostic
end HumanScript
