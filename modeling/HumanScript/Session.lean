import HumanScript.Compile
import HumanScript.Program.Outline

/-! A series of requests that share their buffers. -/
namespace HumanScript

/-- What is kept from one request to the next. -/
structure Session where
  tokens : List Token
  lexErrors : List (Spanned LexError)
  diagnostics : List Diagnostic

namespace Session

inductive Request where
  | lex (src : String)
  | readProgram (src : String)
  | readExpr (src : String)
  | parse (src : String)
  | check (src : String)
  | clearTokens
  | clearErrors

inductive Reply where
  | done
  /-- The token buffer still holds tokens; nothing was changed. -/
  | occupied
  | outline (text : String)
  | misread (error : Spanned ParseError)
  | failed (error : CompileError) (location : Option Location)

def empty : Session := ⟨[], [], []⟩

/-- Fills the token buffer, if it is empty, and answers from what was read. -/
def read (s : Session) (src : String) (answer : Lexed → Reply) : Reply × Session :=
  if s.tokens.isEmpty then
    let lexed := Lexed.ofSource src
    (answer lexed, { s with tokens := lexed.all, lexErrors := s.lexErrors ++ lexed.errors })
  else (.occupied, s)

/-- The answer to a reading: the outline of what was read, or the error. -/
def answer {α : Type} (outline : α → List String) : Except (Spanned ParseError) α → Reply
  | .ok a => .outline (Text.unlines (outline a))
  | .error e => .misread e

/-- Runs a compilation step and keeps its remarks. -/
def run {α : Type} (s : Session) (src : String) (report : Report α) (outline : α → List String) :
    Reply × Session × List LogRecord :=
  let reply := match report.result with
    | .ok a => .outline (Text.unlines (outline a))
    | .error e => .failed e (e.location? src)
  (reply, { s with diagnostics := s.diagnostics ++ report.diagnostics }, report.log)

/-- Answers a request; also the buffers after it, and the log of this request. -/
def step (s : Session) : Request → Reply × Session × List LogRecord
  | .lex src => let (reply, s) := s.read src fun _ => .done; (reply, s, [])
  | .readProgram src =>
    let (reply, s) := s.read src fun l => answer (Program.outline Outline.untyped) l.program
    (reply, s, [])
  | .readExpr src =>
    let (reply, s) := s.read src fun l => answer (Expr.outline Outline.untyped 0) l.expr
    (reply, s, [])
  | .parse src => s.run src (HumanScript.parse src) (Program.outline Outline.untyped)
  | .check src => s.run src (HumanScript.check src) fun c => Program.outline Outline.typed c.value
  | .clearTokens => (.done, { s with tokens := [] }, [])
  | .clearErrors => (.done, { s with lexErrors := [] }, [])

end Session
end HumanScript
