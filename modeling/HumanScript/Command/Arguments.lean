import HumanScript.Diagnostic

/-! The arguments of the command. -/
namespace HumanScript.Command

/-- What the command produces. -/
inductive Product where
  | tokens
  | ast
  | typedAst
  | cpp
deriving DecidableEq

def Product.ofName? : String → Option Product
  | "tokens" => some .tokens
  | "ast" => some .ast
  | "typed-ast" => some .typedAst
  | "cpp" => some .cpp
  | _ => none

/-- A run that the arguments ask for. -/
structure Invocation where
  input : String
  output : Option String
  toStdout : Bool
  product : Product
  /-- The least important log records that are shown. -/
  level : Level
deriving DecidableEq

inductive Request where
  | help
  | version
  | run (invocation : Invocation)
deriving DecidableEq

inductive ArgumentError where
  | unknown (argument : String)
  | repeated (option : String)
  | missingValue (option : String)
  | unwantedValue (option : String)
  | invalidValue (option value : String)
  | conflict (option other : String)
  | missingInput
deriving DecidableEq

def ArgumentError.message : ArgumentError → String
  | unknown argument => "unexpected argument '" ++ argument ++ "' found"
  | repeated option => "the argument '" ++ option ++ "' cannot be used multiple times"
  | missingValue option => "a value is required for '" ++ option ++ "' but none was supplied"
  | unwantedValue option => "unexpected value for '" ++ option ++ "' found"
  | invalidValue option value => "invalid value '" ++ value ++ "' for '" ++ option ++ "'"
  | conflict option other => "the argument '" ++ option ++ "' cannot be used with '" ++ other ++ "'"
  | missingInput => "the following required arguments were not provided: <INPUT>"

/-- An option that takes a value. -/
inductive ValueOption where
  | output
  | emit
deriving DecidableEq

def ValueOption.name : ValueOption → String
  | output => "--output"
  | emit => "--emit"

/-- The arguments read so far. -/
structure Given where
  input : Option String
  output : Option String
  product : Option Product
  toStdout : Bool
  verbosity : Nat
  quiet : Bool

namespace Given

def nothing : Given := ⟨none, none, none, false, 0, false⟩

/-- An option with its value, at most once. A path is never empty. -/
def setValue (g : Given) (value : String) : ValueOption → Except ArgumentError Given
  | .output =>
    if g.output.isSome then .error (.repeated "--output")
    else if value.isEmpty then .error (.missingValue "--output")
    else .ok { g with output := some value }
  | .emit =>
    if g.product.isSome then .error (.repeated "--emit")
    else match Product.ofName? value with
      | some product => .ok { g with product := some product }
      | none => .error (.invalidValue "--emit" value)

def setInput (g : Given) (path : String) : Except ArgumentError Given :=
  if g.input.isSome then .error (.unknown path)
  else if path.isEmpty then .error (.missingValue "<INPUT>")
  else .ok { g with input := some path }

def setStdout (g : Given) : Except ArgumentError Given :=
  if g.toStdout then .error (.repeated "--stdout") else .ok { g with toStdout := true }

def setQuiet (g : Given) : Except ArgumentError Given :=
  if g.quiet then .error (.repeated "--quiet") else .ok { g with quiet := true }

def addVerbose (g : Given) : Given := { g with verbosity := g.verbosity + 1 }

/-- Warnings show by default; each `-v` shows more, and `-q` only errors. -/
def level (g : Given) : Level :=
  if g.quiet then .error
  else match g.verbosity with
    | 0 => .warn
    | 1 => .info
    | _ => .debug

/-- The run that all arguments together ask for. -/
def invocation (g : Given) : Except ArgumentError Invocation :=
  if g.output.isSome ∧ g.toStdout then .error (.conflict "--output" "--stdout")
  else if g.quiet ∧ 0 < g.verbosity then .error (.conflict "--quiet" "--verbose")
  else match g.input with
    | none => .error .missingInput
    | some input => .ok ⟨input, g.output, g.toStdout, g.product.getD .cpp, g.level⟩

end Given

/-- What one argument leads to. -/
inductive Step where
  | next (given : Given)
  /-- The value of an option is in the next argument. -/
  | wants (option : ValueOption) (given : Given)
  | stop (request : Request)

namespace Step

/-- Short options behind one dash. One that takes a value takes the rest, less an equals sign. -/
def ofShort (g : Given) : List Char → Except ArgumentError Step
  | [] => .ok (.next g)
  | 'v' :: more => ofShort g.addVerbose more
  | 'q' :: more => do ofShort (← g.setQuiet) more
  | 'V' :: _ => .ok (.stop .version)
  | 'h' :: _ => .ok (.stop .help)
  | ['o'] => .ok (.wants .output g)
  | 'o' :: '=' :: value => do return .next (← g.setValue (String.ofList value) .output)
  | 'o' :: value => do return .next (← g.setValue (String.ofList value) .output)
  | c :: _ => .error (.unknown (String.ofList ['-', c]))

/-- A long option, with the value after its equals sign if it has one. -/
def ofLong (g : Given) (name : String) : Option String → Except ArgumentError Step
  | some value =>
    match name with
    | "output" => do return .next (← g.setValue value .output)
    | "emit" => do return .next (← g.setValue value .emit)
    | "stdout" | "verbose" | "quiet" | "help" | "version" => .error (.unwantedValue ("--" ++ name))
    | _ => .error (.unknown ("--" ++ name))
  | none =>
    match name with
    | "output" => .ok (.wants .output g)
    | "emit" => .ok (.wants .emit g)
    | "stdout" => do return .next (← g.setStdout)
    | "verbose" => .ok (.next g.addVerbose)
    | "quiet" => do return .next (← g.setQuiet)
    | "help" => .ok (.stop .help)
    | "version" => .ok (.stop .version)
    | _ => .error (.unknown ("--" ++ name))

/-- A single dash is a path. -/
def ofArgument (g : Given) (argument : String) : Except ArgumentError Step :=
  match argument.toList with
  | '-' :: '-' :: long =>
    let name := long.takeWhile (· ≠ '=')
    let value := match long.dropWhile (· ≠ '=') with
      | [] => none
      | _ :: value => some (String.ofList value)
    ofLong g (String.ofList name) value
  | '-' :: c :: short => ofShort g (c :: short)
  | _ => do return .next (← g.setInput argument)

end Step

/-- Whether an argument can be the value of the option before it. -/
def isValue (argument : String) : Bool :=
  argument = "-" || argument.toList.head? ≠ some '-'

namespace Given

/-- Reads the arguments in order. The first wrong one decides, unless help or the version was asked
for before it. -/
def read (g : Given) : List String → Except ArgumentError Request
  | [] => do return .run (← g.invocation)
  | argument :: more =>
    if argument = "--" then do
      let g ← more.foldlM Given.setInput g
      return .run (← g.invocation)
    else
      match Step.ofArgument g argument with
      | .error e => .error e
      | .ok (.stop request) => .ok request
      | .ok (.next g) => read g more
      | .ok (.wants option g) =>
        match more with
        | [] => .error (.missingValue option.name)
        | value :: more =>
          if isValue value then
            match g.setValue value option with
            | .error e => .error e
            | .ok g => read g more
          else .error (.missingValue option.name)

end Given

namespace Request

def ofArguments (arguments : List String) : Except ArgumentError Request :=
  Given.nothing.read arguments

end Request
end HumanScript.Command
