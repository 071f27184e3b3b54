import HumanScript.Session
import HumanScript.Sample
import HumanScript.Main
import HumanScript.Proofs.Except
import HumanScript.Proofs.Reading
import HumanScript.Proofs.Grammar
import HumanScript.Proofs.Derivation
import HumanScript.Proofs.Lexing
import HumanScript.Proofs.Parsing.Expressions
import HumanScript.Proofs.Parsing.Statements
import HumanScript.Proofs.Parsing.Programs
import HumanScript.Proofs.Typing
import HumanScript.Proofs.Events
import HumanScript.Proofs.Lowering
import HumanScript.Proofs.Scoping
import HumanScript.Proofs.StaticTypes
import HumanScript.Proofs.Valued
import HumanScript.Proofs.Scanning
import HumanScript.Proofs.MaximalMunch
import HumanScript.Proofs.Parsing.FirstError
import HumanScript.Proofs.Slices
import HumanScript.Proofs.FlatScope
import HumanScript.Proofs.Alike
import HumanScript.Proofs.Parsing.Alike
import HumanScript.Proofs.Formatting
import HumanScript.Proofs.ByteCursor
import HumanScript.Proofs.Boundaries
import HumanScript.Proofs.Mentions
import HumanScript.Proofs.HeaderPlan
import HumanScript.Proofs.Records
import HumanScript.Proofs.Diagnostics
import HumanScript.Proofs.Parsing.Descent
import HumanScript.Proofs.NumberText
import HumanScript.Proofs.UniqueReading
import HumanScript.Proofs.UniqueLines
import HumanScript.Proofs.Recovery
import HumanScript.Proofs.Literals
import HumanScript.Proofs.IntegerLiterals
import HumanScript.Proofs.Brackets
import HumanScript.Proofs.CodeLayout
import HumanScript.Proofs.Faults
import HumanScript.Proofs.Concatenation
import HumanScript.Proofs.QuotedText
import HumanScript.Proofs.OutlineLines
import HumanScript.Proofs.Outlines
import HumanScript.Proofs.SharedEscapes
import HumanScript.Proofs.Locations
import HumanScript.Proofs.SpacedText
import HumanScript.Proofs.SamplePrograms
import HumanScript.Proofs.CodePaths
import HumanScript.Proofs.OutputFiles
import HumanScript.Proofs.Joins
import HumanScript.Proofs.LexingRounds
import HumanScript.Proofs.Parsing.Walk
import HumanScript.Proofs.Parsing.Progress
import HumanScript.Proofs.FileSystems
