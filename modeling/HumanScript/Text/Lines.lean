/-! Lines of text. -/
namespace HumanScript.Text

/-- A line behind some blanks. -/
def indented (blanks : Nat) (text : String) : String :=
  String.ofList (List.replicate blanks ' ') ++ text

/-- The lines as one text, each with a newline after it. -/
def unlines (lines : List String) : String := String.join (lines.map (· ++ "\n"))

end HumanScript.Text
