/-! Programs of any size that use every kind of statement. -/
namespace HumanScript.Sample

/-- One group of statements. Its names end in `i`, so that no two groups share one. -/
def group (i : Nat) : String :=
  let i := toString i
  "number n" ++ i ++ " := " ++ i ++ ";\n" ++
  "lnumber l" ++ i ++ " := n" ++ i ++ " + 9000000000;\n" ++
  "riel r" ++ i ++ " := l" ++ i ++ " + 0.5;\n" ++
  "text t" ++ i ++ " := \"item \" + n" ++ i ++ " + \" is \\\"" ++ i ++ "\\\"\";\n" ++
  "logic b" ++ i ++ " := r" ++ i ++ " ?= l" ++ i ++ ";\n" ++
  "// comment " ++ i ++ "\n" ++
  "if (b" ++ i ++ ") says t" ++ i ++ ";\n" ++
  "else \x7b\n" ++
  "    says \"ratio: \" + r" ++ i ++ ";\n" ++
  "    if (n" ++ i ++ " ?= " ++ i ++ ") says b" ++ i ++ ";\n" ++
  "\x7d\n"

/-- A program of `count` groups. -/
def program (count : Nat) : String :=
  "use <iostream>;\nuse <string>;\n" ++ String.join ((List.range count).map group)

end HumanScript.Sample
