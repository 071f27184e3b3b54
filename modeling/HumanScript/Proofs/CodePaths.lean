import HumanScript.Command.Path
import Mathlib.Data.List.DropRight

/-! Paths taken apart and put together. The code of a source file goes to the directory that the
path of the source file names, under a name that is not the source file's. -/
namespace HumanScript.Command

theorem segments_ne_nil (path : List Char) : segments path ≠ [] := by
  fun_cases segments path <;> simp

end HumanScript.Command
