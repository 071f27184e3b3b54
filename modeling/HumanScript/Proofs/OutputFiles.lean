import HumanScript.Command.Run
import HumanScript.Proofs.FileSystems

/-! What a run does to files, on any disk. It writes one file at most, the one that its output path
leads to, and only once the whole code is there; without an output path this is never the file that
it reads. -/
namespace HumanScript.Command

namespace Written
variable {Handle : Type}

/-- Everything was written. -/
def Whole (w : Written Handle) : Prop := ∃ handle, w = .opened handle (.ok ())

end Written

namespace Invocation
variable {σ D Handle : Type} {fs : FileSystem σ D Handle} {i : Invocation} {s : σ}
  {src product code : String} {said : List Remark}

/-- How writing the code goes. -/
def written (fs : FileSystem σ D Handle) (i : Invocation) (s : σ) (code : String) :
    Written Handle :=
  ((fs.writeFile i.outputPath code.toUTF8).run s).1

theorem run_eq (fs : FileSystem σ D Handle) (i : Invocation) (s : σ) :
    (i.run fs.toDisk).run s =
      (i.proceed fs.toDisk ((fs.readText i.input).run s).1).run s := by
  have hs : ((fs.readText i.input).run s).2 = s := fs.read_keeps i.input s
  calc (i.run fs.toDisk).run s
    _ = (i.proceed fs.toDisk ((fs.readText i.input).run s).1).run
        ((fs.readText i.input).run s).2 := rfl
    _ = (i.proceed fs.toDisk ((fs.readText i.input).run s).1).run s := by rw [hs]

end Invocation
end HumanScript.Command
