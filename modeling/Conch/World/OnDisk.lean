import Conch.Files.Disk
import Conch.World.Run

/-!
# Running on a disk

Runs programs whose calls a disk in memory answers.
-/

namespace Conch

/-- Runs a program on a disk; there is no result if the program waits for ever. -/
def Disk.run {α : Type} (disk : Disk) (main : Proc α) : Option α × Disk :=
  let perform (c : Call) : StateM Disk c.Reply := fun disk => disk.perform c
  (Proc.run perform main).run disk

end Conch
