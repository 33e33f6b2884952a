import Conch.CommandLine.Run
import Conch.Tools.Programs
import Conch.World.Host

/-!
# The program

Runs the command with the arguments of the process.
-/

open Conch

/-- The number that scripts see as that of the process. -/
def shellPid : Nat := 1

def main (arguments : List String) : IO UInt32 := do
  let directory := toString (← IO.currentDir)
  let status ← Host.run (CommandLine.run Programs.executor directory shellPid arguments)
  return (status.getD 1).toUInt32
