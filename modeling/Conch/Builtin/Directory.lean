import Conch.Builtin.Name
import Conch.Effect.Proc
import Conch.Files.Path

/-!
# Changing the directory

`cd` follows dots in the text of a path and then asks for the directory; only with
`-P` does it replace links.  A call that fails changes nothing.
-/

namespace Conch.Builtin

/-- The options before the directory: whether links are replaced, and the other arguments. -/
def directoryOptions (physical : Bool) : List String → Bool × List String
  | "--" :: rest => (physical, rest)
  | "-P" :: rest => directoryOptions true rest
  | "-L" :: rest => directoryOptions false rest
  | rest => (physical, rest)

/-- Where to go, and whether the new directory is written. -/
def directoryTarget (state : State) : List String → Option (String × Bool)
  | [] | "~" :: _ => (state.get? "HOME").map (fun home => (home, false))
  | "-" :: _ => some (state.previousDirectory, true)
  | directory :: _ => some (directory, false)

/-- The state in another directory. -/
def enterDirectory (state : State) (directory : String) : State :=
  (({ state with previousDirectory := state.directory, directory := directory }).set "PWD"
    directory).set "OLDPWD" state.directory

def runCd (state : State) (args : List String) : Proc (Completion × State) := do
  let (physical, rest) := directoryOptions false args
  match directoryTarget state rest with
  | none => return (.failure "treesh: cd: HOME not set\n", state)
  | some (target, isWritten) =>
      let failure (reason : String) :=
        Completion.failure ("treesh: cd: " ++ target ++ ": " ++ reason ++ "\n")
      let joined := if Path.isAbsolute target then target else state.directory ++ "/" ++ target
      let path := Path.normalize joined
      match ← Proc.call (.describe path) with
      | none => return (failure "No such file or directory", state)
      | some ⟨false, _⟩ => return (failure "Not a directory", state)
      | some ⟨true, _⟩ =>
          let canonical ← if physical then Proc.call (.canonical path) else pure none
          let directory := canonical.getD path
          return (if isWritten then .success (directory ++ "\n") else .ok, enterDirectory state directory)

end Conch.Builtin
