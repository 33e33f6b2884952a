import Conch.Effect.Proc
import Conch.Files.Path

/-!
# Looking up commands

Finds the file that a command name stands for.  A name with a slash is a path; any
other name is looked for in the directories of the search path, of which the first
with an executable file of that name wins.
-/

namespace Conch.Lookup

/-- The search path of a shell that has none. -/
def defaultPath : String := "/usr/local/bin:/usr/bin:/bin"

/-- The directories of a search path; empty ones are left out. -/
def directories (searchPath : String) : List String :=
  ((searchPath.toList.splitOn ':').filter (· ≠ [])).map String.ofList

/-- A name with a slash is a path. -/
def isPath (name : String) : Bool := name.toList.contains '/'

/-- The path of a name in a directory. -/
def within (directory name : String) : String :=
  if directory.toList.getLast? = some '/' then directory ++ name else directory ++ "/" ++ name

/-- The path as seen from a directory. -/
def seenFrom (directory path : String) : String :=
  if Path.isAbsolute path then path else within directory path

inductive Found where
  | command (path : String)
  /-- There is a file, but it cannot be executed. -/
  | denied (path : String)
  | missing
  deriving DecidableEq, Repr

/-- What a path stands for. -/
def atPath (path : String) : Proc Found := do
  match ← Proc.call (.describe path) with
  | none => return .missing
  | some known =>
      if known.isDirectory || !isExecutableMode known.mode then return .denied path
      else return .command path

/-- Looks in one directory after the other; a file that cannot be executed is remembered. -/
def inDirectories (name : String) (fallback : Found) : List String → Proc Found
  | [] => return fallback
  | directory :: rest => do
      let path := within directory name
      match ← Proc.call (.describe path) with
      | none => inDirectories name fallback rest
      | some known =>
          if known.isDirectory then inDirectories name fallback rest
          else if isExecutableMode known.mode then return .command path
          else inDirectories name (if fallback = .missing then .denied path else fallback) rest

/-- What a command name stands for in a directory. -/
def find (directory : String) (searchPath : Option String) (name : String) : Proc Found :=
  if isPath name then atPath (seenFrom directory name)
  else
    inDirectories name .missing
      ((directories (searchPath.getD defaultPath)).map (seenFrom directory))

end Conch.Lookup
