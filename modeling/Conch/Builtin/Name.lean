/-!
# Builtin commands

The names of the commands that the shell runs itself.  A special builtin is found
before a function of the same name, a regular one after it.
-/

namespace Conch

inductive Builtin where
  | colon | breakLoop | continueLoop | exitShell | exportNames | returnStatus | shift | unset
  | cd | echo | falseStatus | jobs | pwd | trueStatus | wait
  /-- `echo` that takes escapes in its arguments. -/
  | echoEscaped
  | kill | read
  deriving DecidableEq, Repr

/-- What kind of shell it is. -/
inductive Dialect where
  /-- A shell inside another program. -/
  | embedded
  /-- An interpreter of script files.  It has more builtins, and its loops end with the status of
  their body. -/
  | standalone
  deriving DecidableEq, Repr

namespace Builtin

def name : Builtin → String
  | colon => ":"
  | breakLoop => "break"
  | continueLoop => "continue"
  | exitShell => "exit"
  | exportNames => "export"
  | returnStatus => "return"
  | shift => "shift"
  | unset => "unset"
  | cd => "cd"
  | echo => "echo"
  | falseStatus => "false"
  | jobs => "jobs"
  | pwd => "pwd"
  | trueStatus => "true"
  | wait => "wait"
  | echoEscaped => "echo"
  | kill => "kill"
  | read => "read"

def special : List Builtin :=
  [colon, breakLoop, continueLoop, exitShell, exportNames, returnStatus, shift, unset]

def regular : List Builtin := [cd, echo, falseStatus, jobs, pwd, trueStatus, wait]

/-- What interpreters of script files have instead of the others or besides them. -/
def standalone : List Builtin := [echoEscaped, kill, read]

def isSpecial (builtin : Builtin) : Bool := special.contains builtin

def ofName? (name : String) : Option Builtin :=
  (special ++ regular).find? (fun builtin => builtin.name == name)

/-- The builtin that a name stands for in a shell. -/
def find? (dialect : Dialect) (name : String) : Option Builtin :=
  match dialect with
  | .embedded => ofName? name
  | .standalone =>
      (standalone ++ special ++ regular).find? (fun builtin => builtin.name == name)

end Builtin

/-- What a builtin writes, and its status. -/
structure Completion where
  output : String
  errors : String
  status : Int
  deriving DecidableEq, Repr

namespace Completion

def ok : Completion := ⟨"", "", 0⟩

def success (output : String) : Completion := ⟨output, "", 0⟩

def failure (errors : String) : Completion := ⟨"", errors, 1⟩

end Completion

end Conch
