import Conch.Shell.Execution

/-!
# Scripts

Runs whole programs, and scripts whose output is captured.  What a script changed in
the shell is there for the next one.
-/

namespace Conch

open Syntax (Program)

namespace Action

/-- Runs the statements of a program; control flow that no construct takes up is dropped. -/
def runProgram (executor : Executor) (program : Program) : Action Unit :=
  program.forM fun statement => do
    match ← (execute executor statement).attempt with
    | .ok _ => return
    | .error (.leaveShell status) =>
        modifyState fun state => { state with status := status }
        throw (.leaveShell status)
    | .error interruption => if interruption.leavesScope then return else throw interruption

/-- Forgets the counts of the last run and the jobs that are finished. -/
def reset : Action Unit := do
  modify fun shell =>
    { shell with
      state := { shell.state with loopDepth := 0, callDepth := 0, commands := 0 }
      substitutionStatus := none }
  reapJobs

end Action

/-- The status of a script that is no program. -/
def syntaxErrorStatus : Int := 2

namespace Shell

/-- Reports on the errors of the shell; failures to write are left alone. -/
def complain (message : String) : StateT Shell Proc Unit :=
  discard (Action.writeErrors (diagnostic message)).run

/-- The status of a run, whose interruption is reported. -/
def runStatus : Except Interruption Unit → StateT Shell Proc Int
  | .ok () => return (← get).state.status
  | .error (.leaveShell status) => return status
  | .error (.limit reached) => do
      complain reached.message
      return limitStatus
  | .error (.stream e) => do
      complain e.brief
      return 1
  | .error interruption => do
      complain interruption.message
      return 1

/-- Runs a program on the given input, with its output in two buffers. -/
def runOn (executor : Executor) (program : Program) (input : Option Text.Bytes) :
    StateT Shell Proc (Except Interruption Unit × String × String) := do
  let output ← Proc.request .newBuffer
  let errors ← Proc.request .newBuffer
  let input ← input.mapM fun bytes => Proc.request (.newInput (.bytes bytes))
  modify fun shell => { shell with streams := ⟨input, .buffer output, .buffer errors⟩ }
  let result ← (Action.runProgram executor program).run
  let written ← Proc.request (.contents output)
  let complaints ← Proc.request (.contents errors)
  return (result, Text.decodeLossy written, Text.decodeLossy complaints)

/-- Runs a program as a script of its own, with its output in two buffers. -/
def capture (executor : Executor) (program : Program) : StateT Shell Proc Completion := do
  let output ← Proc.request .newBuffer
  let errors ← Proc.request .newBuffer
  modify fun shell => { shell with streams := ⟨none, .buffer output, .buffer errors⟩ }
  let result ← (do Action.reset; Action.runProgram executor program : Action Unit).run
  let status ← runStatus result
  modify fun shell =>
    { shell with state := { shell.state with status := status }, streams := .silent }
  let written ← Proc.request (.contents output)
  let complaints ← Proc.request (.contents errors)
  return ⟨Text.decodeLossy written, Text.decodeLossy complaints, status⟩

/-- Runs a script and captures its output. -/
def exec (executor : Executor) (script : String) : StateT Shell Proc Completion :=
  match Syntax.parse script with
  | .error e => return ⟨"", diagnostic ("syntax error: " ++ e.display), syntaxErrorStatus⟩
  | .ok program => capture executor program

end Shell

/-- What a shell is created with. -/
structure ShellOptions where
  environment : List (String × String)
  directory : Option String
  limits : Limits
  deriving DecidableEq, Repr

namespace ShellOptions

def standard : ShellOptions := ⟨[], none, .standard⟩

end ShellOptions

/-- A shell with its environment and working directory exported. -/
def Shell.create (options : ShellOptions) (directory : String) (pid : Nat) : Shell :=
  let state := options.environment.foldl
    (fun state entry => (state.set entry.1 entry.2).exportName entry.1)
    (State.initial (options.directory.getD directory) pid)
  .new ((state.set "PWD" state.directory).exportName "PWD") options.limits

end Conch
