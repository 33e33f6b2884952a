import Conch.Shell.Invocation
import Conch.Shell.Redirection

/-!
# Simple commands

A simple command has assignments, words and redirections.  Without words the
assignments change the shell; with words they hold for this command alone, exported,
and so do the redirections.
-/

namespace Conch

open Syntax (Node)

structure Assignment where
  name : String
  value : Node

namespace Assignment

/-- A leading `NAME=value` word. -/
def ofWord? : Node → Option Assignment
  | .word (.literal text :: rest) =>
      match Builtin.splitAssignment text with
      | (name, some value) =>
          if Syntax.isName name then
            some ⟨name, .word (if value.isEmpty then rest else .literal value :: rest)⟩
          else none
      | (_, none) => none
  | _ => none

end Assignment

/-- The parts of a simple command. -/
structure CommandParts where
  assignments : List Assignment
  words : List Node
  redirections : List Redirection

namespace CommandParts

/-- The assignments at the head of a list of words, and the words after them. -/
def splitAssignments : List Node → List Assignment × List Node
  | [] => ([], [])
  | word :: rest =>
      match Assignment.ofWord? word with
      | some assignment =>
          let (assignments, words) := splitAssignments rest
          (assignment :: assignments, words)
      | none => ([], word :: rest)

/-- Sorts the arguments of a command; redirections may stand anywhere. -/
def ofArgs (args : List Node) : CommandParts :=
  let (assignments, words) :=
    splitAssignments (args.filter (fun arg => (Redirection.ofNode? arg).isNone))
  ⟨assignments, words, args.filterMap Redirection.ofNode?⟩

end CommandParts

/-- What a variable was before a command with an assignment to it. -/
structure SavedVariable where
  name : String
  value : Option String
  isExported : Bool
  deriving DecidableEq, Repr

namespace State

/-- Assigns and exports; the second part says what was there before. -/
def pushAssignment (state : State) (name value : String) : State × SavedVariable :=
  ((state.set name value).exportName name, ⟨name, state.get? name, state.isExported name⟩)

/-- Assigns one after the other; what was there before is given with the last one first. -/
def pushAssignments (state : State) (saved : List SavedVariable) :
    List (String × String) → State × List SavedVariable
  | [] => (state, saved)
  | (name, value) :: rest =>
      let (state, before) := state.pushAssignment name value
      state.pushAssignments (before :: saved) rest

def restore (state : State) (saved : SavedVariable) : State :=
  let state := { state with bindings := state.bindings.set saved.name saved.value }
  if saved.isExported then state else state.unexportName saved.name

end State

/-- Counts a simple command that starts. -/
def countCommand : Action Unit := do
  Action.request .command
  Action.modifyState fun state => { state with commands := state.commands + 1 }
  let shell ← get
  if shell.limits.commands < shell.state.commands then
    throw (.limit (.commands shell.limits.commands))

section

variable (executor : Executor) (call : Node → Action Int) (parts : Evaluator)

/-- A command without words: assigns, and opens the files of redirections. -/
def assignOnly (command : CommandParts) : Action Int := do
  command.assignments.forM fun assignment => do
    let value ← expandSingle parts assignment.value
    Action.modifyState (·.set assignment.name value)
  discard (redirectAll parts command.redirections)
  return (← get).substitutionStatus.getD 0

/-- Runs a command under its assignments and redirections. -/
def invokeUnder (command : CommandParts) (arguments : List String) : Action Int := do
  let values ← command.assignments.mapM fun assignment => do
    return (assignment.name, ← expandSingle parts assignment.value)
  let streams ← redirectAll parts command.redirections
  let outer := (← get).streams
  let (state, saved) := (← Action.state).pushAssignments [] values
  modify fun shell => { shell with state := state, streams := streams }
  Action.ensuring
    (fun shell =>
      { shell with state := saved.foldl State.restore shell.state, streams := outer })
    (invoke executor call arguments)

def runSimple (args : List Node) : Action Int := do
  let command := CommandParts.ofArgs args
  modify fun shell => { shell with substitutionStatus := none }
  let arguments ← expandWords parts command.words
  if arguments.isEmpty then assignOnly parts command
  else invokeUnder executor call parts command arguments

/-- The status of a job that ended early; only a crash is none. -/
def jobStatus : Except Interruption Int → Action Int
  | .ok status => return status
  | .error .crash => throw .crash
  | .error (.limit reached) => do
      discard (Action.writeErrors (diagnostic reached.message)).attempt
      return limitStatus
  | .error _ => return 1

/-- Starts a command as a background job on a copy of the shell. -/
def startJob (args : List Node) : Action Int := do
  let shell ← get
  let body : Action Int := do
    let result ← (Action.recording (do countCommand; runSimple executor call parts args)).attempt
    jobStatus (← (Action.endWith result).attempt)
  let job : Proc Outcome := do
    let (result, shell) ← body shell.fork
    return .shell result shell.state
  let task ← (Proc.start true job : Proc TaskId)
  let (id, jobs) := shell.jobs.spawn (Node.command args false).render task
  modify fun shell =>
    { shell with jobs := jobs, state := { shell.state with lastJob := some id } }
  return 0

def runCommand (args : List Node) (background : Bool) : Action Int := do
  countCommand
  if background then startJob executor call parts args
  else runSimple executor call parts args

end

end Conch
