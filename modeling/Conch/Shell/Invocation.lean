import Conch.Builtin.Control
import Conch.Builtin.Directory
import Conch.Builtin.Escape
import Conch.Builtin.Input
import Conch.Builtin.Variables
import Conch.Shell.Job

/-!
# Invoking commands

A command name stands for a special builtin, a function, a regular builtin or an
external command, in this order.  External commands are run by an executor, which is
given what they can see of the shell.
-/

namespace Conch

open Syntax (Node)

/-- What an external command is given. -/
structure ExternalCommand where
  /-- The name of the command and its arguments. -/
  arguments : List String
  environment : List (String × String)
  directory : String
  /-- Where commands are looked for. -/
  searchPath : Option String
  deriving DecidableEq, Repr

/-- All the texts that the program of a command is given. -/
def ExternalCommand.texts (command : ExternalCommand) : List String :=
  command.arguments ++ command.environment.map (fun entry => entry.1 ++ "=" ++ entry.2)

/-- Runs external commands to their status. -/
abbrev Executor := ExternalCommand → Streams → Proc (Except ExternalFault Int)

/-- Writes what a builtin has to say. -/
def Action.emit (completion : Completion) : Action Int := do
  writeOutput completion.output
  writeErrors completion.errors
  return completion.status

/-- Runs a builtin that only works on the state. -/
def Action.onState (run : State → Completion × State) : Action Int := do
  let (completion, state) := run (← state)
  modifyState fun _ => state
  emit completion

def Action.onEffect (effect : Builtin.Effect) : Action Int :=
  match effect with
  | .ok completion => emit completion
  | .error interruption => throw interruption

namespace Builtin

def echoText (args : List String) : String :=
  let shown := args.dropWhile (· == "-n")
  " ".intercalate shown ++ (if shown.length < args.length then "" else "\n")

def runExit (args : List String) : Action Int := do
  let (status, complaint) := exitStatus (← Action.state) args
  Action.writeErrors complaint
  Action.modifyState fun state => { state with status := status }
  throw (.leaveShell status)

/-- Lists the jobs and forgets the finished ones. -/
def runJobs : Action Int := do
  let entries ← Action.jobStates
  Action.reapJobs
  Action.emit (.success (String.join (entries.map jobLine)))

/-- Waits for one job; the status is 127 if there is none of this number. -/
def waitOne (reached : Completion) (arg : String) : Action Completion := do
  let id := Text.word32? (String.ofList (arg.toList.dropWhile (· == '%')))
  let status ←
    match id with
    | some id => Action.waitFor id
    | none => pure none
  match status with
  | some status => return { reached with status := status }
  | none =>
      return ⟨"", reached.errors ++ "treesh: wait: " ++ arg ++ ": no such job\n", 127⟩

def runWait (args : List String) : Action Int := do
  if args.isEmpty then
    Action.waitForAll
    return 0
  else Action.emit (← args.foldlM waitOne .ok)

/-- Reads one line of an input byte by byte, so that nothing after it is taken; the line has its
newline unless the input ended. -/
def readLine (isRaw : Bool) (input : InputId) : Proc (Except StreamError Text.Bytes) :=
  Proc.repeatFrom ([] : Text.Bytes) fun read => do
    match ← Proc.request (.read input 1) with
    | .error e => return .inr (.error e)
    | .ok [] => return .inr (.ok read.reverse)
    | .ok (b :: _) =>
        if b ≠ 10 then return .inl (b :: read)
        else if !isRaw && endsEscaped read then return .inl read.tail
        else return .inr (.ok (b :: read).reverse)

/-- Reads a line into variables; the status is one at the end of the input. -/
def runRead (args : List String) : Action Int := do
  let isRaw := args.head? = some "-r"
  let names := if isRaw then args.tail else args
  let bytes ←
    match (← get).streams.input with
    | none => pure []
    | some input => Action.ofProc do return (← readLine isRaw input).mapError .stream
  let separators := ((← Action.state).get? "IFS").getD " \t\n"
  let line := if bytes.getLast? = some 10 then bytes.dropLast else bytes
  (lineValues separators isRaw names line).forM fun (name, value) =>
    Action.modifyState (·.set name value)
  return if bytes.getLast? = some 10 then 0 else 1

def run (builtin : Builtin) (args : List String) : Action Int :=
  match builtin with
  | .colon | .trueStatus => Action.emit .ok
  | .falseStatus => Action.emit ⟨"", "", 1⟩
  | .echo => Action.emit (.success (echoText args))
  | .pwd => do Action.emit (.success ((← Action.state).directory ++ "\n"))
  | .cd => do
      let state ← Action.state
      let (completion, state) ← Action.ofProc (do return .ok (← runCd state args))
      Action.modifyState fun _ => state
      Action.emit completion
  | .exportNames => Action.onState (fun state => runExport state args)
  | .unset => Action.onState (fun state => runUnset state args)
  | .shift => Action.onState (fun state => runShift state args)
  | .breakLoop => do Action.onEffect (runBreak (← Action.state) args)
  | .continueLoop => do Action.onEffect (runContinue (← Action.state) args)
  | .returnStatus => do Action.onEffect (runReturn (← Action.state) args)
  | .exitShell => runExit args
  | .jobs => runJobs
  | .wait => runWait args
  | .echoEscaped => Action.emit (.success (echoEscapedText args))
  | .kill => do Action.onEffect (runKill (← Action.state) args)
  | .read => runRead args

end Builtin

section

variable (executor : Executor) (call : Node → Action Int)

def runExternal (arguments : List String) : Action Int := do
  let shell ← get
  Action.ofProc do
    let result ← executor
      ⟨arguments, shell.state.environment, shell.state.directory, shell.state.get? "PATH"⟩
      shell.streams
    return result.mapError .ofExternal

/-- Calls a function; its arguments are the positional parameters until it returns. -/
def callFunction (name : String) (body : Node) (args : List String) : Action Int := do
  let shell ← get
  if shell.limits.callDepth ≤ shell.state.callDepth then
    throw (.limit (.calls name shell.limits.callDepth))
  let outer := shell.state.positional
  Action.modifyState fun state =>
    { state with positional := args, callDepth := state.callDepth + 1 }
  let result ← (Action.ensuring (fun shell =>
    { shell with state := { shell.state with
        positional := outer
        callDepth := shell.state.callDepth - 1 } }) (call body)).attempt
  match result with
  | .ok status => return status
  | .error (.leaveFunction status) => return status
  | .error interruption => throw interruption

/-- Runs a command with its arguments. -/
def invoke (arguments : List String) : Action Int := do
  match arguments with
  | [] => return 0
  | name :: args =>
      let builtin := Builtin.find? (← get).dialect name
      let function := (← Action.state).functions.get? name
      match builtin, function with
      | some builtin, some body =>
          if builtin.isSpecial then builtin.run args else callFunction call name body args
      | some builtin, none => builtin.run args
      | none, some body => callFunction call name body args
      | none, none => runExternal executor arguments

end

end Conch
