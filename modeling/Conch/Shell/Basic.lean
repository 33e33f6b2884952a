import Conch.Builtin.Name
import Conch.Effect.Proc
import Conch.Job.Table

/-!
# Shells and their actions

A shell is its state together with its limits, streams and background jobs.  An
action works on a shell, may be interrupted, and may ask requests on the way.  What a
shell changed before an interruption stays changed.
-/

namespace Conch

/-- The standard streams of a shell; without an input there is nothing to read. -/
structure Streams where
  input : Option InputId
  output : Output
  errors : Output
  deriving DecidableEq, Repr

/-- Streams that read nothing and discard all output. -/
def Streams.silent : Streams := ⟨none, .discard, .discard⟩

structure Shell where
  state : State
  limits : Limits
  streams : Streams
  dialect : Dialect
  jobs : JobTable TaskId
  /-- The status of the last command substitution of the current command. -/
  substitutionStatus : Option Int

namespace Shell

def new (state : State) (limits : Limits) : Shell :=
  ⟨state, limits, .silent, .embedded, .empty, none⟩

/-- A copy for a subshell, a pipeline stage, a substitution or a background job; the jobs are
not copied. -/
def fork (shell : Shell) : Shell :=
  { shell with jobs := .empty, substitutionStatus := none }

end Shell

abbrev Action := ExceptT Interruption (StateT Shell Proc)

namespace Action

/-- The action that runs a program and may be interrupted by it. -/
def ofProc {α : Type} (p : Proc (Except Interruption α)) : Action α := fun shell => do
  let result ← p
  return (result, shell)

def request (r : Request) : Action r.Reply := fun shell => do
  let reply ← Proc.request r
  return (.ok reply, shell)

def call (c : Call) : Action c.Reply := request (.call c)

def modifyState (f : State → State) : Action Unit :=
  modify fun shell => { shell with state := f shell.state }

def state : Action State := return (← get).state

/-- Runs an action and always applies the change afterwards, unless an external command
crashes. -/
def ensuring {α : Type} (after : Shell → Shell) (body : Action α) : Action α := fun shell => do
  match ← body shell with
  | (.error .crash, shell) => return (.error .crash, shell)
  | (result, shell) => return (result, after shell)

/-- Runs an action on another shell, of which only the result is kept. -/
def onCopy {α : Type} (change : Shell → Shell) (body : Action α) : Action α := fun shell => do
  let (result, _) ← body (change shell)
  return (result, shell)

end Action

namespace Output

/-- Writes a text as one chunk; an empty text is not written at all. -/
def writeBytes (output : Output) (bytes : Text.Bytes) : Proc (Except StreamError Unit) :=
  if bytes.isEmpty then return .ok () else Proc.request (.write output bytes)

def write (output : Output) (text : String) : Proc (Except StreamError Unit) :=
  output.writeBytes (Text.encode text)

end Output

namespace Action

def writeTo (output : Output) (text : String) : Action Unit :=
  ofProc do
    let written ← output.write text
    return written.mapError .stream

def writeOutput (text : String) : Action Unit := do
  writeTo (← get).streams.output text

def writeErrors (text : String) : Action Unit := do
  writeTo (← get).streams.errors text

end Action

/-- A line of diagnostics. -/
def diagnostic (message : String) : String := "treesh: " ++ message ++ "\n"

namespace Action

/-- Runs an action and gives its interruption as a result. -/
def attempt {α : Type} (body : Action α) : Action (Except Interruption α) := fun shell => do
  let (result, shell) ← body shell
  return (.ok result, shell)

/-- Reports an interruption; the status of the failed command is one. -/
def report (interruption : Interruption) : Action Int := do
  writeErrors (diagnostic interruption.message)
  return 1

/-- The status of a copied shell that an interruption ends; limits, failed streams and crashes
go on. -/
def endStatus (interruption : Interruption) : Action Int :=
  match interruption with
  | .leaveShell status | .leaveFunction status => return status
  | .breakLoops _ | .continueLoop _ => return (← get).state.status
  | other => if other.isLocal then report other else throw other

/-- The status with which a copied shell ends. -/
def endWith : Except Interruption Int → Action Int
  | .ok status => return status
  | .error interruption => endStatus interruption

/-- Runs the body on a copy of the shell, in which control flow ends. -/
def inSubshell (change : Shell → Shell) (body : Action Int) : Action Int :=
  onCopy (fun shell => change shell.fork) (do endWith (← body.attempt))

/-- Executes a statement: a failure of a single command is reported, and the status is
recorded. -/
def recording (body : Action Int) : Action Int := do
  let status ←
    match ← body.attempt with
    | .ok status => pure status
    | .error interruption =>
        if interruption.isLocal then report interruption else throw interruption
  modifyState fun state => { state with status := status }
  return status

end Action

end Conch
