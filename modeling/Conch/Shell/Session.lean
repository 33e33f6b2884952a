import Conch.Shell.Script

/-!
# Interactive sessions

A session reads lines from one pipe and sends prompts, reports and the output of
commands to another.  Lines are collected until they make up a program, which then
runs; a text that cannot be completed to a program is reported and forgotten.  The
session ends with its input or with the shell, and closes its output.
-/

namespace Conch

open Text (Bytes)

structure SessionPipes where
  input : PipeId
  output : PipeId
  deriving DecidableEq, Repr

/-- A session between two lines. -/
structure Session where
  shell : Shell
  /-- The lines of a program that is not complete yet. -/
  source : String
  /-- What was read after the last line. -/
  pending : Bytes

namespace Session

def primaryPrompt : String := "$ "

def continuationPrompt : String := "> "

/-- The prompt asks for a new program or for the rest of one. -/
def prompt (session : Session) : String :=
  if session.source.isEmpty then primaryPrompt else continuationPrompt

/-- The first line with its newline, and the bytes after it. -/
def splitLine? (bytes : Bytes) : Option (Bytes × Bytes) :=
  match bytes.span (· ≠ 10) with
  | (line, newline :: rest) => some (line ++ [newline], rest)
  | (_, []) => none

/-- How many bytes are asked for at a time. -/
def readSize : Nat := 4096

/-- One look for a line among bytes: the line or the end of the input with the bytes after it, or
the bytes to look among next.  The last line need not have a newline. -/
def lookForLine (input : PipeId) (pending : Bytes) : Proc (Bytes ⊕ Option String × Bytes) := do
  match splitLine? pending with
  | some (line, rest) => return .inr (some (Text.decodeLossy line), rest)
  | none =>
      match ← Proc.request (.receive input readSize) with
      | [] =>
          if pending.isEmpty then return .inr (none, [])
          else return .inr (some (Text.decodeLossy pending ++ "\n"), [])
      | chunk => return .inl (pending ++ chunk)

/-- The next line, and the bytes read past it. -/
def readLine (input : PipeId) (pending : Bytes) : Proc (Option String × Bytes) :=
  Proc.repeatFrom pending (lookForLine input)

/-- What a session does; a failure of its output interrupts it. -/
abbrev Dialogue := ExceptT Interruption (StateT Session Proc)

section

variable (executor : Executor) (pipes : SessionPipes)

def say (text : String) : Dialogue Unit := fun session => do
  let sent ← Proc.request (.send pipes.output (Text.encode text))
  return ((sent.mapError (fun e => .stream (.pipe e))).map (fun _ => ()), session)

def nextLine : Dialogue (Option String) := fun session => do
  let (line, pending) ← readLine pipes.input session.pending
  return (.ok line, { session with pending := pending })

def onShell {α : Type} (body : Action α) : Dialogue (Except Interruption α) := fun session => do
  let (result, shell) ← body session.shell
  return (.ok result, { session with shell := shell })

/-- How the session goes on after a program: it ends only with the shell. -/
def conclude : Except Interruption Unit → Dialogue Bool
  | .ok () => return true
  | .error (.leaveShell _) => return false
  | .error (.limit reached) => do
      say pipes (diagnostic reached.message)
      return true
  | .error interruption => throw interruption

/-- Runs a program; the session goes on unless the shell was left. -/
def runProgram (program : Syntax.Program) : Dialogue Bool := do
  match ← onShell (Action.runProgram executor program) with
  | .error .crash => throw .crash
  | result =>
      discard (onShell Action.reset)
      conclude pipes result

/-- Takes up one line; the session goes on if the result says so. -/
def takeUp (line : String) : Dialogue Bool := do
  let source := (← get).source ++ line
  match Syntax.Attempt.ofText source with
  | .incomplete =>
      modify fun session => { session with source := source }
      return true
  | .error e =>
      modify fun session => { session with source := "" }
      say pipes (diagnostic ("syntax error: " ++ e.message))
      return true
  | .complete program =>
      modify fun session => { session with source := "" }
      runProgram executor pipes program

/-- Prompts for a line and takes it up. -/
def round : Dialogue Bool := do
  say pipes (← get).prompt
  match ← nextLine pipes with
  | none =>
      if (← get).source.isEmpty then return false
      say pipes (diagnostic "syntax error: unexpected end of file")
      return false
  | some line => takeUp executor pipes line

/-- Goes from one line to the next until the session ends. -/
def converse (session : Session) : Proc (Except Interruption Unit × Shell) :=
  Proc.repeatFrom session fun session => do
    match ← (round executor pipes).run session with
    | (.ok true, session) => return .inl session
    | (.ok false, session) => return .inr (.ok (), session.shell)
    | (.error interruption, session) => return .inr (.error interruption, session.shell)

/-- Runs a session to its end; a crash leaves its output open. -/
def run (shell : Shell) : Proc (Except Interruption Unit × Shell) := do
  let streams : Streams := ⟨none, .pipe pipes.output, .pipe pipes.output⟩
  let (result, shell) ← converse executor pipes ⟨{ shell with streams := streams }, "", []⟩
  match result with
  | .error .crash => return (result, shell)
  | _ =>
      Proc.request (.closePipe pipes.output)
      return (result, shell)

/-- A session as a task of its own. -/
def task (shell : Shell) : Proc Outcome := do
  let (result, shell) ← run executor pipes shell
  return .shell (result.map (fun _ => shell.state.status)) shell.state

end

end Session

end Conch
