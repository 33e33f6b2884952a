import Conch.Shell.Session

/-!
# Sessions on the console

The lines of the console go into the input pipe of a session, and what the session
writes goes to the console.
-/

namespace Conch.Console

open Text (Bytes)

def write (text : String) : Proc Unit := do
  if !text.isEmpty then discard (Proc.call (.write .consoleOutput (Text.encode text)))

def writeErrors (text : String) : Proc Unit := do
  if !text.isEmpty then discard (Proc.call (.write .consoleErrors (Text.encode text)))

/-- How many bytes are read from the console at a time. -/
def readSize : Nat := 8192

/-- A line without its newline, and without a carriage return before that. -/
def withoutEnding (line : Bytes) : Bytes :=
  match line.reverse with
  | 10 :: 13 :: rest | 10 :: rest => rest.reverse
  | _ => line

/-- Sends one line; the result says whether the session can take more. -/
def sendLine (input : PipeId) (line : Bytes) : Proc Bool := do
  match Text.decode? line with
  | none => return false
  | some text => return (← Proc.request (.send input (Text.encode (text ++ "\n")))).isOk

/-- Sends the lines of the console to a session until either ends; a line that is no text ends
the input. -/
def feed (input : PipeId) : Proc Unit := do
  Proc.repeatFrom ([] : Bytes) fun pending => do
    match Session.splitLine? pending with
    | some (line, rest) =>
        if ← sendLine input (withoutEnding line) then return .inl rest else return .inr ()
    | none =>
        match ← Proc.call (.read .consoleInput readSize) with
        | .error _ => return .inr ()
        | .ok [] =>
            if !pending.isEmpty then discard (sendLine input pending)
            return .inr ()
        | .ok chunk => return .inl (pending ++ chunk)
  Proc.request (.closePipe input)

/-- Copies what a session writes to the console. -/
def drain (output : PipeId) : Proc Unit := do
  Proc.repeatFrom () fun _ => do
    match ← Proc.request (.receive output Session.readSize) with
    | [] => return .inr ()
    | chunk =>
        match ← Proc.call (.write .consoleOutput chunk) with
        | .ok () => return .inl ()
        | .error _ => return .inr ()
  Proc.request (.closePipe output)

/-- Runs a session on the console; the result is the status of its shell. -/
def converse (executor : Executor) (shell : Shell) : Proc Int := do
  let pipes : SessionPipes :=
    ⟨← Proc.request (.newPipe Pipe.defaultSlots), ← Proc.request (.newPipe Pipe.defaultSlots)⟩
  let task (body : Proc Unit) : Proc TaskId := Proc.start false do
    body
    return .leftover []
  discard (task (feed pipes.input))
  let drainer ← task (drain pipes.output)
  let session ← Proc.start false (Session.task executor pipes shell)
  let status ←
    match ← Proc.request (.join session) with
    | .shell (.error interruption) _ => do
        writeErrors (diagnostic interruption.message)
        pure 1
    | .shell (.ok status) _ => pure status
    | _ => pure 0
  discard (Proc.request (.join drainer))
  Proc.request (.closePipe pipes.input)
  return status

end Conch.Console
