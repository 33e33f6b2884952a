import Conch.Shell.Basic
import Conch.Stream.Transfer

/-!
# Feeding external programs

A program with an input of its own gets it through a pipe, into which a feeder copies
the input of the shell.  The feeder reads ahead; what the program has not read when
it ends is put back, so that the next reader finds it.
-/

namespace Conch

open Text (Bytes)

/-- How many bytes a feeder reads at a time. -/
def feedSize : Nat := 8192

/-- Copies an input into a pipe until one of them is closed.  The result is what was read and
could not be sent. -/
def Proc.feed (input : InputId) (pipe : PipeId) : Proc Bytes :=
  Proc.repeatFrom () fun _ => do
    if ← Proc.request (.isClosed pipe) then return .inr []
    match ← Proc.request (.read input feedSize) with
    | .error _ | .ok [] =>
        Proc.request (.closePipe pipe)
        return .inr []
    | .ok chunk =>
        match ← Proc.request (.send pipe chunk) with
        | .ok _ => return .inl ()
        | .error _ => return .inr chunk

/-- The bytes that a feeder could not send. -/
def Outcome.unsent : Outcome → Bytes
  | .leftover bytes => bytes
  | _ => []

/-- Runs a program on a pipe that is fed from an input, and puts back what it did not read. -/
def Proc.feeding {α : Type} (input : InputId) (program : InputId → Proc α) : Proc α := do
  let pipe ← Proc.request (.newPipe Pipe.defaultSlots)
  let fed ← Proc.request (.newInput (.pipe pipe))
  let feeder ← Proc.start false do return .leftover (← Proc.feed input pipe)
  let result ← program fed
  Proc.request (.closePipe pipe)
  let unread ← Proc.receiveAll pipe
  let unsent := (← Proc.request (.join feeder)).unsent
  if !(unread ++ unsent).isEmpty then Proc.request (.unread input (unread ++ unsent))
  return result

end Conch
