import Conch.Effect.Proc

/-!
# Transfers

Programs that move bytes until a stream or a file ends.
-/

namespace Conch

open Text (Bytes)

/-- The bytes asked for at a time. -/
def transferSize : Nat := 8192

/-- Reads an input to its end. -/
def Proc.readAll (input : InputId) : Proc (Except StreamError Bytes) :=
  Proc.repeatFrom ([] : List Bytes) fun chunks => do
    match ← Proc.request (.read input transferSize) with
    | .error e => return .inr (.error e)
    | .ok [] => return .inr (.ok chunks.reverse.flatten)
    | .ok chunk => return .inl (chunk :: chunks)

/-- Reads a pipe until it is closed. -/
def Proc.receiveAll (pipe : PipeId) : Proc Bytes :=
  Proc.repeatFrom ([] : List Bytes) fun chunks => do
    match ← Proc.request (.receive pipe transferSize) with
    | [] => return .inr chunks.reverse.flatten
    | chunk => return .inl (chunk :: chunks)

/-- Sends chunks to a pipe and closes it; the result is how many bytes were sent. -/
def Proc.sendAll (pipe : PipeId) (total : Nat) : List Bytes → Proc (Except PipeError Nat)
  | [] => do
      Proc.request (.closePipe pipe)
      return .ok total
  | chunk :: rest => do
      match ← Proc.request (.send pipe chunk) with
      | .ok size => Proc.sendAll pipe (total + size) rest
      | .error e =>
          Proc.request (.closePipe pipe)
          return .error e

/-! ## Files -/

namespace File

/-- What is left to read of an open file. -/
def readAll (descriptor : Descriptor) : Proc (Except FileError Bytes) :=
  Proc.repeatFrom ([] : List Bytes) fun chunks => do
    match ← Proc.call (.read descriptor transferSize) with
    | .error e => return .inr (.error e)
    | .ok [] => return .inr (.ok chunks.reverse.flatten)
    | .ok chunk => return .inl (chunk :: chunks)

/-- The text that a file holds. -/
def readText (path : String) : Proc (Except FileError String) := do
  match ← Proc.call (.openFile path .read) with
  | .error e => return .error e
  | .ok descriptor =>
      match ← readAll descriptor with
      | .error e => return .error e
      | .ok bytes =>
          match Text.decode? bytes with
          | some text => return .ok text
          | none => return .error .notText

end File

end Conch
