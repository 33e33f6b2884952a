import Conch.Shell.Interruption

/-!
# Requests

What a running program asks of its surroundings, and what it gets in reply.  Calls
go to the file system and the console; the other requests go to the objects that
programs share: buffers, pipes, inputs, latches and other running tasks.
-/

namespace Conch

open Text (Bytes)

/-- What is known of a file or directory. -/
structure Metadata where
  isDirectory : Bool
  mode : Nat
  deriving DecidableEq, Repr

/-- Some execution bit of the mode is set. -/
def isExecutableMode (mode : Nat) : Bool := mode &&& 0o111 != 0

inductive OpenMode where
  | read
  /-- Writing from the start; the old content goes. -/
  | truncate
  /-- Writing at the end. -/
  | append
  deriving DecidableEq, Repr

/-- An open file. -/
abbrev Descriptor := Nat

namespace Descriptor

def consoleInput : Descriptor := 0

def consoleOutput : Descriptor := 1

def consoleErrors : Descriptor := 2

end Descriptor

/-- Requests to the file system and the console. -/
inductive Call where
  /-- What stands at a path, links followed. -/
  | describe (path : String)
  /-- Something stands at a path, be it a link that leads nowhere. -/
  | exists (path : String)
  | list (path : String)
  /-- The path without links and dots. -/
  | canonical (path : String)
  | openFile (path : String) (mode : OpenMode)
  | read (file : Descriptor) (limit : Nat)
  | write (file : Descriptor) (bytes : Bytes)
  deriving DecidableEq, Repr

/-- The reply depends on the user. -/
def Call.readsConsole : Call → Bool
  | .read file _ => file = Descriptor.consoleInput
  | _ => false

abbrev Call.Reply : Call → Type
  | .describe _ => Option Metadata
  | .exists _ => Bool
  | .list _ => Except FileError (List String)
  | .canonical _ => Option String
  | .openFile .. => Except FileError Descriptor
  | .read .. => Except FileError Bytes
  | .write .. => Except FileError Unit

abbrev BufferId := Nat

abbrev PipeId := Nat

abbrev InputId := Nat

abbrev TaskId := Nat

/-- Where the bytes of an output stream go. -/
inductive Output where
  | discard
  | buffer (id : BufferId)
  | pipe (id : PipeId)
  | file (file : Descriptor)
  deriving DecidableEq, Repr

/-- Where the bytes of an input stream come from. -/
inductive Source where
  | bytes (rest : Bytes)
  | pipe (id : PipeId)
  | file (file : Descriptor)
  deriving DecidableEq, Repr

/-- How a task ended: a shell with its state, the total of a transfer, or what was left of one. -/
inductive Outcome where
  | shell (result : Except Interruption Int) (state : State)
  | total (result : Except PipeError Nat)
  | leftover (bytes : Bytes)

inductive Request where
  | call (c : Call)
  | newBuffer
  | contents (buffer : BufferId)
  | newPipe (slots : Nat)
  | closePipe (pipe : PipeId)
  | isClosed (pipe : PipeId)
  | send (pipe : PipeId) (chunk : Bytes)
  | receive (pipe : PipeId) (limit : Nat)
  | receiveUntil (pipe : PipeId) (target : Bytes)
  | newInput (source : Source)
  | read (input : InputId) (limit : Nat)
  /-- Puts bytes back in front of an input. -/
  | unread (input : InputId) (bytes : Bytes)
  | write (output : Output) (chunk : Bytes)
  /-- Waits for the end of a task. -/
  | join (task : TaskId)
  | isFinished (task : TaskId)
  | openLatch (name : String)
  | awaitLatch (name : String)
  /-- Waits until no more than so many background jobs are unfinished. -/
  | awaitJobs (unfinished : Nat)
  /-- A simple command starts. -/
  | command
  deriving DecidableEq, Repr

abbrev Request.Reply : Request → Type
  | .call c => c.Reply
  | .newBuffer => BufferId
  | .contents _ => Bytes
  | .newPipe _ => PipeId
  | .closePipe _ => Unit
  | .isClosed _ => Bool
  | .send .. => Except PipeError Nat
  | .receive .. => Bytes
  | .receiveUntil .. => Except PipeError Bytes
  | .newInput _ => InputId
  | .read .. => Except StreamError Bytes
  | .unread .. => Unit
  | .write .. => Except StreamError Unit
  | .join _ => Outcome
  | .isFinished _ => Bool
  | .openLatch _ => Unit
  | .awaitLatch _ => Unit
  | .awaitJobs _ => Unit
  | .command => Unit

end Conch
