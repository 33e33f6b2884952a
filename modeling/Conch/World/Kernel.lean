import Conch.Effect.Proc
import Conch.World.Shelf

/-!
# Shared objects

The buffers, pipes, inputs and latches that running programs share.
`Kernel.attempt` serves one request: it replies, or says that the program has to
wait, or names the call that has to be made outside.
-/

namespace Conch

open Text (Bytes)

structure Input where
  /-- Bytes that were put back; they are read first. -/
  pending : Bytes
  source : Source
  deriving DecidableEq, Repr

structure Kernel where
  /-- What was written to each buffer, the last chunk first. -/
  buffers : Shelf (List Bytes)
  pipes : Shelf Pipe
  inputs : Shelf Input
  /-- The latches that are open. -/
  latches : List String
  deriving Inhabited

/-- What is known of the tasks. -/
structure Tasks where
  /-- How a task ended, if it did. -/
  outcome? : TaskId → Option Outcome
  /-- How many background jobs are unfinished. -/
  unfinishedJobs : Unit → Nat

inductive Attempt (Reply : Type) where
  | served (reply : Reply) (kernel : Kernel)
  /-- The request has to wait. -/
  | blocked
  /-- Something was done and the request is still to be served. -/
  | advanced (kernel : Kernel)
  /-- A call has to be made, which then gives the reply. -/
  | outside (c : Call) (resume : c.Reply → Reply × Kernel)

/-- The attempt with its reply in other words. -/
def Attempt.map {α β : Type} (f : α → β) : Attempt α → Attempt β
  | .served reply kernel => .served (f reply) kernel
  | .blocked => .blocked
  | .advanced kernel => .advanced kernel
  | .outside c resume => .outside c (fun reply => (f (resume reply).1, (resume reply).2))

namespace Kernel

def new : Kernel := ⟨.empty, .empty, .empty, []⟩

def pipe (kernel : Kernel) (id : PipeId) : Pipe := (kernel.pipes.get? id).getD ⟨1, [], [], false⟩

def setPipe (kernel : Kernel) (id : PipeId) (pipe : Pipe) : Kernel :=
  { kernel with pipes := kernel.pipes.set id pipe }

def input (kernel : Kernel) (id : InputId) : Input := (kernel.inputs.get? id).getD ⟨[], .bytes []⟩

def setInput (kernel : Kernel) (id : InputId) (input : Input) : Kernel :=
  { kernel with inputs := kernel.inputs.set id input }

def buffer (kernel : Kernel) (id : BufferId) : List Bytes := (kernel.buffers.get? id).getD []

/-- Adds a chunk to a buffer. -/
def record (kernel : Kernel) (id : BufferId) (chunk : Bytes) : Kernel :=
  { kernel with buffers := kernel.buffers.set id (chunk :: kernel.buffer id) }

def send (kernel : Kernel) (id : PipeId) (chunk : Bytes) : Attempt (Except PipeError Nat) :=
  match (kernel.pipe id).write? chunk with
  | some (reply, pipe) => .served reply (kernel.setPipe id pipe)
  | none => .blocked

def receive (kernel : Kernel) (id : PipeId) (limit : Nat) : Attempt Bytes :=
  match (kernel.pipe id).read? limit with
  | some (bytes, pipe) => .served bytes (kernel.setPipe id pipe)
  | none => .blocked

def receiveUntil (kernel : Kernel) (id : PipeId) (target : Bytes) :
    Attempt (Except PipeError Bytes) :=
  match (kernel.pipe id).readUntil target with
  | (some reply, pipe) => .served reply (kernel.setPipe id pipe)
  | (none, pipe) =>
      if (kernel.pipe id).queue.isEmpty then .blocked else .advanced (kernel.setPipe id pipe)

def read (kernel : Kernel) (id : InputId) (limit : Nat) : Attempt (Except StreamError Bytes) :=
  let input := kernel.input id
  if !input.pending.isEmpty then
    .served (.ok (input.pending.take limit))
      (kernel.setInput id { input with pending := input.pending.drop limit })
  else
    match input.source with
    | .bytes rest =>
        .served (.ok (rest.take limit))
          (kernel.setInput id { input with source := .bytes (rest.drop limit) })
    | .pipe pipe => (kernel.receive pipe limit).map .ok
    | .file file => .outside (.read file limit) (fun reply => (reply.mapError .file, kernel))

def write (kernel : Kernel) (output : Output) (chunk : Bytes) : Attempt (Except StreamError Unit) :=
  match output with
  | .discard => .served (.ok ()) kernel
  | .buffer id => .served (.ok ()) (kernel.record id chunk)
  | .pipe id => (kernel.send id chunk).map (fun reply => (reply.mapError .pipe).map (fun _ => ()))
  | .file file => .outside (.write file chunk) (fun reply => (reply.mapError .file, kernel))

/-- Serves a request. -/
def attempt (kernel : Kernel) (tasks : Tasks) : (r : Request) → Attempt r.Reply
  | .call c => .outside c (fun reply => (reply, kernel))
  | .newBuffer =>
      let (id, buffers) := kernel.buffers.push []
      .served id { kernel with buffers := buffers }
  | .contents buffer => .served (kernel.buffer buffer).reverse.flatten kernel
  | .newPipe slots =>
      let (id, pipes) := kernel.pipes.push (Pipe.new slots)
      .served id { kernel with pipes := pipes }
  | .closePipe pipe => .served () (kernel.setPipe pipe (kernel.pipe pipe).close)
  | .isClosed pipe => .served (!(kernel.pipe pipe).isOpen) kernel
  | .send pipe chunk => kernel.send pipe chunk
  | .receive pipe limit => kernel.receive pipe limit
  | .receiveUntil pipe target => kernel.receiveUntil pipe target
  | .newInput source =>
      let (id, inputs) := kernel.inputs.push ⟨[], source⟩
      .served id { kernel with inputs := inputs }
  | .read input limit => kernel.read input limit
  | .unread id bytes =>
      let input := kernel.input id
      .served () (kernel.setInput id { input with pending := bytes ++ input.pending })
  | .write output chunk => kernel.write output chunk
  | .join task =>
      match tasks.outcome? task with
      | some outcome => .served outcome kernel
      | none => .blocked
  | .isFinished task => .served (tasks.outcome? task).isSome kernel
  | .openLatch name => .served () { kernel with latches := name :: kernel.latches }
  | .awaitLatch name => if kernel.latches.contains name then .served () kernel else .blocked
  | .awaitJobs unfinished =>
      if tasks.unfinishedJobs () ≤ unfinished then .served () kernel else .blocked
  | .command => .served () kernel

end Kernel

end Conch
