import Conch.Stream.Pipe

/-!
# Pipes among threads

Threads share a pipe by a sender and a receiving side.  The pipe keeps a sender, and
each writer takes a copy of it before it waits for a slot.  A reader holds the receiving
side until it has its bytes.  Closing takes two steps: the sender of the pipe is dropped,
and then, once nobody holds it, the receiving side is closed.  Every step of a thread is
an event, and the steps of different threads come in any order.
-/

namespace Conch

open Text (Bytes)

/-- Who holds the receiving side of a pipe, and what for. -/
inductive Receiver where
  | free
  /-- A reader of up to so many bytes. -/
  | reading (limit : Nat)
  /-- A reader that looks for a target among the bytes that it has taken. -/
  | searching (target taken : Bytes)
  deriving DecidableEq, Repr

/-- The bytes taken by a search that still goes on. -/
def Receiver.taken : Receiver → Bytes
  | searching _ taken => taken
  | _ => []

/-- A pipe with the threads that are at it. -/
structure Traffic where
  /-- The pipe, which is open as long as its receiving side is. -/
  pipe : Pipe
  /-- The pipe still has its sender. -/
  admits : Bool
  /-- The chunks of the writers that have a sender. -/
  writers : List Bytes
  receiver : Receiver
  /-- How many threads have dropped the sender and are still to close the receiving side. -/
  closers : Nat
  deriving DecidableEq, Repr

namespace Traffic

/-- A pipe that no thread is at. -/
def calm (pipe : Pipe) : Traffic := ⟨pipe, pipe.isOpen, [], .free, 0⟩

def start (slots : Nat) : Traffic := calm (.new slots)

/-- Somebody has a sender, the pipe or a writer. -/
def hasSender (traffic : Traffic) : Bool := traffic.admits || !traffic.writers.isEmpty

/-- The pipe as its readers find it: closed also when there is no sender any more. -/
def view (traffic : Traffic) : Pipe :=
  { traffic.pipe with isOpen := traffic.pipe.isOpen && traffic.hasSender }

inductive Event where
  /-- A writer takes a sender. -/
  | admitted (chunk : Bytes)
  /-- A writer finds no sender, and its write fails. -/
  | refused (chunk : Bytes)
  /-- The write of a writer with a sender ends. -/
  | wrote (chunk : Bytes) (reply : Except PipeError Nat)
  /-- A reader takes the receiving side. -/
  | entered (limit : Nat)
  | read (limit : Nat) (bytes : Bytes)
  /-- A reader takes the receiving side and the pending bytes, to look for a target. -/
  | sought (target : Bytes)
  /-- A search takes one more chunk. -/
  | took (chunk : Bytes)
  | found (target bytes : Bytes)
  /-- A search ends with the pipe, and the bytes that it took are lost. -/
  | missed (target taken : Bytes)
  /-- The sender of the pipe is dropped. -/
  | dropped
  /-- The receiving side is closed. -/
  | closed

/-- What a thread can do next. -/
inductive Step (traffic : Traffic) : Event → Traffic → Prop where
  | allow (chunk : Bytes) (h : traffic.admits = true) :
      Step traffic (.admitted chunk) { traffic with writers := chunk :: traffic.writers }
  | refuse (chunk : Bytes) (h : traffic.admits = false) : Step traffic (.refused chunk) traffic
  | writeNothing (hwriter : [] ∈ traffic.writers) :
      Step traffic (.wrote [] (.ok 0)) { traffic with writers := traffic.writers.erase [] }
  | write (chunk : Bytes) {reply : Except PipeError Nat} {pipe : Pipe}
      (hwriter : chunk ∈ traffic.writers) (hchunk : chunk ≠ [])
      (h : traffic.pipe.write? chunk = some (reply, pipe)) :
      Step traffic (.wrote chunk reply)
        { traffic with pipe := pipe, writers := traffic.writers.erase chunk }
  | readNothing : Step traffic (.read 0 []) traffic
  | enter (limit : Nat) (hlimit : limit ≠ 0) (hfree : traffic.receiver = .free) :
      Step traffic (.entered limit) { traffic with receiver := .reading limit }
  | read {limit : Nat} {bytes : Bytes} {pipe : Pipe} (hreader : traffic.receiver = .reading limit)
      (h : traffic.view.read? limit = some (bytes, pipe)) :
      Step traffic (.read limit bytes)
        { traffic with pipe := { pipe with isOpen := traffic.pipe.isOpen }, receiver := .free }
  | seek (target : Bytes) (hfree : traffic.receiver = .free) :
      Step traffic (.sought target)
        { traffic with
          pipe := { traffic.pipe with pending := [] }
          receiver := .searching target traffic.pipe.pending }
  | take {target taken chunk : Bytes} {queue : List Bytes}
      (hreader : traffic.receiver = .searching target taken)
      (hnone : Pipe.findEnd target taken = none) (hqueue : traffic.pipe.queue = chunk :: queue) :
      Step traffic (.took chunk)
        { traffic with
          pipe := { traffic.pipe with queue := queue }
          receiver := .searching target (taken ++ chunk) }
  | find {target taken : Bytes} {size : Nat}
      (hreader : traffic.receiver = .searching target taken)
      (hsome : Pipe.findEnd target taken = some size) :
      Step traffic (.found target (taken.take size))
        { traffic with
          pipe := { traffic.pipe with pending := taken.drop size }
          receiver := .free }
  | miss {target taken : Bytes} (hreader : traffic.receiver = .searching target taken)
      (hnone : Pipe.findEnd target taken = none) (hqueue : traffic.pipe.queue = [])
      (hclosed : traffic.view.isOpen = false) :
      Step traffic (.missed target taken) { traffic with receiver := .free }
  | drop : Step traffic .dropped
      { traffic with admits := false, closers := traffic.closers + 1 }
  | close {others : Nat} (hcloser : traffic.closers = others + 1)
      (hfree : traffic.receiver = .free) :
      Step traffic .closed { traffic with pipe := traffic.pipe.close, closers := others }

/-- What the threads did from the start on, the first event first, and what it led to. -/
inductive Run (start : Traffic) : List Event → Traffic → Prop where
  | start : Run start [] start
  | step {events : List Event} {event : Event} {traffic next : Traffic}
      (h : Run start events traffic) (hstep : traffic.Step event next) :
      Run start (events ++ [event]) next

namespace Event

/-- The chunk that an event puts into the queue. -/
def accepted? : Event → Option Bytes
  | wrote (b :: chunk) (.ok _) => some (b :: chunk)
  | _ => none

/-- The bytes that an event takes out of the pipe; a search that fails has taken all that it
went through. -/
def handedOut : Event → Bytes
  | read _ bytes | found _ bytes => bytes
  | missed _ taken => taken
  | _ => []

/-- What a read gets. -/
def received? : Event → Option Bytes
  | read _ bytes => some bytes
  | _ => none

/-- A write fails. -/
def isFailure : Event → Bool
  | refused _ | wrote _ (.error _) => true
  | _ => false

end Event

/-- The chunks that were accepted, in order. -/
def accepted (events : List Event) : List Bytes := events.filterMap Event.accepted?

/-- What the reads got, one after the other. -/
def received (events : List Event) : List Bytes := events.filterMap Event.received?

def handedOut (events : List Event) : Bytes := events.flatMap Event.handedOut

end Traffic

end Conch
