import Conch.Files.Error
import Conch.Text.Quoted
import Conch.Text.Utf8

/-!
# Pipes

A pipe carries bytes one way.  A write queues one chunk and waits while every slot
is taken; a read takes no more than the rest of one chunk and waits while there is
none.  Closing a pipe refuses further writes, and its readers still get what is
queued.  An operation that has to wait gives no result and leaves its effect so far
in the pipe.
-/

namespace Conch

open Text (Bytes)

inductive PipeError where
  | closed
  /-- The pipe was closed before this text was read. -/
  | unmatched (target : String)
  deriving DecidableEq, Repr

def PipeError.message : PipeError → String
  | .closed => "write on closed pipe"
  | .unmatched target => "pipe closed before " ++ Text.quoted target ++ " was read"

structure Pipe where
  /-- How many chunks may be queued. -/
  slots : Nat
  /-- Chunks that were written and not yet taken by a reader, the oldest first. -/
  queue : List Bytes
  /-- Bytes that were taken from the queue and not yet handed out. -/
  pending : Bytes
  isOpen : Bool
  deriving DecidableEq, Repr

namespace Pipe

def defaultSlots : Nat := 8

/-- A new pipe; it has at least one slot. -/
def new (slots : Nat) : Pipe := ⟨max slots 1, [], [], true⟩

/-- Queues a chunk; an empty write on an open pipe does nothing. -/
def write? (pipe : Pipe) (chunk : Bytes) : Option (Except PipeError Nat × Pipe) :=
  if !pipe.isOpen then some (.error .closed, pipe)
  else if chunk.isEmpty then some (.ok 0, pipe)
  else if pipe.queue.length < pipe.slots then
    some (.ok chunk.length, { pipe with queue := pipe.queue ++ [chunk] })
  else none

/-- Up to `limit` bytes; no bytes at all once the pipe is closed and drained. -/
def read? (pipe : Pipe) (limit : Nat) : Option (Bytes × Pipe) :=
  if limit = 0 then some ([], pipe)
  else
    match pipe.pending, pipe.queue with
    | [], [] => if pipe.isOpen then none else some ([], pipe)
    | [], chunk :: queue =>
        some (chunk.take limit, { pipe with pending := chunk.drop limit, queue := queue })
    | pending, _ => some (pending.take limit, { pipe with pending := pending.drop limit })

/-- Looks for the target in bytes after the first `passed` ones. -/
def findFrom (target : Bytes) (passed : Nat) : Bytes → Option Nat
  | [] => if target.isEmpty then some passed else none
  | b :: rest =>
      if target.isPrefixOf (b :: rest) then some (passed + target.length)
      else findFrom target (passed + 1) rest

/-- The number of bytes up to the end of the first occurrence of the target. -/
def findEnd (target bytes : Bytes) : Option Nat := findFrom target 0 bytes

/-- What taking chunks from a queue in search of a target comes to. -/
inductive Search where
  | found (upTo after : Bytes) (queue : List Bytes)
  | missing (taken : Bytes)
  deriving DecidableEq, Repr

/-- Takes chunks from the queue onto `taken` until the target has been seen. -/
def search (target : Bytes) (taken : Bytes) (queue : List Bytes) : Search :=
  match findEnd target taken, queue with
  | some size, queue => .found (taken.take size) (taken.drop size) queue
  | none, [] => .missing taken
  | none, chunk :: queue => search target (taken ++ chunk) queue

/-- Everything up to and including the target.  If the pipe is closed before the target was
read, the bytes before the end are lost. -/
def readUntil (pipe : Pipe) (target : Bytes) : Option (Except PipeError Bytes) × Pipe :=
  match search target pipe.pending pipe.queue with
  | .found upTo after queue => (some (.ok upTo), { pipe with pending := after, queue := queue })
  | .missing taken =>
      if pipe.isOpen then (none, { pipe with pending := taken, queue := [] })
      else
        (some (.error (.unmatched (Text.decodeLossy target))), { pipe with pending := [], queue := [] })

def close (pipe : Pipe) : Pipe := { pipe with isOpen := false }

/-- Everything that a reader can still get. -/
def contents (pipe : Pipe) : Bytes := pipe.pending ++ pipe.queue.flatten

theorem contents_write? {pipe after : Pipe} {chunk : Bytes} {size : Nat}
    (h : pipe.write? chunk = some (.ok size, after)) :
    after.contents = pipe.contents ++ chunk := by
  unfold write? at h
  split at h
  · simp at h
  · split at h
    · rename_i hc
      simp only [Option.some.injEq, Prod.mk.injEq] at h
      simp only [List.isEmpty_iff] at hc
      simp [← h.2, hc]
    · split at h
      · simp only [Option.some.injEq, Prod.mk.injEq] at h
        simp [← h.2, contents]
      · simp at h

theorem contents_read? {pipe after : Pipe} {limit : Nat} {bytes : Bytes}
    (h : pipe.read? limit = some (bytes, after)) : pipe.contents = bytes ++ after.contents := by
  unfold read? at h
  split at h
  · simp only [Option.some.injEq, Prod.mk.injEq] at h
    simp [← h.1, ← h.2]
  · split at h
    · split at h
      · simp at h
      · simp only [Option.some.injEq, Prod.mk.injEq] at h
        simp [← h.1, ← h.2]
    · rename_i hp hq
      simp only [Option.some.injEq, Prod.mk.injEq] at h
      simp [← h.1, ← h.2, contents, hp, hq, ← List.append_assoc]
    · simp only [Option.some.injEq, Prod.mk.injEq] at h
      simp [← h.1, ← h.2, contents, ← List.append_assoc]

end Pipe

/-! ## Stream errors -/

/-- Why reading or writing a stream failed. -/
inductive StreamError where
  | pipe (e : PipeError)
  | file (e : FileError)
  /-- The other end went away, as a command reports it. -/
  | broken (message : String)
  | other (message : String)
  deriving DecidableEq, Repr

namespace StreamError

def message : StreamError → String
  | pipe e => e.message
  | file e => e.message
  | broken text => text
  | other text => text

/-- The message without the number of a system error. -/
def brief : StreamError → String
  | file e => e.brief
  | e => e.message

/-- The reader of what is written went away. -/
def isBroken : StreamError → Bool
  | pipe .closed | broken _ => true
  | _ => false

end StreamError

end Conch
