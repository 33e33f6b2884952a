import Conch.Stream.Traffic
import Conch.Stream.Transfer

/-!
# Two programs at a pipe

A program at a shared pipe makes each of its requests in the steps of a thread, and the
steps of two programs come in any order.  The left one sends chunks and closes the pipe,
and stops at the first that fails; the right one reads as a plan says and closes the pipe.
-/

namespace Conch

open Text (Bytes)

/-- A program at a pipe; its first request may be under way. -/
structure Caller (α : Type) where
  proc : Proc α
  busy : Bool

namespace Caller

variable {α : Type}

/-- How an event of a pipe takes a program further. -/
inductive Does (id : PipeId) : Caller α → Traffic.Event → Caller α → Prop where
  | admitted {chunk : Bytes} {k : Except PipeError Nat → Proc α} :
      Does id ⟨.ask (.send id chunk) k, false⟩ (.admitted chunk) ⟨.ask (.send id chunk) k, true⟩
  | refused {chunk : Bytes} {k : Except PipeError Nat → Proc α} :
      Does id ⟨.ask (.send id chunk) k, false⟩ (.refused chunk) ⟨k (.error .closed), false⟩
  | wrote {chunk : Bytes} {reply : Except PipeError Nat} {k : Except PipeError Nat → Proc α} :
      Does id ⟨.ask (.send id chunk) k, true⟩ (.wrote chunk reply) ⟨k reply, false⟩
  | readNothing {k : Bytes → Proc α} :
      Does id ⟨.ask (.receive id 0) k, false⟩ (.read 0 []) ⟨k [], false⟩
  | entered {limit : Nat} {k : Bytes → Proc α} :
      Does id ⟨.ask (.receive id limit) k, false⟩ (.entered limit)
        ⟨.ask (.receive id limit) k, true⟩
  | read {limit : Nat} {bytes : Bytes} {k : Bytes → Proc α} :
      Does id ⟨.ask (.receive id limit) k, true⟩ (.read limit bytes) ⟨k bytes, false⟩
  | sought {target : Bytes} {k : Except PipeError Bytes → Proc α} :
      Does id ⟨.ask (.receiveUntil id target) k, false⟩ (.sought target)
        ⟨.ask (.receiveUntil id target) k, true⟩
  | took {target chunk : Bytes} {k : Except PipeError Bytes → Proc α} :
      Does id ⟨.ask (.receiveUntil id target) k, true⟩ (.took chunk)
        ⟨.ask (.receiveUntil id target) k, true⟩
  | found {target bytes : Bytes} {k : Except PipeError Bytes → Proc α} :
      Does id ⟨.ask (.receiveUntil id target) k, true⟩ (.found target bytes) ⟨k (.ok bytes), false⟩
  | missed {target taken : Bytes} {k : Except PipeError Bytes → Proc α} :
      Does id ⟨.ask (.receiveUntil id target) k, true⟩ (.missed target taken)
        ⟨k (.error (.unmatched (Text.decodeLossy target))), false⟩
  | dropped {k : Unit → Proc α} :
      Does id ⟨.ask (.closePipe id) k, false⟩ .dropped ⟨.ask (.closePipe id) k, true⟩
  | closed {k : Unit → Proc α} :
      Does id ⟨.ask (.closePipe id) k, true⟩ .closed ⟨k (), false⟩

/-- One step of a program at a pipe, with the events of the pipe in it. -/
inductive Step (id : PipeId) :
    Traffic → Caller α → List Traffic.Event → Traffic → Caller α → Prop where
  | event {traffic after : Traffic} {caller next : Caller α} {event : Traffic.Event}
      (hcaller : caller.Does id event next) (htraffic : traffic.Step event after) :
      Step id traffic caller [event] after next
  /-- A repetition goes into its next round. -/
  | unfold {traffic : Traffic} {σ τ : Type} {body : σ → Proc (σ ⊕ τ)} {start : σ}
      {k : τ → Proc α} :
      Step id traffic ⟨.iterate body start k, false⟩ [] traffic
        ⟨(body start).bind fun
          | .inl next => .iterate body next k
          | .inr last => k last, false⟩

/-- The program has come to an end, or does no more than close the pipe. -/
def Finished (id : PipeId) (caller : Caller α) : Prop :=
  (∃ a, caller.proc = .done a) ∨ (caller.busy = true ∧ ∃ k, caller.proc = .ask (.closePipe id) k)

end Caller

/-- A read whose limit the plan gives from what was read so far, if it does not say to stop. -/
def Proc.receiveNext (pipe : PipeId) (plan : List Bytes → Option Nat) (chunks : List Bytes) :
    Proc (List Bytes ⊕ List Bytes) :=
  match plan chunks with
  | none => return .inr chunks
  | some limit => do
      let chunk ← Proc.request (.receive pipe limit)
      return .inl (chunks ++ [chunk])

/-- Reads a pipe as a plan says and closes it. -/
def Proc.receiveBy (pipe : PipeId) (plan : List Bytes → Option Nat) : Proc (List Bytes) := do
  let chunks ← Proc.repeatFrom [] (Proc.receiveNext pipe plan)
  Proc.request (.closePipe pipe)
  return chunks

/-- Two programs at a pipe. -/
structure Pipeline where
  traffic : Traffic
  left : Caller (Except PipeError Nat)
  right : Caller (List Bytes)

namespace Pipeline

def start (id : PipeId) (slots : Nat) (chunks : List Bytes) (plan : List Bytes → Option Nat) :
    Pipeline :=
  ⟨.start slots, ⟨.sendAll id 0 chunks, false⟩, ⟨.receiveBy id plan, false⟩⟩

/-- Either program makes a step. -/
inductive Step (id : PipeId) : Pipeline → List Traffic.Event → Pipeline → Prop where
  | left {traffic after : Traffic} {left next : Caller (Except PipeError Nat)}
      {right : Caller (List Bytes)} {events : List Traffic.Event}
      (h : Caller.Step id traffic left events after next) :
      Step id ⟨traffic, left, right⟩ events ⟨after, next, right⟩
  | right {traffic after : Traffic} {left : Caller (Except PipeError Nat)}
      {right next : Caller (List Bytes)} {events : List Traffic.Event}
      (h : Caller.Step id traffic right events after next) :
      Step id ⟨traffic, left, right⟩ events ⟨after, left, next⟩

/-- What happened at the pipe from the start on, in whatever order the programs made their steps. -/
inductive Run (id : PipeId) (start : Pipeline) : List Traffic.Event → Pipeline → Prop where
  | start : Run id start [] start
  | step {events more : List Traffic.Event} {pipeline next : Pipeline}
      (h : Run id start events pipeline) (hstep : pipeline.Step id more next) :
      Run id start (events ++ more) next

end Pipeline

end Conch
