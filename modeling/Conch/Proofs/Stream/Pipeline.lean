import Conch.Proofs.Stream.Traffic
import Conch.Stream.Pipeline

/-!
# Pipelines lose nothing and go on

A program that sends and one that reads, each of which closes the pipe at its end, go
through few phases.  What the pipe looks like follows from the two phases, and so does what
can happen next (`pipeline_lossless`).
-/

namespace Conch.Pipeline

open Text (Bytes)
open Traffic (Event accepted received handedOut)

/-! ## The phases of the left program -/

/-- Where a program that sends chunks is, with the chunks that it has not sent. -/
inductive Sender where
  | between (todo : List Bytes)
  /-- It has a sender for its next chunk. -/
  | waiting (chunk : Bytes) (todo : List Bytes)
  | failed (todo : List Bytes)
  | closing (todo : List Bytes)
  | ended (todo : List Bytes)

namespace Sender

def todo : Sender → List Bytes
  | between todo | failed todo | closing todo | ended todo => todo
  | waiting chunk todo => chunk :: todo

def writers : Sender → List Bytes
  | waiting chunk _ => [chunk]
  | _ => []

/-- It has not dropped the sender of the pipe. -/
def holds : Sender → Bool
  | closing _ | ended _ => false
  | _ => true

def closers : Sender → Nat
  | closing _ => 1
  | _ => 0

def isThere : Sender → Bool
  | ended _ => false
  | _ => true

/-- It sends no more. -/
def hasStopped : Sender → Bool
  | between _ | waiting .. => false
  | _ => true

/-- The program is in this phase. -/
inductive Is (id : PipeId) : Sender → Caller (Except PipeError Nat) → Prop where
  | between {total : Nat} {todo : List Bytes} : Is id (.between todo) ⟨.sendAll id total todo, false⟩
  | waiting {total : Nat} {chunk : Bytes} {todo : List Bytes} :
      Is id (.waiting chunk todo) ⟨.sendAll id total (chunk :: todo), true⟩
  | failed {todo : List Bytes} {e : PipeError} :
      Is id (.failed todo) ⟨.ask (.closePipe id) (fun _ => .done (.error e)), false⟩
  | closing {todo : List Bytes} {result : Except PipeError Nat} :
      Is id (.closing todo) ⟨.ask (.closePipe id) (fun _ => .done result), true⟩
  | ended {todo : List Bytes} {result : Except PipeError Nat} :
      Is id (.ended todo) ⟨.done result, false⟩

/-- What takes it from one phase to the next. -/
inductive Moves : Sender → Event → Sender → Prop where
  | admitted {chunk : Bytes} {todo : List Bytes} :
      Moves (.between (chunk :: todo)) (.admitted chunk) (.waiting chunk todo)
  | refused {chunk : Bytes} {todo : List Bytes} :
      Moves (.between (chunk :: todo)) (.refused chunk) (.failed (chunk :: todo))
  | finished : Moves (.between []) .dropped (.closing [])
  | wrote {chunk : Bytes} {todo : List Bytes} {size : Nat} :
      Moves (.waiting chunk todo) (.wrote chunk (.ok size)) (.between todo)
  | failed {chunk : Bytes} {todo : List Bytes} {e : PipeError} :
      Moves (.waiting chunk todo) (.wrote chunk (.error e)) (.failed (chunk :: todo))
  | gaveUp {todo : List Bytes} : Moves (.failed todo) .dropped (.closing todo)
  | closed {todo : List Bytes} : Moves (.closing todo) .closed (.ended todo)

variable {id : PipeId} {sender sender' : Sender} {caller next : Caller (Except PipeError Nat)}
  {traffic after : Traffic} {events : List Event} {event : Event}

theorem Is.moves (h : sender.Is id caller) (hstep : Caller.Step id traffic caller events after next) :
    ∃ event sender', events = [event] ∧ traffic.Step event after ∧ sender.Moves event sender' ∧
      sender'.Is id next := by
  cases h with
  | @between total todo =>
      cases todo with
      | nil =>
          cases hstep with
          | event hdoes htraffic =>
              cases hdoes
              exact ⟨_, _, rfl, htraffic, .finished, .closing⟩
      | cons chunk todo =>
          cases hstep with
          | event hdoes htraffic =>
              cases hdoes with
              | admitted => exact ⟨_, _, rfl, htraffic, .admitted, .waiting⟩
              | refused => exact ⟨_, _, rfl, htraffic, .refused, .failed⟩
  | waiting =>
      cases hstep with
      | event hdoes htraffic =>
          cases hdoes with
          | @wrote _ reply =>
              cases reply with
              | ok size => exact ⟨_, _, rfl, htraffic, .wrote, .between⟩
              | error e => exact ⟨_, _, rfl, htraffic, .failed, .failed⟩
  | failed =>
      cases hstep with
      | event hdoes htraffic =>
          cases hdoes
          exact ⟨_, _, rfl, htraffic, .gaveUp, .closing⟩
  | closing =>
      cases hstep with
      | event hdoes htraffic =>
          cases hdoes
          exact ⟨_, _, rfl, htraffic, .closed, .ended⟩
  | ended =>
      cases hstep with
      | event hdoes => cases hdoes

/-- What the phase allows and the pipe takes up, the program does. -/
theorem Is.can (h : sender.Is id caller) (hmoves : sender.Moves event sender')
    (htraffic : traffic.Step event after) :
    ∃ next, Caller.Step id traffic caller [event] after next := by
  cases hmoves with
  | admitted =>
      cases h
      exact ⟨_, .event .admitted htraffic⟩
  | refused =>
      cases h
      exact ⟨_, .event .refused htraffic⟩
  | finished =>
      cases h
      exact ⟨_, .event .dropped htraffic⟩
  | wrote =>
      cases h
      exact ⟨_, .event .wrote htraffic⟩
  | failed =>
      cases h
      exact ⟨_, .event .wrote htraffic⟩
  | gaveUp =>
      cases h
      exact ⟨_, .event .dropped htraffic⟩
  | closed =>
      cases h
      exact ⟨_, .event .closed htraffic⟩

end Sender

/-! ## The phases of the right program -/

/-- Where a program that reads by a plan is, with what it has read. -/
inductive Reader where
  /-- It is about to look at its plan. -/
  | between (got : List Bytes)
  | asking (got : List Bytes) (limit : Nat)
  /-- It holds the receiving side. -/
  | waiting (got : List Bytes) (limit : Nat)
  | finished (got : List Bytes)
  | closing (got : List Bytes)
  | ended (got : List Bytes)

namespace Reader

def got : Reader → List Bytes
  | between got | asking got _ | waiting got _ | finished got | closing got | ended got => got

def receiver : Reader → Receiver
  | waiting _ limit => .reading limit
  | _ => .free

def holds : Reader → Bool
  | closing _ | ended _ => false
  | _ => true

def closers : Reader → Nat
  | closing _ => 1
  | _ => 0

def isThere : Reader → Bool
  | ended _ => false
  | _ => true

/-- What is left of the program after some reads. -/
def rounds (id : PipeId) (plan : List Bytes → Option Nat) (got : List Bytes) : Proc (List Bytes) :=
  .iterate (Proc.receiveNext id plan) got fun got => .ask (.closePipe id) fun _ => .done got

/-- The program is in this phase. -/
inductive Is (id : PipeId) (plan : List Bytes → Option Nat) : Reader → Caller (List Bytes) → Prop where
  | between {got : List Bytes} : Is id plan (.between got) ⟨rounds id plan got, false⟩
  | asking {got : List Bytes} {limit : Nat} :
      Is id plan (.asking got limit)
        ⟨.ask (.receive id limit) fun chunk => rounds id plan (got ++ [chunk]), false⟩
  | waiting {got : List Bytes} {limit : Nat} (hlimit : limit ≠ 0) :
      Is id plan (.waiting got limit)
        ⟨.ask (.receive id limit) fun chunk => rounds id plan (got ++ [chunk]), true⟩
  | finished {got : List Bytes} :
      Is id plan (.finished got) ⟨.ask (.closePipe id) fun _ => .done got, false⟩
  | closing {got : List Bytes} :
      Is id plan (.closing got) ⟨.ask (.closePipe id) fun _ => .done got, true⟩
  | ended {got : List Bytes} : Is id plan (.ended got) ⟨.done got, false⟩

/-- What takes it from one phase to the next. -/
inductive Moves (plan : List Bytes → Option Nat) : Reader → List Event → Reader → Prop where
  | goesOn {got : List Bytes} {limit : Nat} (h : plan got = some limit) :
      Moves plan (.between got) [] (.asking got limit)
  | stops {got : List Bytes} (h : plan got = none) : Moves plan (.between got) [] (.finished got)
  | readNothing {got : List Bytes} : Moves plan (.asking got 0) [.read 0 []] (.between (got ++ [[]]))
  | entered {got : List Bytes} {limit : Nat} :
      Moves plan (.asking got limit) [.entered limit] (.waiting got limit)
  | read {got : List Bytes} {limit : Nat} {bytes : Bytes} (hlimit : limit ≠ 0) :
      Moves plan (.waiting got limit) [.read limit bytes] (.between (got ++ [bytes]))
  | dropped {got : List Bytes} : Moves plan (.finished got) [.dropped] (.closing got)
  | closed {got : List Bytes} : Moves plan (.closing got) [.closed] (.ended got)

variable {id : PipeId} {plan : List Bytes → Option Nat} {reader reader' : Reader}
  {caller next : Caller (List Bytes)} {traffic after : Traffic} {events : List Event}

theorem Is.moves (h : reader.Is id plan caller)
    (hstep : Caller.Step id traffic caller events after next) :
    ∃ reader', Traffic.Run traffic events after ∧ reader.Moves plan events reader' ∧
      reader'.Is id plan next := by
  cases h with
  | @between got =>
      cases hstep with
      | event hdoes => cases hdoes
      | unfold =>
          rw [Proc.receiveNext]
          cases hplan : plan got with
          | none => exact ⟨_, .start, .stops hplan, .finished⟩
          | some limit => exact ⟨_, .start, .goesOn hplan, .asking⟩
  | @asking got limit =>
      cases hstep with
      | event hdoes htraffic =>
          cases hdoes with
          | readNothing => exact ⟨_, Traffic.run_singleton.mpr htraffic, .readNothing, .between⟩
          | entered =>
              have hlimit : limit ≠ 0 := by
                cases htraffic
                assumption
              exact ⟨_, Traffic.run_singleton.mpr htraffic, .entered, .waiting hlimit⟩
  | waiting hlimit =>
      cases hstep with
      | event hdoes htraffic =>
          cases hdoes
          exact ⟨_, Traffic.run_singleton.mpr htraffic, .read hlimit, .between⟩
  | finished =>
      cases hstep with
      | event hdoes htraffic =>
          cases hdoes
          exact ⟨_, Traffic.run_singleton.mpr htraffic, .dropped, .closing⟩
  | closing =>
      cases hstep with
      | event hdoes htraffic =>
          cases hdoes
          exact ⟨_, Traffic.run_singleton.mpr htraffic, .closed, .ended⟩
  | ended =>
      cases hstep with
      | event hdoes => cases hdoes

/-- What the phase allows and the pipe takes up, the program does. -/
theorem Is.can (h : reader.Is id plan caller) (hmoves : reader.Moves plan events reader')
    (hrun : Traffic.Run traffic events after) :
    ∃ next, Caller.Step id traffic caller events after next := by
  cases hmoves with
  | goesOn =>
      cases h
      obtain rfl := Traffic.run_nil.mp hrun
      exact ⟨_, .unfold⟩
  | stops =>
      cases h
      obtain rfl := Traffic.run_nil.mp hrun
      exact ⟨_, .unfold⟩
  | readNothing =>
      cases h
      exact ⟨_, .event .readNothing (Traffic.run_singleton.mp hrun)⟩
  | entered =>
      cases h
      exact ⟨_, .event .entered (Traffic.run_singleton.mp hrun)⟩
  | read =>
      cases h
      exact ⟨_, .event .read (Traffic.run_singleton.mp hrun)⟩
  | dropped =>
      cases h
      exact ⟨_, .event .dropped (Traffic.run_singleton.mp hrun)⟩
  | closed =>
      cases h
      exact ⟨_, .event .closed (Traffic.run_singleton.mp hrun)⟩

end Reader

/-! ## What the phases tell -/

/-- What the pipe looks like while the programs are in these phases. -/
structure Shape (traffic : Traffic) (sender : Sender) (reader : Reader) : Prop where
  writers : traffic.writers = sender.writers
  receiver : traffic.receiver = reader.receiver
  closers : traffic.closers = sender.closers + reader.closers
  admits : traffic.admits = (sender.holds && reader.holds)
  isOpen : traffic.pipe.isOpen = (sender.isThere && reader.isThere)

variable {slots : Nat} {chunks : List Bytes} {events : List Event} {traffic after : Traffic}
  {sender sender' : Sender} {reader reader' : Reader} {event : Event}

theorem shape_start (slots : Nat) (chunks : List Bytes) :
    Shape (.start slots) (.between chunks) (.between []) := ⟨rfl, rfl, rfl, rfl, rfl⟩

theorem Shape.left (h : Shape traffic sender reader) (hmoves : sender.Moves event sender')
    (hstep : traffic.Step event after) : Shape after sender' reader := by
  obtain ⟨hwriters, hreceiver, hclosers, hadmits, hopen⟩ := h
  cases hmoves with
  | admitted =>
      cases hstep
      exact ⟨by simp [hwriters, Sender.writers], hreceiver, hclosers, hadmits, hopen⟩
  | refused =>
      cases hstep
      exact ⟨hwriters, hreceiver, hclosers, hadmits, hopen⟩
  | finished =>
      cases hstep
      exact ⟨hwriters, hreceiver, by simp [hclosers, Sender.closers, Nat.add_comm], rfl, hopen⟩
  | @wrote chunk todo size =>
      have hnone : traffic.writers.erase chunk = [] := by simp [hwriters, Sender.writers]
      cases hstep with
      | writeNothing => exact ⟨hnone, hreceiver, hclosers, hadmits, hopen⟩
      | write _ _ hchunk hwrite =>
          rcases Pipe.write?_cases hwrite hchunk with ⟨_, _, rfl⟩ | ⟨hreply, _⟩
          · exact ⟨hnone, hreceiver, hclosers, hadmits, hopen⟩
          · cases hreply
  | @failed chunk todo e =>
      have hnone : traffic.writers.erase chunk = [] := by simp [hwriters, Sender.writers]
      cases hstep with
      | write _ _ hchunk hwrite =>
          rcases Pipe.write?_cases hwrite hchunk with ⟨hreply, _⟩ | ⟨_, _, rfl⟩
          · cases hreply
          · exact ⟨hnone, hreceiver, hclosers, hadmits, hopen⟩
  | gaveUp =>
      cases hstep
      exact ⟨hwriters, hreceiver, by simp [hclosers, Sender.closers, Nat.add_comm], rfl, hopen⟩
  | closed =>
      cases hstep with
      | close hcloser =>
          refine ⟨hwriters, hreceiver, ?_, hadmits, rfl⟩
          rw [hcloser, Sender.closers, Nat.add_comm 1] at hclosers
          exact (Nat.succ.inj hclosers).trans (Nat.zero_add _).symm

theorem Shape.right {plan : List Bytes → Option Nat} (h : Shape traffic sender reader)
    (hmoves : reader.Moves plan events reader') (hrun : Traffic.Run traffic events after) :
    Shape after sender reader' := by
  obtain ⟨hwriters, hreceiver, hclosers, hadmits, hopen⟩ := h
  cases hmoves with
  | goesOn =>
      obtain rfl := Traffic.run_nil.mp hrun
      exact ⟨hwriters, hreceiver, hclosers, hadmits, hopen⟩
  | stops =>
      obtain rfl := Traffic.run_nil.mp hrun
      exact ⟨hwriters, hreceiver, hclosers, hadmits, hopen⟩
  | readNothing =>
      cases Traffic.run_singleton.mp hrun with
      | readNothing => exact ⟨hwriters, hreceiver, hclosers, hadmits, hopen⟩
      | read => exact ⟨hwriters, rfl, hclosers, hadmits, hopen⟩
  | entered =>
      cases Traffic.run_singleton.mp hrun
      exact ⟨hwriters, rfl, hclosers, hadmits, hopen⟩
  | read hlimit =>
      cases Traffic.run_singleton.mp hrun with
      | readNothing => exact absurd rfl hlimit
      | read => exact ⟨hwriters, rfl, hclosers, hadmits, hopen⟩
  | dropped =>
      cases Traffic.run_singleton.mp hrun
      exact ⟨hwriters, hreceiver, congrArg (· + 1) hclosers, by simp [Reader.holds], hopen⟩
  | closed =>
      cases Traffic.run_singleton.mp hrun with
      | close hcloser =>
          refine ⟨hwriters, hreceiver, ?_, hadmits, by simp [Reader.isThere, Pipe.close]⟩
          exact Nat.succ.inj (hcloser.symm.trans hclosers)

/-- How far the bytes of the left program have come. -/
structure Account (chunks : List Bytes) (events : List Event) (sender : Sender) (reader : Reader) :
    Prop where
  sent : (accepted events).flatten ++ sender.todo.flatten = chunks.flatten
  got : received events = reader.got
  handedOut : handedOut events = reader.got.flatten
  /-- Only the end of the right program keeps the left one from its chunks. -/
  stopped : sender.hasStopped = true → sender.todo ≠ [] → reader.holds = false
  failed : (∃ event ∈ events, event.isFailure = true) → reader.holds = false
  ended : (∃ limit, limit ≠ 0 ∧ .read limit [] ∈ events) → sender.holds = false ∧ sender.todo = []

theorem account_start (chunks : List Bytes) : Account chunks [] (.between chunks) (.between []) where
  sent := rfl
  got := rfl
  handedOut := rfl
  stopped := by simp [Sender.hasStopped]
  failed := by simp
  ended := by simp

/-- A failure tells that the right program has come to its end. -/
theorem Shape.failure (h : Shape traffic sender reader) (hmoves : sender.Moves event sender')
    (hstep : traffic.Step event after) (hfails : event.isFailure = true) : reader.holds = false := by
  cases hmoves with
  | refused =>
      cases hstep with
      | refuse chunk hrefused => simpa [h.admits, Sender.holds] using hrefused
  | @failed chunk todo e =>
      cases hstep with
      | write _ _ hchunk hwrite =>
          rcases Pipe.write?_cases hwrite hchunk with ⟨hreply, _⟩ | ⟨_, hclosed, _⟩
          · cases hreply
          · have hgone : reader.isThere = false := by simpa [h.isOpen, Sender.isThere] using hclosed
            cases reader <;> simp_all [Reader.isThere, Reader.holds]
  | _ => cases hfails

/-- What the left program does is no read, and a chunk is off its list when it is accepted. -/
theorem Sender.Moves.tells (h : sender.Moves event sender') :
    event.received? = none ∧ event.handedOut = [] ∧
      event.accepted?.toList.flatten ++ sender'.todo.flatten = sender.todo.flatten := by
  cases h with
  | @wrote chunk =>
      cases chunk with
      | nil => exact ⟨rfl, rfl, rfl⟩
      | cons b chunk => exact ⟨rfl, rfl, by simp [Event.accepted?, Sender.todo]⟩
  | failed => exact ⟨rfl, rfl, by simp [Traffic.accepted?_failed, Sender.todo]⟩
  | _ => exact ⟨rfl, rfl, rfl⟩

theorem Account.left (h : Account chunks events sender reader) (hshape : Shape traffic sender reader)
    (hmoves : sender.Moves event sender') (hstep : traffic.Step event after) :
    Account chunks (events ++ [event]) sender' reader := by
  obtain ⟨hreceived, hhanded, htodo⟩ := hmoves.tells
  have hfailure := hshape.failure hmoves hstep
  refine ⟨?_, ?_, ?_, fun hhas hne => ?_, ?_, ?_⟩
  · rw [Traffic.accepted_append, Traffic.accepted_singleton, List.flatten_append, List.append_assoc,
      htodo]
    exact h.sent
  · rw [Traffic.received_append, h.got]
    simp [received, hreceived]
  · rw [Traffic.handedOut_append, h.handedOut, Traffic.handedOut_singleton, hhanded, List.append_nil]
  · cases hmoves with
    | admitted => cases hhas
    | refused => exact hfailure rfl
    | finished => exact absurd rfl hne
    | wrote => cases hhas
    | failed => exact hfailure rfl
    | gaveUp => exact h.stopped rfl hne
    | closed => exact h.stopped rfl hne
  · rintro ⟨e, he, hfails⟩
    rcases List.mem_append.mp he with he | he
    · exact h.failed ⟨e, he, hfails⟩
    · rw [List.mem_singleton.mp he] at hfails
      exact hfailure hfails
  · rintro ⟨limit, hlimit, he⟩
    rcases List.mem_append.mp he with he | he
    · obtain ⟨hholds, hnone⟩ := h.ended ⟨limit, hlimit, he⟩
      cases hmoves with
      | closed => exact ⟨rfl, hnone⟩
      | _ => cases hholds
    · rw [← List.mem_singleton.mp he] at hreceived
      cases hreceived

/-- What the right program does is no write, and it knows what it has read. -/
theorem Reader.Moves.tells {plan : List Bytes → Option Nat} {more : List Event}
    (h : reader.Moves plan more reader') :
    accepted more = [] ∧ reader'.got = reader.got ++ received more ∧
      handedOut more = (received more).flatten ∧ (∀ event ∈ more, event.isFailure = false) ∧
        (reader.holds = false → reader'.holds = false) := by
  cases h with
  | goesOn => exact ⟨rfl, (List.append_nil _).symm, rfl, by simp, id⟩
  | stops => exact ⟨rfl, (List.append_nil _).symm, rfl, by simp, id⟩
  | readNothing => exact ⟨rfl, rfl, rfl, by simp [Event.isFailure], id⟩
  | entered => exact ⟨rfl, (List.append_nil _).symm, rfl, by simp [Event.isFailure], id⟩
  | read => exact ⟨rfl, rfl, by simp [handedOut, received, Event.handedOut, Event.received?],
      by simp [Event.isFailure], id⟩
  | dropped => exact ⟨rfl, (List.append_nil _).symm, rfl, by simp [Event.isFailure], fun _ => rfl⟩
  | closed => exact ⟨rfl, (List.append_nil _).symm, rfl, by simp [Event.isFailure], id⟩

theorem Reader.Moves.single {plan : List Bytes → Option Nat} {more : List Event}
    (h : reader.Moves plan more reader') (hevent : event ∈ more) : more = [event] := by
  cases h with
  | goesOn => cases hevent
  | stops => cases hevent
  | _ => rw [List.mem_singleton.mp hevent]

theorem Sender.hasStopped_of_closing (h : sender.holds = false) : sender.hasStopped = true := by
  cases sender with
  | closing => rfl
  | ended => rfl
  | _ => cases h

/-- A reader that finds the end has the left program at its end, with nothing left to send. -/
theorem Account.atEnd {plan : List Bytes → Option Nat} {limit : Nat}
    (h : Account chunks events sender reader) (hshape : Shape traffic sender reader)
    (hrun : Traffic.Run (.start slots) events traffic)
    (hmoves : reader.Moves plan [.read limit []] reader') (hlimit : limit ≠ 0)
    (hstep : traffic.Step (.read limit []) after) : sender.holds = false ∧ sender.todo = [] := by
  have hadmits := (hshape.right hmoves (Traffic.run_singleton.mpr hstep)).admits
  rw [(hstep.over hlimit hrun.sound).dropped] at hadmits
  cases hmoves with
  | readNothing => exact absurd rfl hlimit
  | @read got =>
      have hsender : sender.holds = false := by simpa [Reader.holds] using hadmits
      by_cases htodo : sender.todo = []
      · exact ⟨hsender, htodo⟩
      · cases h.stopped (Sender.hasStopped_of_closing hsender) htodo

theorem Account.right {plan : List Bytes → Option Nat} {more : List Event}
    (h : Account chunks events sender reader) (hshape : Shape traffic sender reader)
    (hrun : Traffic.Run (.start slots) events traffic)
    (hmoves : reader.Moves plan more reader') (hmore : Traffic.Run traffic more after) :
    Account chunks (events ++ more) sender reader' := by
  obtain ⟨haccepted, hgot, hhanded, hquiet, hholds⟩ := hmoves.tells
  refine ⟨?_, ?_, ?_, fun hhas hne => hholds (h.stopped hhas hne), ?_, ?_⟩
  · rw [Traffic.accepted_append, haccepted, List.append_nil]
    exact h.sent
  · rw [Traffic.received_append, h.got, hgot]
  · rw [Traffic.handedOut_append, h.handedOut, hhanded, hgot, List.flatten_append]
  · rintro ⟨event, hevent, hfails⟩
    rcases List.mem_append.mp hevent with hevent | hevent
    · exact hholds (h.failed ⟨event, hevent, hfails⟩)
    · rw [hquiet event hevent] at hfails
      cases hfails
  · rintro ⟨limit, hlimit, hevent⟩
    rcases List.mem_append.mp hevent with hevent | hevent
    · exact h.ended ⟨limit, hlimit, hevent⟩
    · obtain rfl := hmoves.single hevent
      exact h.atEnd hshape hrun hmoves hlimit (Traffic.run_singleton.mp hmore)

/-! ## Runs of a pipeline -/

/-- The two programs are in phases that fit the pipe and what has happened at it. -/
structure Phases (id : PipeId) (slots : Nat) (chunks : List Bytes) (plan : List Bytes → Option Nat)
    (events : List Event) (pipeline : Pipeline) (sender : Sender) (reader : Reader) : Prop where
  run : Traffic.Run (.start slots) events pipeline.traffic
  left : sender.Is id pipeline.left
  right : reader.Is id plan pipeline.right
  shape : Shape pipeline.traffic sender reader
  account : Account chunks events sender reader

variable {id : PipeId} {plan : List Bytes → Option Nat} {pipeline next : Pipeline}
  {more : List Event}

theorem phases_start (id : PipeId) (slots : Nat) (chunks : List Bytes)
    (plan : List Bytes → Option Nat) :
    Phases id slots chunks plan [] (Pipeline.start id slots chunks plan) (.between chunks) (.between []) :=
  ⟨.start, .between, .between, shape_start slots chunks, account_start chunks⟩

theorem Phases.step (h : Phases id slots chunks plan events pipeline sender reader)
    (hstep : pipeline.Step id more next) :
    ∃ sender' reader', Phases id slots chunks plan (events ++ more) next sender' reader' := by
  obtain ⟨hrun, hleft, hright, hshape, haccount⟩ := h
  cases hstep with
  | left hstep =>
      obtain ⟨event, sender', rfl, htraffic, hmoves, hleft⟩ := hleft.moves hstep
      exact ⟨sender', reader, .step hrun htraffic, hleft, hright, hshape.left hmoves htraffic,
        haccount.left hshape hmoves htraffic⟩
  | right hstep =>
      obtain ⟨reader', hmore, hmoves, hright⟩ := hright.moves hstep
      exact ⟨sender, reader', hrun.append hmore, hleft, hright, hshape.right hmoves hmore,
        haccount.right hshape hrun hmoves hmore⟩

theorem Run.phases (h : Run id (Pipeline.start id slots chunks plan) events pipeline) :
    ∃ sender reader, Phases id slots chunks plan events pipeline sender reader := by
  induction h with
  | start => exact ⟨_, _, phases_start id slots chunks plan⟩
  | step _ hstep ih =>
      obtain ⟨sender, reader, hphases⟩ := ih
      exact hphases.step hstep

/-! ## Somebody can go on -/

theorem Sender.writers_of_closing (h : sender.holds = false) : sender.writers = [] := by
  cases sender with
  | closing => rfl
  | ended => rfl
  | _ => cases h

theorem Sender.isThere_of_holds (h : sender.holds = true) : sender.isThere = true := by
  cases sender with
  | ended => cases h
  | _ => rfl

theorem Reader.receiver_of_ended (h : reader.isThere = false) : reader.receiver = .free := by
  cases reader with
  | ended => rfl
  | _ => cases h

theorem Reader.Is.limit_ne {got : List Bytes} {limit : Nat} {caller : Caller (List Bytes)}
    (h : (Reader.waiting got limit).Is id plan caller) : limit ≠ 0 := by
  cases h
  assumption

/-- The left program goes on, or it waits for a slot or for the receiving side. -/
theorem Shape.leftMoves (h : Shape traffic sender reader) (hthere : sender.isThere = true) :
    (∃ event sender' after, sender.Moves event sender' ∧ traffic.Step event after) ∨
      (traffic.pipe.isOpen = true ∧ traffic.pipe.slots ≤ traffic.pipe.queue.length) ∨
      (sender.holds = false ∧ traffic.receiver ≠ .free) := by
  cases sender with
  | between todo =>
      cases todo with
      | nil => exact .inl ⟨_, _, _, .finished, .drop⟩
      | cons chunk todo =>
          cases hadmits : traffic.admits with
          | true => exact .inl ⟨_, _, _, .admitted, .allow chunk hadmits⟩
          | false => exact .inl ⟨_, _, _, .refused, .refuse chunk hadmits⟩
  | waiting chunk todo =>
      have hwriter : chunk ∈ traffic.writers := by simp [h.writers, Sender.writers]
      by_cases hchunk : chunk = []
      · subst hchunk
        exact .inl ⟨_, _, _, .wrote, .writeNothing hwriter⟩
      · cases hwrite : traffic.pipe.write? chunk with
        | none => exact .inr (.inl (Pipe.write?_none hwrite))
        | some out =>
            obtain ⟨reply, pipe⟩ := out
            cases reply with
            | ok size => exact .inl ⟨_, _, _, .wrote, .write chunk hwriter hchunk hwrite⟩
            | error e => exact .inl ⟨_, _, _, .failed, .write chunk hwriter hchunk hwrite⟩
  | failed => exact .inl ⟨_, _, _, .gaveUp, .drop⟩
  | closing =>
      by_cases hfree : traffic.receiver = .free
      · have hcloser : traffic.closers = reader.closers + 1 := h.closers.trans (Nat.add_comm ..)
        exact .inl ⟨_, _, _, .closed, .close hcloser hfree⟩
      · exact .inr (.inr ⟨rfl, hfree⟩)
  | ended => cases hthere

/-- The right program goes on, or it waits for bytes. -/
theorem Shape.rightMoves {caller : Caller (List Bytes)} (h : Shape traffic sender reader)
    (hreader : reader.Is id plan caller) (hthere : reader.isThere = true) :
    (∃ more reader' after, reader.Moves plan more reader' ∧ Traffic.Run traffic more after) ∨
      ∃ got limit, reader = .waiting got limit ∧ traffic.view.read? limit = none := by
  cases reader with
  | between got =>
      cases hplan : plan got with
      | none => exact .inl ⟨_, _, _, .stops hplan, .start⟩
      | some limit => exact .inl ⟨_, _, _, .goesOn hplan, .start⟩
  | asking got limit =>
      cases limit with
      | zero => exact .inl ⟨_, _, _, .readNothing, Traffic.run_singleton.mpr .readNothing⟩
      | succ limit =>
          have henter := Traffic.Step.enter (limit + 1) (Nat.succ_ne_zero limit) h.receiver
          exact .inl ⟨_, _, _, .entered, Traffic.run_singleton.mpr henter⟩
  | waiting got limit =>
      cases hread : traffic.view.read? limit with
      | none => exact .inr ⟨got, limit, rfl, hread⟩
      | some out =>
          have hstep := Traffic.Step.read h.receiver hread
          exact .inl ⟨_, _, _, .read hreader.limit_ne, Traffic.run_singleton.mpr hstep⟩
  | finished => exact .inl ⟨_, _, _, .dropped, Traffic.run_singleton.mpr .drop⟩
  | closing =>
      have hcloser : traffic.closers = sender.closers + 1 := h.closers
      exact .inl ⟨_, _, _, .closed, Traffic.run_singleton.mpr (.close hcloser h.receiver)⟩
  | ended => cases hthere

/-- While the right program waits for bytes, the left one has not come to its end. -/
theorem Shape.holds {got : List Bytes} {limit : Nat}
    (h : Shape traffic sender (.waiting got limit)) (hview : traffic.view.isOpen = true) :
    sender.holds = true := by
  cases hholds : sender.holds with
  | true => rfl
  | false =>
      have hadmits : traffic.admits = false := by simp [h.admits, hholds]
      have hwriters : traffic.writers = [] := h.writers.trans (Sender.writers_of_closing hholds)
      rw [(Traffic.view_isOpen hadmits).mpr (.inr hwriters)] at hview
      cases hview

/-- Unless both programs have come to their ends, one of them makes a step. -/
theorem Phases.goesOn (h : Phases id slots chunks plan events pipeline sender reader)
    (hthere : sender.isThere = true ∨ reader.isThere = true) :
    ∃ more next, pipeline.Step id more next := by
  have hleft : (∃ event sender' after, sender.Moves event sender' ∧
      pipeline.traffic.Step event after) → ∃ more next, pipeline.Step id more next := by
    rintro ⟨event, sender', after, hmoves, htraffic⟩
    obtain ⟨next, hstep⟩ := h.left.can hmoves htraffic
    exact ⟨_, _, .left hstep⟩
  cases hreader : reader.isThere with
  | false =>
      have hsender : sender.isThere = true := by simpa [hreader] using hthere
      rcases h.shape.leftMoves hsender with hmoves | ⟨hopen, _⟩ | ⟨_, hheld⟩
      · exact hleft hmoves
      · simp [h.shape.isOpen, hreader] at hopen
      · exact absurd (h.shape.receiver.trans (Reader.receiver_of_ended hreader)) hheld
  | true =>
      rcases h.shape.rightMoves h.right hreader with hmoves | ⟨got, limit, rfl, hnone⟩
      · obtain ⟨more, reader', after, hmoves, hmore⟩ := hmoves
        obtain ⟨next, hstep⟩ := h.right.can hmoves hmore
        exact ⟨_, _, .right hstep⟩
      · obtain ⟨hview, hempty⟩ := Pipe.read?_none hnone
        have hholds := h.shape.holds hview
        rcases h.shape.leftMoves (Sender.isThere_of_holds hholds) with
          hmoves | ⟨_, hfull⟩ | ⟨hclosing, _⟩
        · exact hleft hmoves
        · have hlength : pipeline.traffic.pipe.queue.length = 0 := congrArg List.length hempty
          exact absurd (hlength ▸ hfull) (Nat.not_le.mpr h.run.slots_pos)
        · rw [hholds] at hclosing
          cases hclosing

/-! ## The ends of the programs -/

theorem Sender.Is.atEnd {caller : Caller (Except PipeError Nat)} (h : sender.Is id caller)
    (hholds : sender.holds = false) : caller.Finished id := by
  cases h with
  | closing => exact .inr ⟨rfl, _, rfl⟩
  | ended => exact .inl ⟨_, rfl⟩
  | _ => cases hholds

theorem Reader.Is.atEnd {caller : Caller (List Bytes)} (h : reader.Is id plan caller)
    (hholds : reader.holds = false) : caller.Finished id := by
  cases h with
  | closing => exact .inr ⟨rfl, _, rfl⟩
  | ended => exact .inl ⟨_, rfl⟩
  | _ => cases hholds

theorem Sender.Is.result {caller : Caller (Except PipeError Nat)} (h : sender.Is id caller)
    (hended : sender.isThere = false) : ∃ result, caller.proc = .done result := by
  cases h with
  | ended => exact ⟨_, rfl⟩
  | _ => cases hended

theorem Reader.Is.result {caller : Caller (List Bytes)} (h : reader.Is id plan caller)
    (hended : reader.isThere = false) : ∃ got, caller.proc = .done got := by
  cases h with
  | ended => exact ⟨_, rfl⟩
  | _ => cases hended

/-! ## Lossless and never stuck -/

/-- In whatever order the programs make their steps: the right one has read a beginning of what
the left one has written.  Once it has found the end it has read everything, and the left one is
at its end; a write fails only after the end of the right one; and unless both have come to an
end, one of them makes a step. -/
theorem lossless_and_live {events : List Event} {pipeline : Pipeline}
    (h : Run id (Pipeline.start id slots chunks plan) events pipeline) :
    ((received events).flatten <+: (accepted events).flatten ∧
        (accepted events).flatten <+: chunks.flatten) ∧
      (∀ limit, limit ≠ 0 → .read limit [] ∈ events →
        (received events).flatten = chunks.flatten ∧
          (accepted events).flatten = chunks.flatten ∧ pipeline.left.Finished id) ∧
      (∀ event ∈ events, event.isFailure = true → pipeline.right.Finished id) ∧
      ((∃ result, pipeline.left.proc = .done result) ∧
          (∃ got, pipeline.right.proc = .done got) ∨
        ∃ more next, pipeline.Step id more next) := by
  obtain ⟨sender, reader, hphases⟩ := h.phases
  have haccount := hphases.account
  have hbytes : (accepted events).flatten =
      (received events).flatten ++ pipeline.traffic.contents := by
    rw [hphases.run.conserves, haccount.handedOut, haccount.got]
  refine ⟨⟨⟨_, hbytes.symm⟩, ⟨_, haccount.sent⟩⟩, fun limit hlimit hend => ?_,
    fun event hevent hfails => ?_, ?_⟩
  · obtain ⟨hholds, htodo⟩ := haccount.ended ⟨limit, hlimit, hend⟩
    have hall : (accepted events).flatten = chunks.flatten := by
      rw [← haccount.sent, htodo, List.flatten_nil, List.append_nil]
    have hempty := (hphases.run.over hlimit hend).empty
    rw [hempty, List.append_nil] at hbytes
    exact ⟨hbytes.symm.trans hall, hall, hphases.left.atEnd hholds⟩
  · exact hphases.right.atEnd (haccount.failed ⟨event, hevent, hfails⟩)
  · cases hleft : sender.isThere with
    | true => exact .inr (hphases.goesOn (.inl hleft))
    | false =>
        cases hright : reader.isThere with
        | true => exact .inr (hphases.goesOn (.inr hright))
        | false => exact .inl ⟨hphases.left.result hleft, hphases.right.result hright⟩

/-- Reads four bytes at a time up to the end. -/
def toTheEnd (got : List Bytes) : Option Nat := if got.getLast? = some [] then none else some 4

/-- The only chunk is read before the pipe is closed, and then the end. -/
theorem chunk_then_end : ∃ events pipeline,
    Run 0 (Pipeline.start 0 Pipe.defaultSlots [[97, 98]] toTheEnd) events pipeline ∧
      .read 4 [] ∈ events ∧ (received events).flatten = [97, 98] ∧ pipeline.left.Finished 0 := by
  have hwritten : Run 0 (Pipeline.start 0 Pipe.defaultSlots [[97, 98]] toTheEnd) _ _ :=
    Run.start |>.step (.right .unfold)
      |>.step (.left (.event .admitted (.allow [97, 98] rfl)))
      |>.step (.left (.event .wrote (.write [97, 98] (by decide) (by decide) rfl)))
  have hread := hwritten |>.step (.right (.event .entered (.enter 4 (by decide) rfl)))
    |>.step (.right (.event .read (.read rfl rfl)))
  have hend := hread |>.step (.right .unfold)
    |>.step (.right (.event .entered (.enter 4 (by decide) rfl)))
    |>.step (.left (.event .dropped .drop))
    |>.step (.right (.event .read (.read rfl rfl)))
  obtain ⟨_, hover, _⟩ := lossless_and_live hend
  obtain ⟨hbytes, _, hfinished⟩ := hover 4 (by decide) (by simp)
  exact ⟨_, _, hend, by simp, hbytes, hfinished⟩

end Conch.Pipeline
