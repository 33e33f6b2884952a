import Conch.Proofs.Stream.Traffic
import Conch.Stream.Pipeline
import Conch.World.Run

/-!
# Requests served at once

Programs that run side by side have each of their requests at a pipe served at once.  This
comes to the steps of a thread that has the pipe to itself (`attempt_served`), so what holds
in every order of the steps holds of the programs.
-/

namespace Conch

open Text (Bytes)

/-- The pipe that a request is made at. -/
def Request.pipe? : Request → Option PipeId
  | .send id _ | .receive id _ | .receiveUntil id _ | .closePipe id => some id
  | _ => none

namespace Pipe

variable {target taken : Bytes}

theorem search_found {size : Nat} (queue : List Bytes) (h : findEnd target taken = some size) :
    search target taken queue = .found (taken.take size) (taken.drop size) queue := by
  rw [search.eq_def, h]

theorem search_nil (h : findEnd target taken = none) : search target taken [] = .missing taken := by
  rw [search.eq_def, h]

theorem search_cons {chunk : Bytes} {queue : List Bytes} (h : findEnd target taken = none) :
    search target taken (chunk :: queue) = search target (taken ++ chunk) queue := by
  rw [search.eq_def, h]

end Pipe

namespace Caller

variable {α : Type} {id : PipeId}

/-- Steps of one program while nobody else is at the pipe. -/
inductive Steps (id : PipeId) :
    Traffic → Caller α → List Traffic.Event → Traffic → Caller α → Prop where
  | refl {traffic : Traffic} {caller : Caller α} : Steps id traffic caller [] traffic caller
  | step {traffic middle after : Traffic} {caller between next : Caller α}
      {events more : List Traffic.Event} (h : Step id traffic caller events middle between)
      (hmore : Steps id middle between more after next) :
      Steps id traffic caller (events ++ more) after next

theorem Steps.one {traffic after : Traffic} {caller next : Caller α} {event : Traffic.Event}
    (hcaller : caller.Does id event next) (h : traffic.Step event after) :
    Steps id traffic caller [event] after next := .step (.event hcaller h) .refl

theorem Steps.two {traffic middle after : Traffic} {caller between next : Caller α}
    {first second : Traffic.Event} (hcaller : caller.Does id first between)
    (h : traffic.Step first middle) (hnext : between.Does id second next)
    (hafter : middle.Step second after) : Steps id traffic caller [first, second] after next :=
  .step (.event hcaller h) (.one hnext hafter)

end Caller

namespace Kernel

open Caller (Steps)

variable {α : Type} {id : PipeId} {pipe after : Pipe}

/-! ## Each request -/

theorem send_atOnce {chunk : Bytes} {reply : Except PipeError Nat}
    (h : pipe.write? chunk = some (reply, after)) (k : Except PipeError Nat → Proc α) :
    ∃ events, Steps id (.calm pipe) ⟨.ask (.send id chunk) k, false⟩ events (.calm after)
      ⟨k reply, false⟩ := by
  cases hopen : pipe.isOpen with
  | false =>
      have hclosed : pipe.write? chunk = some (.error .closed, pipe) := by simp [Pipe.write?, hopen]
      rw [hclosed] at h
      cases h
      exact ⟨_, .one .refused (.refuse chunk hopen)⟩
  | true =>
      have hadmit : Traffic.Step (.calm pipe) (.admitted chunk) _ := .allow chunk hopen
      by_cases hchunk : chunk = []
      · subst hchunk
        have hnothing : pipe.write? [] = some (.ok 0, pipe) := by simp [Pipe.write?, hopen]
        rw [hnothing] at h
        cases h
        exact ⟨_, .two .admitted hadmit .wrote (.writeNothing (List.mem_singleton.mpr rfl))⟩
      · have hwrite : Traffic.Step ⟨pipe, pipe.isOpen, [chunk], .free, 0⟩ (.wrote chunk reply) _ :=
          .write chunk (List.mem_singleton.mpr rfl) hchunk h
        have hcalm : Traffic.calm after = ⟨after, pipe.isOpen, [chunk].erase chunk, .free, 0⟩ := by
          rcases Pipe.write?_cases h hchunk with ⟨_, _, rfl⟩ | ⟨_, _, rfl⟩ <;>
            simp [Traffic.calm]
        rw [hcalm]
        exact ⟨_, .two .admitted hadmit .wrote hwrite⟩

theorem receive_atOnce {limit : Nat} {bytes : Bytes} (h : pipe.read? limit = some (bytes, after))
    (k : Bytes → Proc α) :
    ∃ events, Steps id (.calm pipe) ⟨.ask (.receive id limit) k, false⟩ events (.calm after)
      ⟨k bytes, false⟩ := by
  by_cases hlimit : limit = 0
  · subst hlimit
    have hnothing : pipe.read? 0 = some ([], pipe) := by simp [Pipe.read?]
    rw [hnothing] at h
    cases h
    exact ⟨_, .one .readNothing .readNothing⟩
  · have hview : Traffic.view ⟨pipe, pipe.isOpen, [], .reading limit, 0⟩ = pipe := by
      simp [Traffic.view, Traffic.hasSender]
    have hread : Traffic.Step ⟨pipe, pipe.isOpen, [], .reading limit, 0⟩ (.read limit bytes) _ :=
      .read rfl (hview.symm ▸ h)
    have hcalm : Traffic.calm after =
        ⟨{ after with isOpen := pipe.isOpen }, pipe.isOpen, [], .free, 0⟩ := by
      simp [Traffic.calm, ← (Pipe.read?_fields h).1]
    rw [hcalm]
    exact ⟨_, .two .entered (.enter limit hlimit rfl) .read hread⟩

/-- The thread that looks for a target, with what it has taken and the rest of the queue. -/
def searching (pipe : Pipe) (target taken : Bytes) (queue : List Bytes) : Traffic :=
  ⟨{ pipe with pending := [], queue := queue }, pipe.isOpen, [], .searching target taken, 0⟩

theorem find_step {target taken : Bytes} {queue : List Bytes} {size : Nat}
    (hfind : Pipe.findEnd target taken = some size) (k : Except PipeError Bytes → Proc α) :
    Caller.Step id (searching pipe target taken queue) ⟨.ask (.receiveUntil id target) k, true⟩
      [.found target (taken.take size)] (.calm { pipe with pending := taken.drop size, queue := queue })
      ⟨k (.ok (taken.take size)), false⟩ := .event .found (.find rfl hfind)

theorem take_step {target taken chunk : Bytes} {queue : List Bytes}
    (hfind : Pipe.findEnd target taken = none) (k : Except PipeError Bytes → Proc α) :
    Caller.Step id (searching pipe target taken (chunk :: queue))
      ⟨.ask (.receiveUntil id target) k, true⟩ [.took chunk]
      (searching pipe target (taken ++ chunk) queue) ⟨.ask (.receiveUntil id target) k, true⟩ :=
  .event .took (.take rfl hfind rfl)

/-- A search takes chunk after chunk up to the one that completes the target. -/
theorem found_atOnce {target taken upTo rest : Bytes} {queue left : List Bytes}
    (h : Pipe.search target taken queue = .found upTo rest left)
    (k : Except PipeError Bytes → Proc α) :
    ∃ events, Steps id (searching pipe target taken queue) ⟨.ask (.receiveUntil id target) k, true⟩
      events (.calm { pipe with pending := rest, queue := left }) ⟨k (.ok upTo), false⟩ := by
  induction queue generalizing taken with
  | nil =>
      cases hfind : Pipe.findEnd target taken with
      | none =>
          rw [Pipe.search_nil hfind] at h
          cases h
      | some size =>
          rw [Pipe.search_found [] hfind] at h
          cases h
          exact ⟨_, .step (find_step hfind k) .refl⟩
  | cons chunk queue ih =>
      cases hfind : Pipe.findEnd target taken with
      | none =>
          rw [Pipe.search_cons hfind] at h
          obtain ⟨events, hsteps⟩ := ih h
          exact ⟨_, .step (take_step hfind k) hsteps⟩
      | some size =>
          rw [Pipe.search_found _ hfind] at h
          cases h
          exact ⟨_, .step (find_step hfind k) .refl⟩

theorem missed_atOnce {target taken all : Bytes} {queue : List Bytes}
    (hclosed : pipe.isOpen = false) (h : Pipe.search target taken queue = .missing all)
    (k : Except PipeError Bytes → Proc α) :
    ∃ events, Steps id (searching pipe target taken queue) ⟨.ask (.receiveUntil id target) k, true⟩
      events (.calm { pipe with pending := [], queue := [] })
      ⟨k (.error (.unmatched (Text.decodeLossy target))), false⟩ := by
  induction queue generalizing taken with
  | nil =>
      cases hfind : Pipe.findEnd target taken with
      | none =>
          have hend : (searching pipe target taken []).view.isOpen = false := by
            simp [Traffic.view, searching, hclosed]
          exact ⟨_, .one .missed (.miss rfl hfind rfl hend)⟩
      | some size =>
          rw [Pipe.search_found [] hfind] at h
          cases h
  | cons chunk queue ih =>
      cases hfind : Pipe.findEnd target taken with
      | none =>
          rw [Pipe.search_cons hfind] at h
          obtain ⟨events, hsteps⟩ := ih h
          exact ⟨_, .step (take_step hfind k) hsteps⟩
      | some size =>
          rw [Pipe.search_found _ hfind] at h
          cases h

theorem receiveUntil_atOnce {target : Bytes} {reply : Except PipeError Bytes}
    (h : pipe.readUntil target = (some reply, after)) (k : Except PipeError Bytes → Proc α) :
    ∃ events, Steps id (.calm pipe) ⟨.ask (.receiveUntil id target) k, false⟩ events (.calm after)
      ⟨k reply, false⟩ := by
  have hseek : Caller.Step id (.calm pipe) ⟨.ask (.receiveUntil id target) k, false⟩
      [.sought target] (searching pipe target pipe.pending pipe.queue)
      ⟨.ask (.receiveUntil id target) k, true⟩ := .event .sought (.seek target rfl)
  unfold Pipe.readUntil at h
  split at h
  · rename_i upTo rest queue hsearch
    cases h
    obtain ⟨events, hsteps⟩ := found_atOnce hsearch k
    exact ⟨_, .step hseek hsteps⟩
  · rename_i all hsearch
    split at h
    · cases h
    · rename_i hclosed
      cases h
      obtain ⟨events, hsteps⟩ := missed_atOnce (by simpa using hclosed) hsearch k
      exact ⟨_, .step hseek hsteps⟩

theorem closePipe_atOnce (pipe : Pipe) (k : Unit → Proc α) :
    ∃ events, Steps id (.calm pipe) ⟨.ask (.closePipe id) k, false⟩ events (.calm pipe.close)
      ⟨k (), false⟩ :=
  ⟨_, .two .dropped .drop .closed (.close rfl rfl)⟩

/-! ## Every request -/

variable {kernel kernel' : Kernel} {tasks : Tasks}

theorem pipe_setPipe (kernel : Kernel) (id : PipeId) (pipe : Pipe) :
    (kernel.setPipe id pipe).pipe id = pipe := by
  simp [Kernel.pipe, setPipe]

/-- A request at a pipe that is served takes the pipe and the program where the steps of a thread
take them. -/
theorem attempt_served {r : Request} {reply : r.Reply} (hr : r.pipe? = some id)
    (h : kernel.attempt tasks r = .served reply kernel') (k : r.Reply → Proc α) :
    ∃ events, Steps id (.calm (kernel.pipe id)) ⟨.ask r k, false⟩ events
      (.calm (kernel'.pipe id)) ⟨k reply, false⟩ := by
  cases r with
  | send other chunk =>
      cases hr
      simp only [attempt, send] at h
      split at h
      · rename_i hwrite
        cases h
        rw [pipe_setPipe]
        exact send_atOnce hwrite k
      · cases h
  | receive other limit =>
      cases hr
      simp only [attempt, receive] at h
      split at h
      · rename_i hread
        cases h
        rw [pipe_setPipe]
        exact receive_atOnce hread k
      · cases h
  | receiveUntil other target =>
      cases hr
      simp only [attempt, receiveUntil] at h
      split at h
      · rename_i hread
        cases h
        rw [pipe_setPipe]
        exact receiveUntil_atOnce hread k
      · split at h
        · cases h
        · cases h
  | closePipe other =>
      cases hr
      cases h
      rw [pipe_setPipe]
      exact closePipe_atOnce _ k
  | _ => cases hr

end Kernel

end Conch
