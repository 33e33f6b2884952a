import Conch.Stream.Traffic

/-!
# No byte is lost on the way

Whatever the threads at a pipe do, the bytes that were accepted are those that were handed
out, followed by those that are still in the pipe (`bytes_conserved`).  A reader that finds
the end of the pipe finds it for good: everything was handed out, and nothing more is
accepted.
-/

namespace Conch

open Text (Bytes)

/-! ## Operations of the pipe -/

namespace Pipe

variable {pipe after : Pipe} {chunk bytes : Bytes} {reply : Except PipeError Nat} {limit : Nat}

/-- A chunk that is not empty is queued as a whole, or the pipe is closed and stays as it is. -/
theorem write?_cases (h : pipe.write? chunk = some (reply, after)) (hchunk : chunk ≠ []) :
    (reply = .ok chunk.length ∧ pipe.isOpen = true ∧
        after = { pipe with queue := pipe.queue ++ [chunk] }) ∨
      (reply = .error .closed ∧ pipe.isOpen = false ∧ after = pipe) := by
  unfold write? at h
  split at h
  · rename_i hclosed
    cases h
    exact .inr ⟨rfl, by simpa using hclosed, rfl⟩
  · rename_i hopen
    split at h
    · rename_i hempty
      exact absurd (List.isEmpty_iff.mp hempty) hchunk
    · split at h
      · cases h
        exact .inl ⟨rfl, by simpa using hopen, rfl⟩
      · cases h

/-- A read takes bytes from the front, and leaves alone whether the pipe is open. -/
theorem read?_fields (h : pipe.read? limit = some (bytes, after)) :
    after.isOpen = pipe.isOpen ∧ after.queue <:+ pipe.queue ∧ after.slots = pipe.slots := by
  unfold read? at h
  split at h
  · cases h
    exact ⟨rfl, List.suffix_rfl, rfl⟩
  · split at h
    · split at h
      · cases h
      · cases h
        exact ⟨rfl, List.suffix_rfl, rfl⟩
    · rename_i hqueue
      cases h
      exact ⟨rfl, hqueue ▸ List.suffix_cons .., rfl⟩
    · cases h
      exact ⟨rfl, List.suffix_rfl, rfl⟩

/-- Without an empty chunk, a read that gets nothing finds a closed pipe with nothing in it. -/
theorem read?_end (h : pipe.read? limit = some ([], after)) (hlimit : limit ≠ 0)
    (hfull : ∀ chunk ∈ pipe.queue, chunk ≠ []) : pipe.isOpen = false ∧ pipe.contents = [] := by
  unfold read? at h
  rw [if_neg hlimit] at h
  split at h
  · rename_i hpending hqueue
    split at h
    · cases h
    · rename_i hopen
      exact ⟨by simpa using hopen, by simp [contents, hpending, hqueue]⟩
  · rename_i chunk queue _ hqueue
    simp only [Option.some.injEq, Prod.mk.injEq, List.take_eq_nil_iff] at h
    have hchunk := hfull chunk (by simp [hqueue])
    simp [hlimit, hchunk] at h
  · rename_i hempty hsome
    simp only [Option.some.injEq, Prod.mk.injEq, List.take_eq_nil_iff, hlimit, false_or] at h
    obtain ⟨hpending, _⟩ := h
    cases hqueue : pipe.queue with
    | nil => exact (hempty hpending hqueue).elim
    | cons chunk queue => exact (hsome chunk queue hpending hqueue).elim

/-- A read waits at an open pipe with nothing in it. -/
theorem read?_none (h : pipe.read? limit = none) : pipe.isOpen = true ∧ pipe.queue = [] := by
  unfold read? at h
  split at h
  · cases h
  · split at h
    · rename_i hqueue
      split at h
      · rename_i hopen
        exact ⟨hopen, hqueue⟩
      · cases h
    · cases h
    · cases h

/-- A write waits at an open pipe whose slots are taken. -/
theorem write?_none (h : pipe.write? chunk = none) :
    pipe.isOpen = true ∧ pipe.slots ≤ pipe.queue.length := by
  unfold write? at h
  split at h
  · cases h
  · rename_i hopen
    split at h
    · cases h
    · split at h
      · cases h
      · rename_i hfull
        exact ⟨by simpa using hopen, Nat.le_of_not_lt hfull⟩

end Pipe

namespace Traffic

variable {start traffic next : Traffic} {event : Event} {events later : List Event}

/-! ## Runs -/

theorem accepted_append (first rest : List Event) :
    accepted (first ++ rest) = accepted first ++ accepted rest := List.filterMap_append

theorem handedOut_append (first rest : List Event) :
    handedOut (first ++ rest) = handedOut first ++ handedOut rest := List.flatMap_append

theorem received_append (first rest : List Event) :
    received (first ++ rest) = received first ++ received rest := List.filterMap_append

/-- What every step preserves holds after every run. -/
theorem Run.preserves {P : Traffic → Prop} (h : Run start events traffic) (hstart : P start)
    (hstep : ∀ {traffic event next}, P traffic → Step traffic event next → P next) : P traffic := by
  induction h with
  | start => exact hstart
  | step _ hnext ih => exact hstep ih hnext

theorem run_nil : Run traffic [] next ↔ next = traffic := by
  constructor
  · intro h
    generalize hevents : ([] : List Event) = events at h
    cases h with
    | start => rfl
    | step => simp at hevents
  · rintro rfl
    exact .start

theorem run_singleton : Run traffic [event] next ↔ Step traffic event next := by
  constructor
  · intro h
    generalize hevents : [event] = events at h
    cases h with
    | start => cases hevents
    | @step first last middle _ hrun hstep =>
        have hsame : [] ++ [event] = first ++ [last] := hevents
        obtain ⟨rfl, hlast⟩ := List.append_inj' hsame rfl
        cases hlast
        obtain rfl := run_nil.mp hrun
        exact hstep
  · exact fun h => .step .start h

theorem Run.append (h : Run start events traffic) (hlater : Run traffic later next) :
    Run start (events ++ later) next := by
  induction hlater with
  | start =>
      rw [List.append_nil]
      exact h
  | step _ hstep ih =>
      rw [← List.append_assoc]
      exact .step ih hstep

/-! ## What holds at every time -/

/-- What the steps rely on. -/
structure Sound (traffic : Traffic) : Prop where
  /-- An empty write queues nothing, so no chunk is taken for the end. -/
  full : ∀ chunk ∈ traffic.pipe.queue, chunk ≠ []
  gathered : ∀ target taken, traffic.receiver = .searching target taken →
    traffic.pipe.pending = []
  /-- The sender is dropped before the receiving side is closed. -/
  dropped : traffic.pipe.isOpen = false ∨ traffic.closers ≠ 0 → traffic.admits = false

theorem sound_start (slots : Nat) : (Traffic.start slots).Sound where
  full := by simp [Traffic.start, calm, Pipe.new]
  gathered := by simp [Traffic.start, calm]
  dropped := by simp [Traffic.start, calm, Pipe.new]

/-! ## Steps -/

theorem accepted_singleton (event : Event) : accepted [event] = event.accepted?.toList := by
  cases h : event.accepted? with
  | none => simp [accepted, h]
  | some chunk => simp [accepted, h]

theorem handedOut_singleton (event : Event) : handedOut [event] = event.handedOut :=
  List.flatMap_singleton ..

theorem accepted?_wrote {chunk : Bytes} (hchunk : chunk ≠ []) (size : Nat) :
    (Event.wrote chunk (.ok size)).accepted? = some chunk := by
  cases chunk with
  | nil => exact absurd rfl hchunk
  | cons b chunk => rfl

theorem accepted?_failed (chunk : Bytes) (e : PipeError) :
    (Event.wrote chunk (.error e)).accepted? = none := by
  cases chunk <;> rfl

theorem Sound.step (hsound : Sound traffic) (h : Step traffic event next) : Sound next := by
  obtain ⟨hfull, hgathered, hdropped⟩ := hsound
  cases h with
  | allow chunk hadmits => exact ⟨hfull, hgathered, hdropped⟩
  | refuse chunk => exact ⟨hfull, hgathered, hdropped⟩
  | writeNothing => exact ⟨hfull, hgathered, hdropped⟩
  | @write chunk reply pipe _ hchunk hwrite =>
      rcases Pipe.write?_cases hwrite hchunk with ⟨_, _, rfl⟩ | ⟨_, _, rfl⟩
      · refine ⟨fun c hc => ?_, hgathered, hdropped⟩
        rcases List.mem_append.mp hc with hc | hc
        · exact hfull c hc
        · rw [List.mem_singleton.mp hc]
          exact hchunk
      · exact ⟨hfull, hgathered, hdropped⟩
  | readNothing => exact ⟨hfull, hgathered, hdropped⟩
  | enter => exact ⟨hfull, by simp, hdropped⟩
  | read _ hread =>
      obtain ⟨_, hqueue, _⟩ := Pipe.read?_fields hread
      exact ⟨fun c hc => hfull c (hqueue.subset hc), by simp, hdropped⟩
  | seek => exact ⟨hfull, by simp, hdropped⟩
  | take hreader _ hqueue =>
      refine ⟨fun c hc => hfull c ?_, fun _ _ _ => hgathered _ _ hreader, hdropped⟩
      rw [hqueue]
      exact List.mem_cons_of_mem _ hc
  | find => exact ⟨hfull, by simp, hdropped⟩
  | miss => exact ⟨hfull, by simp, hdropped⟩
  | drop => exact ⟨hfull, hgathered, fun _ => rfl⟩
  | close hcloser =>
      refine ⟨hfull, hgathered, fun _ => hdropped (.inr ?_)⟩
      rw [hcloser]
      exact Nat.succ_ne_zero _

theorem Step.slots (h : Step traffic event next) : next.pipe.slots = traffic.pipe.slots := by
  cases h with
  | write chunk _ hchunk hwrite =>
      rcases Pipe.write?_cases hwrite hchunk with ⟨_, _, rfl⟩ | ⟨_, _, rfl⟩ <;> rfl
  | read _ hread => exact (Pipe.read?_fields hread).2.2
  | _ => rfl

theorem Run.slots_pos {slots : Nat} (h : Run (.start slots) events traffic) :
    0 < traffic.pipe.slots := by
  induction h with
  | start => exact Nat.le_max_right slots 1
  | step _ hstep ih =>
      rw [hstep.slots]
      exact ih

theorem Run.sound {slots : Nat} (h : Run (.start slots) events traffic) : Sound traffic :=
  h.preserves (sound_start slots) fun hsound hstep => hsound.step hstep

/-- The bytes in the pipe, those of a search included. -/
def contents (traffic : Traffic) : Bytes := traffic.receiver.taken ++ traffic.pipe.contents

theorem contents_view (traffic : Traffic) : traffic.view.contents = traffic.pipe.contents := rfl

/-- What was in the pipe or is accepted is handed out or in the pipe. -/
theorem Step.conserves (h : Step traffic event next) (hsound : Sound traffic) :
    traffic.contents ++ (accepted [event]).flatten = handedOut [event] ++ next.contents := by
  rw [accepted_singleton, handedOut_singleton]
  cases h with
  | @write chunk reply pipe _ hchunk hwrite =>
      rcases Pipe.write?_cases hwrite hchunk with ⟨rfl, _, rfl⟩ | ⟨rfl, _, rfl⟩
      · simp [accepted?_wrote hchunk, Event.handedOut, contents, Pipe.contents]
      · simp [accepted?_failed, Event.handedOut, contents]
  | @read limit bytes pipe hreader hread =>
      have hcontents := Pipe.contents_read? hread
      rw [contents_view] at hcontents
      have hnext : ∀ isOpen, Pipe.contents { pipe with isOpen := isOpen } = pipe.contents :=
        fun _ => rfl
      simp [Event.accepted?, Event.handedOut, contents, hreader, Receiver.taken, hcontents, hnext]
  | seek target hfree =>
      simp [Event.accepted?, Event.handedOut, contents, hfree, Receiver.taken, Pipe.contents]
  | take hreader _ hqueue =>
      have hpending := hsound.gathered _ _ hreader
      simp [Event.accepted?, Event.handedOut, contents, hreader, Receiver.taken, Pipe.contents,
        hqueue, hpending]
  | @find target taken size hreader =>
      have hpending := hsound.gathered _ _ hreader
      simp [Event.accepted?, Event.handedOut, contents, hreader, Receiver.taken, Pipe.contents,
        hpending, ← List.append_assoc]
  | miss hreader _ hqueue =>
      have hpending := hsound.gathered _ _ hreader
      simp [Event.accepted?, Event.handedOut, contents, hreader, Receiver.taken, Pipe.contents,
        hqueue, hpending]
  | enter _ _ hfree => simp [Event.accepted?, Event.handedOut, contents, hfree, Receiver.taken]
  | _ => simp [Event.accepted?, Event.handedOut, contents, Pipe.contents, Pipe.close]

theorem Run.conserves {slots : Nat} (h : Run (.start slots) events traffic) :
    (accepted events).flatten = handedOut events ++ traffic.contents := by
  induction h with
  | start => simp [accepted, handedOut, contents, Traffic.start, calm, Receiver.taken,
      Pipe.contents, Pipe.new]
  | step hrun hstep ih =>
      rw [accepted_append, List.flatten_append, ih, handedOut_append, List.append_assoc,
        hstep.conserves hrun.sound, List.append_assoc]

/-! ## The end of a pipe -/

/-- Nothing is left in the pipe, and nothing more can be put there. -/
structure Over (traffic : Traffic) : Prop where
  dropped : traffic.admits = false
  empty : traffic.contents = []
  barred : traffic.pipe.isOpen = false ∨ traffic.writers = []

theorem view_isOpen {traffic : Traffic} (hdropped : traffic.admits = false) :
    traffic.view.isOpen = false ↔ traffic.pipe.isOpen = false ∨ traffic.writers = [] := by
  cases hopen : traffic.pipe.isOpen <;> simp [view, hasSender, hdropped, hopen]

/-- A reader that gets nothing has found the end. -/
theorem Step.over {limit : Nat} (h : Step traffic (.read limit []) next) (hlimit : limit ≠ 0)
    (hsound : Sound traffic) : Over next := by
  cases h with
  | readNothing => exact absurd rfl hlimit
  | read hreader hread =>
      obtain ⟨hview, hempty⟩ := Pipe.read?_end hread hlimit hsound.full
      have hdropped : traffic.admits = false := by
        cases hopen : traffic.pipe.isOpen with
        | false => exact hsound.dropped (.inl hopen)
        | true => exact (by simpa [view, hopen, hasSender] using hview : _ ∧ _).1
      have hrest := Pipe.contents_read? hread
      rw [hempty, List.nil_append] at hrest
      exact ⟨hdropped, hrest.symm, (view_isOpen hdropped).mp hview⟩

/-- At the end no writer gets a sender, and those that have one find the receiving side closed. -/
theorem Over.bars (hover : Over traffic) (h : Step traffic event next) :
    (∀ chunk, event ≠ .admitted chunk) ∧ event.accepted? = none ∧ next.admits = false ∧
      (next.pipe.isOpen = false ∨ next.writers = []) := by
  obtain ⟨hdropped, _, hbarred⟩ := hover
  cases h with
  | allow chunk hadmits =>
      rw [hdropped] at hadmits
      cases hadmits
  | writeNothing => exact ⟨by simp, rfl, hdropped, hbarred.imp_right fun hnone => by simp [hnone]⟩
  | @write chunk reply pipe hwriter hchunk hwrite =>
      have hclosed : traffic.pipe.isOpen = false := by
        rcases hbarred with hclosed | hnone
        · exact hclosed
        · rw [hnone] at hwriter
          cases hwriter
      rcases Pipe.write?_cases hwrite hchunk with ⟨_, hopen, _⟩ | ⟨rfl, _, rfl⟩
      · rw [hclosed] at hopen
        cases hopen
      · exact ⟨by simp, accepted?_failed _ _, hdropped, .inl hclosed⟩
  | drop => exact ⟨by simp, rfl, rfl, hbarred⟩
  | close => exact ⟨by simp, rfl, hdropped, .inl rfl⟩
  | _ => exact ⟨by simp, rfl, hdropped, hbarred⟩

/-- An event that gives no writer a sender, puts nothing into the pipe and takes nothing out. -/
structure Event.Idle (event : Event) : Prop where
  admits : ∀ chunk, event ≠ .admitted chunk
  accepted : event.accepted? = none
  handedOut : event.handedOut = []

/-- The end of a pipe stays the end. -/
theorem Over.step (hover : Over traffic) (hsound : Sound traffic) (h : Step traffic event next) :
    Over next ∧ event.Idle := by
  obtain ⟨hadmits, haccepted, hdropped, hbarred⟩ := hover.bars h
  have hbytes := h.conserves hsound
  rw [hover.empty, accepted_singleton, haccepted, handedOut_singleton, eq_comm] at hbytes
  obtain ⟨hnothing, hempty⟩ := List.append_eq_nil_iff.mp hbytes
  exact ⟨⟨hdropped, hempty, hbarred⟩, hadmits, haccepted, hnothing⟩

theorem Over.run (hover : Over traffic) (hsound : Sound traffic) (h : Run traffic events next) :
    Over next ∧ ∀ event ∈ events, event.Idle := by
  induction h with
  | start => exact ⟨hover, by simp⟩
  | step hrun hstep ih =>
      obtain ⟨hover, hidle⟩ := ih
      obtain ⟨hover, hlast⟩ := hover.step (hrun.preserves hsound .step) hstep
      refine ⟨hover, fun event hevent => ?_⟩
      rcases List.mem_append.mp hevent with hevent | hevent
      · exact hidle event hevent
      · rw [List.mem_singleton.mp hevent]
        exact hlast

/-- A pipe at which a reader has found the end is over. -/
theorem Run.over {slots limit : Nat} (h : Run (.start slots) events traffic) (hlimit : limit ≠ 0)
    (hend : .read limit [] ∈ events) : Over traffic := by
  induction h with
  | start => cases hend
  | step hrun hstep ih =>
      rcases List.mem_append.mp hend with hend | hend
      · exact ((ih hend).step hrun.sound hstep).1
      · obtain rfl := List.mem_singleton.mp hend
        exact hstep.over hlimit hrun.sound

/-! ## No byte is lost, doubled or moved -/

/-- Whatever the threads do: the accepted chunks are what was handed out, followed by what is
pending, that of a search included, and by the queue.  Once a reader has got nothing, the pipe is
closed and everything that was accepted has been handed out, and from then on no writer gets a
sender, no chunk is accepted and no reader gets anything. -/
theorem bytes_conserved {slots : Nat} {events : List Event} {traffic : Traffic}
    (h : Run (.start slots) events traffic) :
    (accepted events).flatten = handedOut events ++
        (traffic.receiver.taken ++ traffic.pipe.pending) ++ traffic.pipe.queue.flatten ∧
      ∀ limit, limit ≠ 0 → .read limit [] ∈ events →
        traffic.admits = false ∧ (accepted events).flatten = handedOut events ∧
          ∀ later next, Run traffic later next →
            (∀ chunk, .admitted chunk ∉ later) ∧ accepted later = [] ∧
              ∀ limit bytes, .read limit bytes ∈ later → bytes = [] := by
  constructor
  · rw [h.conserves, contents, Pipe.contents]
    simp only [List.append_assoc]
  · intro limit hlimit hend
    have hover := h.over hlimit hend
    refine ⟨hover.dropped, ?_, fun later next hlater => ?_⟩
    · rw [h.conserves, hover.empty, List.append_nil]
    · obtain ⟨_, hidle⟩ := hover.run h.sound hlater
      refine ⟨fun chunk hchunk => ?_, ?_, fun limit bytes hread => ?_⟩
      · exact (hidle _ hchunk).admits chunk rfl
      · exact List.filterMap_eq_nil_iff.mpr fun event hevent => (hidle event hevent).accepted
      · exact (hidle _ hread).handedOut

/-- Two writers share one slot; their bytes are read in three portions, and then the end. -/
theorem two_writers_drained : ∃ events traffic, Run (.start 1) events traffic ∧
    accepted events = [[97, 98], [99]] ∧ .read 4 [] ∈ events ∧ traffic.admits = false ∧
      handedOut events = [97, 98, 99] := by
  have hfull : Run (.start 1) _ _ := Run.start |>.step (.allow [97, 98] rfl)
    |>.step (.allow [99] rfl) |>.step (.write [97, 98] (by decide) (by decide) rfl)
  have hshared : Run (.start 1) _ _ := hfull |>.step (.enter 1 (by decide) rfl)
    |>.step (.read rfl rfl) |>.step (.write [99] (by decide) (by decide) rfl) |>.step .drop
  have hread : Run (.start 1) _ _ := hshared |>.step (.enter 4 (by decide) rfl)
    |>.step (.read rfl rfl) |>.step (.enter 4 (by decide) rfl) |>.step (.read rfl rfl)
  have hend : Run (.start 1) _ _ := hread |>.step (.enter 4 (by decide) rfl)
    |>.step (.read rfl rfl) |>.step (.close rfl rfl)
  obtain ⟨_, hover⟩ := bytes_conserved hend
  obtain ⟨hclosed, hbytes, _⟩ := hover 4 (by decide) (by simp)
  refine ⟨_, _, hend, rfl, by simp, hclosed, ?_⟩
  rw [← hbytes]
  rfl

end Traffic

end Conch
