import Conch.Proofs.Text.Utf8
import Conch.Proofs.World.Served

/-!
# Reading up to a target

A reader that looks for a target gets the shortest prefix of the stream that ends with it.
What it has taken beyond that goes back to the front of the pipe, and chunks that arrive
later change nothing about a prefix that was found (`ShortestTo.append`).  So the result
is that of the stream left in the pipe, however it was cut into chunks and read before
(`search_shortest`).  Only the end of the pipe ends a search without its target, and then
all that the search has taken is lost (`failed_search_keeps_iff`).
-/

namespace Conch

open Text (Bytes)

/-- The shortest prefix of a stream that ends with the target. -/
structure ShortestTo (target stream upTo : Bytes) : Prop where
  starts : upTo <+: stream
  ends : target <:+ upTo
  least : ∀ other, other <+: stream → target <:+ other → upTo.length ≤ other.length

namespace ShortestTo

variable {target stream upTo other : Bytes}

theorem unique (h : ShortestTo target stream upTo) (hother : ShortestTo target stream other) :
    upTo = other := by
  have hle := h.least other hother.starts hother.ends
  have hge := hother.least upTo h.starts h.ends
  exact (List.prefix_of_prefix_length_le h.starts hother.starts hle).eq_of_length_le hge

/-- More bytes at the end of the stream do not change what was found. -/
theorem append (h : ShortestTo target stream upTo) (more : Bytes) :
    ShortestTo target (stream ++ more) upTo := by
  refine ⟨h.starts.trans (List.prefix_append ..), h.ends, fun other hstarts hends => ?_⟩
  rcases Nat.le_total other.length stream.length with hlength | hlength
  · exact h.least other
      (List.prefix_of_prefix_length_le hstarts (List.prefix_append ..) hlength) hends
  · exact Nat.le_trans h.starts.length_le hlength

theorem occurs (h : ShortestTo target stream upTo) : target <:+: stream :=
  h.ends.isInfix.trans h.starts.isInfix

/-- A target at the front is the shortest prefix itself. -/
theorem of_isPrefix (h : target <+: stream) : ShortestTo target stream target :=
  ⟨h, List.suffix_rfl, fun _ _ hends => hends.length_le⟩

/-- Elsewhere it is found behind the first byte. -/
theorem cons {b : UInt8} (h : ShortestTo target stream upTo) (hfirst : ¬target <+: b :: stream) :
    ShortestTo target (b :: stream) (b :: upTo) := by
  refine ⟨List.cons_prefix_cons.mpr ⟨rfl, h.starts⟩, h.ends.trans (List.suffix_cons ..),
    fun other hother hends => ?_⟩
  cases other with
  | nil => exact absurd (List.suffix_nil.mp hends ▸ List.nil_prefix) hfirst
  | cons c other =>
      rcases List.suffix_cons_iff.mp hends with hwhole | hends
      · exact absurd (hwhole ▸ hother) hfirst
      · exact Nat.succ_le_succ (h.least other (List.cons_prefix_cons.mp hother).2 hends)

end ShortestTo

/-! ## Searching -/

namespace Pipe

variable {target bytes taken : Bytes} {size : Nat}

theorem findFrom_eq (target : Bytes) (passed : Nat) (bytes : Bytes) :
    findFrom target passed bytes = (findEnd target bytes).map (passed + ·) := by
  rw [findEnd]
  induction bytes generalizing passed with
  | nil => simp only [findFrom]; split <;> rfl
  | cons b rest ih =>
      simp only [findFrom]
      split
      · simp
      · rw [ih (passed + 1), ih (0 + 1), Option.map_map]
        refine congrArg (fun f => Option.map f _) (funext fun size => ?_)
        simp only [Function.comp]
        omega

theorem findEnd_cons (target : Bytes) (b : UInt8) (rest : Bytes) :
    findEnd target (b :: rest) =
      if target <+: b :: rest then some target.length else (findEnd target rest).map (· + 1) := by
  rw [findEnd, findFrom, findFrom_eq]
  simp [Nat.add_comm]

theorem shortestTo_take (h : findEnd target bytes = some size) :
    ShortestTo target bytes (bytes.take size) := by
  induction bytes generalizing size with
  | nil =>
      have hempty : target = [] := And.left (by simpa [findEnd, findFrom] using h)
      rw [List.take_nil, hempty]
      exact .of_isPrefix List.nil_prefix
  | cons b rest ih =>
      rw [findEnd_cons] at h
      split at h
      · rename_i hfirst
        cases h
        rw [← List.prefix_iff_eq_take.mp hfirst]
        exact .of_isPrefix hfirst
      · rename_i hfirst
        obtain ⟨before, hbefore, rfl⟩ := Option.map_eq_some_iff.mp h
        exact (ih hbefore).cons hfirst

theorem findEnd_eq_none : findEnd target bytes = none ↔ ¬target <:+: bytes := by
  induction bytes with
  | nil => simp [findEnd, findFrom]
  | cons b rest ih =>
      rw [findEnd_cons, List.infix_cons_iff]
      split
      · rename_i hfirst
        simp [hfirst]
      · rename_i hfirst
        simp [hfirst, ih]

end Pipe

/-! ## Served at once -/

namespace Pipe

variable {target taken : Bytes} {queue : List Bytes}

/-- What a search through a queue comes to. -/
theorem search_cases (target taken : Bytes) (queue : List Bytes) :
    (∃ upTo rest left, search target taken queue = .found upTo rest left ∧
      ShortestTo target (taken ++ queue.flatten) upTo ∧
      taken ++ queue.flatten = upTo ++ (rest ++ left.flatten)) ∨
    (search target taken queue = .missing (taken ++ queue.flatten) ∧
      ¬target <:+: taken ++ queue.flatten) := by
  induction queue generalizing taken with
  | nil =>
      cases hfind : findEnd target taken with
      | none =>
          refine .inr ⟨?_, ?_⟩
          · rw [search_nil hfind, List.flatten_nil, List.append_nil]
          · rwa [List.flatten_nil, List.append_nil, ← findEnd_eq_none]
      | some size =>
          exact .inl ⟨_, _, _, search_found [] hfind, (shortestTo_take hfind).append _, by simp⟩
  | cons chunk queue ih =>
      cases hfind : findEnd target taken with
      | none =>
          rw [search_cons hfind, List.flatten_cons, ← List.append_assoc]
          exact ih (taken ++ chunk)
      | some size =>
          exact .inl ⟨_, _, _, search_found _ hfind, (shortestTo_take hfind).append _,
            by simp [← List.append_assoc]⟩

/-- A reader that looks for a target finds it, or finds the end of the pipe, or waits. -/
theorem readUntil_cases (pipe : Pipe) (target : Bytes) :
    (∃ upTo after, pipe.readUntil target = (some (.ok upTo), after) ∧
      ShortestTo target pipe.contents upTo ∧ pipe.contents = upTo ++ after.contents) ∨
    (¬target <:+: pipe.contents ∧ pipe.isOpen = false ∧
      pipe.readUntil target = (some (.error (.unmatched (Text.decodeLossy target))),
        { pipe with pending := [], queue := [] })) ∨
    (¬target <:+: pipe.contents ∧ pipe.isOpen = true ∧
      pipe.readUntil target = (none, { pipe with pending := pipe.contents, queue := [] })) := by
  rcases search_cases target pipe.pending pipe.queue with
    ⟨upTo, rest, left, hsearch, hfirst, hrest⟩ | ⟨hsearch, hmissing⟩
  · exact .inl ⟨upTo, { pipe with pending := rest, queue := left },
      by rw [readUntil, hsearch], hfirst, hrest⟩
  · cases hopen : pipe.isOpen with
    | false => exact .inr (.inl ⟨hmissing, rfl, by rw [readUntil, hsearch]; simp [hopen]⟩)
    | true => exact .inr (.inr ⟨hmissing, rfl, by rw [readUntil, hsearch]; simp [hopen, contents]⟩)

/-- The same for each result: a reader gets the shortest prefix that ends with the target and leaves
the rest, and it fails exactly if the pipe is closed and the target does not occur. -/
theorem readUntil_shortest (pipe : Pipe) (target : Bytes) :
    (∀ upTo, (∃ after, pipe.readUntil target = (some (.ok upTo), after)) ↔
      ShortestTo target pipe.contents upTo) ∧
    (∀ upTo after, pipe.readUntil target = (some (.ok upTo), after) →
      pipe.contents = upTo ++ after.contents) ∧
    ((∃ after, pipe.readUntil target =
        (some (.error (.unmatched (Text.decodeLossy target))), after)) ↔
      pipe.isOpen = false ∧ ¬target <:+: pipe.contents) := by
  rcases pipe.readUntil_cases target with
    ⟨upTo, after, hread, hfirst, hrest⟩ | ⟨hmissing, hclosed, hread⟩ | ⟨hmissing, hopen, hread⟩
  · refine ⟨fun other => ⟨?_, fun hother => ⟨after, ?_⟩⟩, ?_, ?_, ?_⟩
    · rintro ⟨_, hother⟩
      rw [hread] at hother
      cases hother
      exact hfirst
    · rw [hread, hother.unique hfirst]
    · intro other afterwards hother
      rw [hread] at hother
      cases hother
      exact hrest
    · rintro ⟨_, hfailed⟩
      rw [hread] at hfailed
      cases hfailed
    · rintro ⟨_, hmissing⟩
      exact absurd hfirst.occurs hmissing
  · simp only [hread, hclosed, hmissing]
    exact ⟨fun upTo => ⟨by simp, fun hfirst => absurd hfirst.occurs hmissing⟩, by simp, by simp⟩
  · simp only [hread, hopen]
    exact ⟨fun upTo => ⟨by simp, fun hfirst => absurd hfirst.occurs hmissing⟩, by simp, by simp⟩

/-! ### After a failed search -/

/-- What reads of up to so many bytes each get, one after the other. -/
def readEach? : Pipe → List Nat → Option (List Bytes)
  | _, [] => some []
  | pipe, limit :: limits =>
      (pipe.read? limit).bind fun (bytes, after) => (after.readEach? limits).map (bytes :: ·)

theorem readEach?_cons {pipe after : Pipe} {limit : Nat} {bytes : Bytes}
    (h : pipe.read? limit = some (bytes, after)) (limits : List Nat) :
    pipe.readEach? (limit :: limits) = (after.readEach? limits).map (bytes :: ·) := by
  rw [readEach?, h]
  rfl

/-- Nothing is left to be read once a closed pipe is empty. -/
theorem readEach?_drained {pipe : Pipe} (hclosed : pipe.isOpen = false)
    (hempty : pipe.contents = []) (limits : List Nat) :
    pipe.readEach? limits = some (limits.map fun _ => []) := by
  induction limits generalizing pipe with
  | nil => rfl
  | cons limit limits ih =>
      cases hread : pipe.read? limit with
      | none =>
          rw [(read?_none hread).1] at hclosed
          cases hclosed
      | some result =>
          obtain ⟨bytes, after⟩ := result
          have hrest := contents_read? hread
          rw [hempty, eq_comm, List.append_eq_nil_iff] at hrest
          obtain ⟨rfl, hafter⟩ := hrest
          rw [readEach?_cons hread, ih ((read?_fields hread).1.trans hclosed) hafter]
          rfl

theorem read?_chunk (slots : Nat) (chunk : Bytes) (queue : List Bytes) (isOpen : Bool) :
    read? ⟨slots, chunk :: queue, [], isOpen⟩ (chunk.length + 1) =
      some (chunk, ⟨slots, queue, [], isOpen⟩) := by
  simp [read?, List.take_of_length_le]

/-- Enough reads get all that is in a pipe. -/
theorem exists_readEach? (pipe : Pipe) :
    ∃ limits reads, pipe.readEach? limits = some reads ∧ reads.flatten = pipe.contents := by
  obtain ⟨slots, queue, pending, isOpen⟩ := pipe
  have hqueue : ∃ limits reads, readEach? ⟨slots, queue, [], isOpen⟩ limits = some reads ∧
      reads.flatten = queue.flatten := by
    induction queue with
    | nil => exact ⟨[], [], rfl, rfl⟩
    | cons chunk queue ih =>
        obtain ⟨limits, reads, hreads, hflatten⟩ := ih
        refine ⟨(chunk.length + 1) :: limits, chunk :: reads, ?_, by simp [hflatten]⟩
        rw [readEach?_cons (read?_chunk ..), hreads]
        rfl
  obtain ⟨limits, reads, hreads, hflatten⟩ := hqueue
  cases pending with
  | nil => exact ⟨limits, reads, hreads, hflatten⟩
  | cons b pending =>
      have hread : read? ⟨slots, queue, b :: pending, isOpen⟩ (pending.length + 1) =
          some (b :: pending, ⟨slots, queue, [], isOpen⟩) := by simp [read?]
      refine ⟨(pending.length + 1) :: limits, (b :: pending) :: reads, ?_,
        by simp [contents, hflatten]⟩
      rw [readEach?_cons hread, hreads]
      rfl

/-- After a search that found the end of the pipe no read gets anything.  So what could be read
before can still be read only if that was nothing. -/
theorem failed_search_keeps_iff {pipe after : Pipe} {target : Bytes} {e : PipeError}
    (h : pipe.readUntil target = (some (.error e), after)) :
    (∀ limits, after.readEach? limits = some (limits.map fun _ => [])) ∧
      ((∀ limits, after.readEach? limits = pipe.readEach? limits) ↔ pipe.contents = []) := by
  obtain ⟨hclosed, hafter⟩ : pipe.isOpen = false ∧
      after = { pipe with pending := [], queue := [] } := by
    rcases readUntil_cases pipe target with
      ⟨_, _, hread, _⟩ | ⟨_, hclosed, hread⟩ | ⟨_, _, hread⟩ <;> rw [hread] at h <;> cases h
    exact ⟨hclosed, rfl⟩
  have hdrained : ∀ limits, after.readEach? limits = some (limits.map fun _ => []) :=
    fun limits => readEach?_drained (by rw [hafter]; exact hclosed) (by rw [hafter]; rfl) limits
  refine ⟨hdrained, fun hsame => ?_, fun hempty limits => ?_⟩
  · obtain ⟨limits, reads, hreads, hflatten⟩ := pipe.exists_readEach?
    rw [← hsame, hdrained] at hreads
    rw [← hflatten, ← Option.some.inj hreads]
    simp
  · rw [hdrained, readEach?_drained hclosed hempty]

theorem decodeLossy_x : Text.decodeLossy [120] = "x" := by
  have hencode : Text.encode "x" = [120] := by decide +kernel
  rw [← hencode, Text.decodeLossy_encode]

/-- A closed pipe with `part` in it, in two portions. -/
def leftover : Pipe := ⟨8, [[114, 116]], [112, 97], false⟩

theorem leftover_not_kept :
    leftover.readUntil [120] = (some (.error (.unmatched "x")), ⟨8, [], [], false⟩) ∧
    (∀ limits, readEach? ⟨8, [], [], false⟩ limits = some (limits.map fun _ => [])) ∧
    ¬∀ limits, readEach? ⟨8, [], [], false⟩ limits = leftover.readEach? limits := by
  have hfailed : leftover.readUntil [120] =
      (some (.error (.unmatched "x")), ⟨8, [], [], false⟩) := by
    rw [← decodeLossy_x]
    rfl
  obtain ⟨hdrained, hkeeps⟩ := failed_search_keeps_iff hfailed
  exact ⟨hfailed, hdrained, fun hall => absurd (hkeeps.mp hall) (by decide)⟩

/-- What was written before the pipe was closed can be read, but not after a search for something
else. -/
theorem unmatched_lost : ∃ pipe after,
    (new 8).write? [112, 97, 114, 116] = some (.ok 4, pipe) ∧
    pipe.close.readEach? [16] = some [[112, 97, 114, 116]] ∧
    pipe.close.readUntil [120] = (some (.error (.unmatched "x")), after) ∧
    after.readEach? [16] = some [[]] := by
  refine ⟨⟨8, [[112, 97, 114, 116]], [], true⟩, ⟨8, [], [], false⟩, rfl, rfl, ?_, rfl⟩
  rw [← decodeLossy_x]
  rfl

end Pipe

/-! ## Step by step -/

namespace Traffic

variable {slots : Nat} {target taken : Bytes} {event : Event} {before during events : List Event}
  {start traffic next : Traffic}

/-- The event is the end of a search. -/
def Event.endsSearch : Event → Bool
  | found .. | missed .. => true
  | _ => false

/-- What the readers have left of the stream after the first events. -/
def remaining (before later : List Event) : Bytes :=
  (accepted (before ++ later)).flatten.drop (handedOut before).length

/-- A search takes more chunks or lets others do what takes nothing out of the pipe. -/
theorem Step.searching (h : Step traffic event next)
    (hsearch : traffic.receiver = .searching target taken) (hgoes : event.endsSearch = false) :
    (∃ more, next.receiver = .searching target (taken ++ more)) ∧ event.handedOut = [] := by
  cases h with
  | read hreader => rw [hsearch] at hreader; cases hreader
  | enter _ _ hfree | seek _ hfree | close _ hfree => rw [hsearch] at hfree; cases hfree
  | find | miss => cases hgoes
  | take hreader =>
      rw [hsearch] at hreader
      cases hreader
      exact ⟨⟨_, rfl⟩, rfl⟩
  | _ => exact ⟨⟨[], by rw [List.append_nil]; exact hsearch⟩, rfl⟩

/-- Up to its end nobody but the search takes anything. -/
theorem Run.searching (h : Run start during traffic)
    (hsearch : start.receiver = .searching target taken)
    (hgoes : ∀ event ∈ during, event.endsSearch = false) :
    (∃ more, traffic.receiver = .searching target (taken ++ more)) ∧ handedOut during = [] := by
  induction h with
  | start => exact ⟨⟨[], by rw [List.append_nil]; exact hsearch⟩, rfl⟩
  | step hrun hstep ih =>
      obtain ⟨⟨more, hmore⟩, hnothing⟩ := ih fun event hevent => hgoes event (by simp [hevent])
      obtain ⟨⟨most, hmost⟩, hlast⟩ := hstep.searching hmore (hgoes _ (by simp))
      rw [handedOut_append, hnothing, handedOut_singleton, hlast]
      exact ⟨⟨more ++ most, by rw [← List.append_assoc]; exact hmost⟩, rfl⟩

theorem Run.uncons (h : Run start (event :: events) traffic) :
    ∃ next, Step start event next ∧ Run next events traffic := by
  generalize hall : event :: events = all at h
  induction h generalizing events with
  | start => cases hall
  | @step first last middle final hrun hstep ih =>
      rcases first with - | ⟨head, first⟩
      · obtain ⟨rfl, rfl⟩ := List.cons.inj hall
        obtain rfl := run_nil.mp hrun
        exact ⟨_, hstep, .start⟩
      · obtain ⟨rfl, rfl⟩ := List.cons.inj hall
        obtain ⟨next, hnext, hlater⟩ := ih rfl
        exact ⟨next, hnext, .step hlater hstep⟩

theorem Run.admits (h : Run (.start slots) events traffic) :
    traffic.admits = false ↔ .dropped ∈ events := by
  induction h with
  | start => simp [Traffic.start, calm, Pipe.new]
  | step _ hstep ih =>
      rw [List.mem_append, List.mem_singleton, ← ih]
      cases hstep <;> simp

/-- The stream that is left is what is handed out later and what is then in the pipe. -/
theorem Run.remaining_eq {later : List Event} (h : Run (.start slots) (before ++ later) traffic) :
    remaining before later = handedOut later ++ traffic.contents := by
  rw [remaining, h.conserves, handedOut_append, List.append_assoc, List.drop_left]

/-- What is accepted later comes after what is in the pipe, if nothing was handed out in between. -/
theorem Run.remaining_append (h : Run (.start slots) (before ++ during) traffic)
    (hnothing : handedOut during = []) (later : List Event) :
    remaining before (during ++ later) = traffic.contents ++ (accepted later).flatten := by
  have hlength : (handedOut before).length ≤ (accepted (before ++ during)).flatten.length := by
    rw [h.conserves, handedOut_append, List.append_assoc, List.length_append]
    exact Nat.le_add_right ..
  have hleft := h.remaining_eq
  rw [remaining, hnothing, List.nil_append] at hleft
  rw [remaining, ← List.append_assoc, accepted_append, List.flatten_append,
    List.drop_append_of_le_length hlength, hleft]

theorem contents_searching (hsearch : traffic.receiver = .searching target taken)
    (hsound : Sound traffic) : traffic.contents = taken ++ traffic.pipe.queue.flatten := by
  rw [contents, hsearch, Pipe.contents, hsound.gathered _ _ hsearch]
  rfl

/-- A search has the steps that it needs for itself. -/
theorem exists_ending (hsearch : traffic.receiver = .searching target taken) :
    (∃ takes upTo next, Run traffic (takes ++ [.found target upTo]) next ∧
      (∀ event ∈ takes, ∃ chunk, event = .took chunk) ∧
      ShortestTo target (taken ++ traffic.pipe.queue.flatten) upTo) ∨
    (¬target <:+: taken ++ traffic.pipe.queue.flatten ∧ (traffic.view.isOpen = false →
      ∃ takes all next, Run traffic (takes ++ [.missed target all]) next ∧
        ∀ event ∈ takes, ∃ chunk, event = .took chunk)) := by
  generalize hqueue : traffic.pipe.queue = queue
  induction queue generalizing traffic taken with
  | nil =>
      cases hfind : Pipe.findEnd target taken with
      | some size =>
          exact .inl ⟨[], _, _, run_singleton.mpr (.find hsearch hfind), by simp,
            (Pipe.shortestTo_take hfind).append _⟩
      | none =>
          refine .inr ⟨?_, fun hclosed => ?_⟩
          · rwa [List.flatten_nil, List.append_nil, ← Pipe.findEnd_eq_none]
          · exact ⟨[], _, _, run_singleton.mpr (.miss hsearch hfind hqueue hclosed), by simp⟩
  | cons chunk queue ih =>
      cases hfind : Pipe.findEnd target taken with
      | some size =>
          exact .inl ⟨[], _, _, run_singleton.mpr (.find hsearch hfind), by simp,
            (Pipe.shortestTo_take hfind).append _⟩
      | none =>
          let after : Traffic := { traffic with
            pipe := { traffic.pipe with queue := queue }
            receiver := .searching target (taken ++ chunk) }
          have htake : Run traffic [.took chunk] after :=
            run_singleton.mpr (.take hsearch hfind hqueue)
          have hafter : after.receiver = .searching target (taken ++ chunk) := rfl
          have hmore : ∀ takes : List Event, (∀ event ∈ takes, ∃ chunk, event = .took chunk) →
              ∀ event ∈ .took chunk :: takes, ∃ chunk, event = .took chunk := by simp
          rw [List.flatten_cons, ← List.append_assoc]
          rcases ih hafter rfl with
            ⟨takes, upTo, next, hrun, htakes, hfirst⟩ | ⟨hmissing, hends⟩
          · exact .inl ⟨.took chunk :: takes, upTo, next, htake.append hrun, hmore takes htakes,
              hfirst⟩
          · refine .inr ⟨hmissing, fun hclosed => ?_⟩
            obtain ⟨takes, all, next, hrun, htakes⟩ := hends hclosed
            exact ⟨.took chunk :: takes, all, next, htake.append hrun, hmore takes htakes⟩

/-- A search that finds the end of the pipe has found it for good. -/
theorem Step.over_of_missed (h : Step traffic (.missed target taken) next)
    (hsound : Sound traffic) : traffic.admits = false ∧ Over next := by
  cases h with
  | miss hreader _ hqueue hclosed =>
      have hdropped : traffic.admits = false := by
        cases hopen : traffic.pipe.isOpen with
        | false => exact hsound.dropped (.inl hopen)
        | true => exact (by simpa [view, hopen, hasSender] using hclosed : _ ∧ _).1
      have hpending := hsound.gathered _ _ hreader
      refine ⟨hdropped, hdropped, ?_, (view_isOpen hdropped).mp hclosed⟩
      simp [contents, Receiver.taken, Pipe.contents, hqueue, hpending]

/-- How a search ended, by the stream that was left when it began, later chunks included. -/
theorem ended_cases {later : List Event} {ending : Event} {middle final : Traffic}
    (h : Run (.start slots) (before ++ during) middle) (hnothing : handedOut during = [])
    (hsearch : middle.receiver = .searching target taken) (hstep : Step middle ending next)
    (hending : ending.endsSearch = true) (hlater : Run next later final) :
    (∃ upTo, ending = .found target upTo ∧
      ShortestTo target (remaining before (during ++ ending :: later)) upTo) ∨
    ((∃ taken, ending = .missed target taken) ∧ middle.admits = false ∧
      ¬target <:+: remaining before (during ++ ending :: later)) := by
  have hsound := h.sound
  rw [h.remaining_append hnothing, contents_searching hsearch hsound]
  have hrun : Step middle ending next := hstep
  cases hstep with
  | find hreader hfind =>
      rw [hsearch] at hreader
      cases hreader
      rw [List.append_assoc]
      exact .inl ⟨_, rfl, (Pipe.shortestTo_take hfind).append _⟩
  | miss hreader hfind hqueue =>
      rw [hsearch] at hreader
      cases hreader
      obtain ⟨hdropped, hover⟩ := hrun.over_of_missed hsound
      obtain ⟨_, hidle⟩ := hover.run (hsound.step hrun) hlater
      have hlast : accepted later = [] :=
        List.filterMap_eq_nil_iff.mpr fun event hevent => (hidle event hevent).accepted
      have haccepted : ∀ taken, accepted (.missed target taken :: later) = accepted later :=
        fun _ => rfl
      refine .inr ⟨⟨_, rfl⟩, hdropped, ?_⟩
      rw [haccepted, hlast, hqueue]
      simpa using Pipe.findEnd_eq_none.mp hfind
  | _ => cases hending

/-- The same for each end: a search finds the shortest prefix and leaves the rest, or it misses the
target after the pipe was closed. -/
theorem ended_shortest {later : List Event} {ending : Event} {middle final : Traffic}
    (h : Run (.start slots) (before ++ during) middle) (hnothing : handedOut during = [])
    (hsearch : middle.receiver = .searching target taken) (hstep : Step middle ending next)
    (hending : ending.endsSearch = true) (hlater : Run next later final) :
    (∀ upTo, ending = .found target upTo ↔
      ShortestTo target (remaining before (during ++ ending :: later)) upTo) ∧
    (∀ upTo, ending = .found target upTo →
      remaining before (during ++ ending :: later) =
        upTo ++ (handedOut later ++ final.contents)) ∧
    ((∃ taken, ending = .missed target taken) ↔ .dropped ∈ before ++ during ∧
      ¬target <:+: remaining before (during ++ ending :: later)) := by
  have hrest : remaining before (during ++ ending :: later) =
      ending.handedOut ++ (handedOut later ++ final.contents) := by
    have hwhole : Run (.start slots) (before ++ (during ++ ending :: later)) final := by
      rw [← List.append_assoc]
      exact h.append ((run_singleton.mpr hstep).append hlater)
    rw [hwhole.remaining_eq, handedOut_append, hnothing]
    simp [handedOut]
  rcases ended_cases h hnothing hsearch hstep hending hlater with
    ⟨upTo, rfl, hfirst⟩ | ⟨⟨taken, rfl⟩, hdropped, hmissing⟩
  · refine ⟨fun other => ⟨?_, fun hother => by rw [hother.unique hfirst]⟩, ?_, ?_⟩
    · rintro ⟨⟩
      exact hfirst
    · rintro _ ⟨⟩
      exact hrest
    · refine ⟨?_, fun hmissing => absurd hfirst.occurs hmissing.2⟩
      rintro ⟨_, ⟨⟩⟩
  · refine ⟨fun other => ⟨?_, fun hother => absurd hother.occurs hmissing⟩, ?_, ?_⟩
    · rintro ⟨⟩
    · rintro _ ⟨⟩
    · exact ⟨fun _ => ⟨h.admits.mp hdropped, hmissing⟩, fun _ => ⟨taken, rfl⟩⟩

/-- Whatever was written, cut into chunks and read before: a reader that looks for a target gets the
shortest prefix of the stream left to it that ends with the target and leaves the rest, and
it fails exactly if the pipe is closed and the target does not occur.  That is so where the
request is served at once.  Where threads make their steps in between, a search has the
steps it needs to get to that end, and whatever is still accepted meanwhile and later, it
comes to no other end. -/
theorem search_shortest (h : Run (.start slots) before traffic) (target : Bytes) :
    (traffic.receiver = .free →
      (∀ upTo, (∃ after, traffic.view.readUntil target = (some (.ok upTo), after)) ↔
        ShortestTo target (remaining before []) upTo) ∧
      (∀ upTo after, traffic.view.readUntil target = (some (.ok upTo), after) →
        remaining before [] = upTo ++ after.contents) ∧
      ((∃ after, traffic.view.readUntil target =
          (some (.error (.unmatched (Text.decodeLossy target))), after)) ↔
        traffic.view.isOpen = false ∧ ¬target <:+: remaining before [])) ∧
    ∀ during middle, Run traffic (.sought target :: during) middle →
      (∀ event ∈ during, event.endsSearch = false) →
      (∀ upTo, ShortestTo target (remaining before (.sought target :: during)) upTo →
        ∃ takes next, Run middle (takes ++ [.found target upTo]) next ∧
          ∀ event ∈ takes, ∃ chunk, event = .took chunk) ∧
      (middle.view.isOpen = false → ¬target <:+: remaining before (.sought target :: during) →
        ∃ takes taken next, Run middle (takes ++ [.missed target taken]) next ∧
          ∀ event ∈ takes, ∃ chunk, event = .took chunk) ∧
      ∀ ending next later final, Step middle ending next → ending.endsSearch = true →
        Run next later final →
        (∀ upTo, ending = .found target upTo ↔
          ShortestTo target (remaining before (.sought target :: during ++ ending :: later)) upTo) ∧
        (∀ upTo, ending = .found target upTo →
          remaining before (.sought target :: during ++ ending :: later) =
            upTo ++ (handedOut later ++ final.contents)) ∧
        ((∃ taken, ending = .missed target taken) ↔ .dropped ∈ before ++ during ∧
          ¬target <:+: remaining before (.sought target :: during ++ ending :: later)) := by
  constructor
  · intro hfree
    have hleft : remaining before [] = traffic.view.contents := by
      have hrun : Run (.start slots) (before ++ []) traffic := by rwa [List.append_nil]
      rw [hrun.remaining_eq, contents, hfree, contents_view]
      rfl
    rw [hleft]
    exact traffic.view.readUntil_shortest target
  · intro during middle hmiddle hgoes
    obtain ⟨_, hsought, hduring⟩ := hmiddle.uncons
    cases hsought with
    | seek _ hfree =>
    obtain ⟨⟨more, hsearch⟩, hquiet⟩ := hduring.searching rfl hgoes
    have hnothing : handedOut (.sought target :: during) = [] := hquiet
    have hall := h.append hmiddle
    have hleft : remaining before (.sought target :: during) =
        traffic.pipe.pending ++ more ++ middle.pipe.queue.flatten := by
      rw [hall.remaining_eq, hnothing, contents_searching hsearch hall.sound]
      rfl
    rw [hleft]
    refine ⟨fun upTo hfirst => ?_, fun hclosed hmissing => ?_, ?_⟩
    · rcases exists_ending hsearch with ⟨takes, other, next, hrun, htakes, hother⟩ | ⟨hmissing, _⟩
      · rw [hfirst.unique hother]
        exact ⟨takes, next, hrun, htakes⟩
      · exact absurd hfirst.occurs hmissing
    · rcases exists_ending hsearch with ⟨_, _, _, _, _, hfirst⟩ | ⟨_, hends⟩
      · exact absurd hfirst.occurs hmissing
      · exact hends hclosed
    · intro ending next later final hstep hending hlater
      have hsame : .dropped ∈ before ++ during ↔ .dropped ∈ before ++ .sought target :: during := by
        simp
      rw [hsame]
      exact ended_shortest hall hnothing hsearch hstep hending hlater

/-- `foo` and a newline, in two portions, is found across them, also when the second is written
only during the search; what comes behind it stays. -/
theorem found_across_portions :
    (∃ pipe traffic, Run (.start 8) [.admitted [102, 111], .wrote [102, 111] (.ok 2),
        .admitted [111, 10, 36], .wrote [111, 10, 36] (.ok 3)] traffic ∧
      traffic.view.readUntil [102, 111, 111, 10] = (some (.ok [102, 111, 111, 10]), pipe) ∧
      pipe.contents = [36]) ∧
    ∃ taken, taken = [102, 111, 111, 10] ∧
      Run (.start 8) [.admitted [102, 111], .wrote [102, 111] (.ok 2),
        .sought [102, 111, 111, 10], .took [102, 111], .admitted [111, 10, 36],
        .wrote [111, 10, 36] (.ok 3), .took [111, 10, 36],
        .found [102, 111, 111, 10] taken] (calm ⟨8, [], [36], true⟩) := by
  have hfirst : Run (.start 8) [.admitted [102, 111], .wrote [102, 111] (.ok 2)]
      (calm ⟨8, [[102, 111]], [], true⟩) :=
    Run.start |>.step (.allow [102, 111] rfl)
      |>.step (.write [102, 111] (by decide) (by decide) rfl)
  constructor
  · have hwritten : Run (.start 8) _ _ := hfirst |>.step (.allow [111, 10, 36] rfl)
      |>.step (.write [111, 10, 36] (by decide) (by decide) rfl)
    obtain ⟨hserved, _⟩ := search_shortest hwritten [102, 111, 111, 10]
    obtain ⟨hfound, hrest, _⟩ := hserved rfl
    obtain ⟨after, hread⟩ := (hfound [102, 111, 111, 10]).mpr (.of_isPrefix (by decide))
    have hleft : [102, 111, 111, 10] ++ [36] = [102, 111, 111, 10] ++ after.contents :=
      hrest _ _ hread
    exact ⟨after, _, hwritten, hread, (List.append_cancel_left hleft).symm⟩
  · have htaking : Run (calm ⟨8, [[102, 111]], [], true⟩) _ _ :=
      Run.start |>.step (.seek [102, 111, 111, 10] rfl)
        |>.step (.take rfl (by decide) rfl) |>.step (.allow [111, 10, 36] rfl)
        |>.step (.write [111, 10, 36] (by decide) (by decide) rfl)
        |>.step (.take rfl (by decide) rfl)
    have hmiddle : Run _ _ ⟨⟨8, [], [], true⟩, true, [],
        .searching [102, 111, 111, 10] [102, 111, 111, 10, 36], 0⟩ := htaking
    obtain ⟨_, hsearched⟩ := search_shortest hfirst [102, 111, 111, 10]
    obtain ⟨_, _, hends⟩ := hsearched _ _ hmiddle (by simp [Event.endsSearch])
    obtain ⟨hfound, _⟩ := hends _ _ _ _ (.find rfl rfl) rfl .start
    have htaken := (hfound [102, 111, 111, 10]).mpr (.of_isPrefix (by decide))
    exact ⟨_, by injection htaken, (hfirst.append hmiddle).step (.find rfl rfl)⟩

end Traffic

end Conch
