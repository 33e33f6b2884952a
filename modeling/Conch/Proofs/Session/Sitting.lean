import Conch.Proofs.Effect.Answers
import Conch.Proofs.Session.Input

/-!
# Transcripts

A session whose input comes in chunks does the same as one that is given the lines of the
bytes one after the other: it parses the same texts, runs the same programs and says the
same (`transcript_of_bytes`).
-/

namespace Conch.Session

open Text (Bytes)

/-! ## Entries -/

/-- What stands in the transcript of a session. -/
inductive Entry where
  /-- The session took up a line and parsed the source with it. -/
  | took (line source : String)
  | did (event : Event)

namespace Entry

def line? : Entry → Option String
  | took line _ => some line
  | did _ => none

def event? : Entry → Option Event
  | took .. => none
  | did event => some event

/-- It is not about the chunks that were heard. -/
def isDeed : Entry → Bool
  | did (.heard _) => false
  | _ => true

end Entry

/-- The lines that were taken up. -/
def taken (entries : List Entry) : List String := entries.filterMap Entry.line?

def eventsOf (entries : List Entry) : List Event := entries.filterMap Entry.event?

/-- Everything but what was heard. -/
def deeds (entries : List Entry) : List Entry := entries.filter Entry.isDeed

/-- A prompt and the chunks that were heard after it. -/
def prompted (session : Session) (size : Nat) (chunks : List Bytes) : List Entry :=
  .did (.said session.prompt (.ok size)) :: chunks.map (fun chunk => .did (.heard chunk))

/-- A line and what was done with it. -/
def handled (session : Session) (line : String) (events : List Event) : List Entry :=
  .took line (session.source ++ line) :: events.map .did

/-- The report of a program that the input breaks off. -/
def unfinished (reply : Except PipeError Nat) : Event :=
  .said (diagnostic "syntax error: unexpected end of file") reply

/-- What a session does after a round that ended in some way, if the next line or the end of its
input, with the chunks that are heard before, follows from the state of the input. -/
inductive Sitting {σ : Type} (executor : Executor)
    (Next : σ → Option String → List Bytes → σ → Prop) :
    σ → Except Interruption Bool × Session → List Entry → Except Interruption Unit × Session →
      Prop where
  | left {s : σ} {session : Session} : Sitting executor Next s (.ok false, session) [] (.ok (), session)
  | interrupted {s : σ} {session : Session} {interruption : Interruption} :
      Sitting executor Next s (.error interruption, session) [] (.error interruption, session)
  | unprompted {s : σ} {session : Session} (e : PipeError) :
      Sitting executor Next s (.ok true, session) [.did (.said session.prompt (.error e))]
        (.error (.stream (.pipe e)), session)
  | closed {s s' : σ} {session : Session} {size : Nat} {chunks : List Bytes}
      (hnext : Next s none chunks s') (hsource : session.source = "") :
      Sitting executor Next s (.ok true, session) (prompted session size chunks) (.ok (), session)
  | brokenOff {s s' : σ} {session : Session} {size : Nat} {chunks : List Bytes}
      (hnext : Next s none chunks s') (hsource : session.source ≠ "")
      (reply : Except PipeError Nat) :
      Sitting executor Next s (.ok true, session)
        (prompted session size chunks ++ [.did (unfinished reply)])
        (sent reply, session)
  | took {s s' : σ} {session : Session} {size : Nat} {chunks : List Bytes} {line : String}
      {events : List Event} {y : Except Interruption Bool × Session} {entries : List Entry}
      {x : Except Interruption Unit × Session} (hnext : Next s (some line) chunks s')
      (htakes : Takes executor session line events y)
      (hrest : Sitting executor Next s' y entries x) :
      Sitting executor Next s (.ok true, session)
        (prompted session size chunks ++ handled session line events ++ entries) x

/-! ## Where the lines come from -/

/-- The input of a session: what was heard and not taken up, and what can still be heard. -/
structure Intake where
  pending : Bytes
  inlet : Inlet

def Intake.bytes (intake : Intake) : Bytes := intake.pending ++ intake.inlet.rest

/-- The next line is heard in some chunks. -/
structure Hearing (intake : Intake) (line : Option String) (chunks : List Bytes) (after : Intake) :
    Prop where
  hears : Hears intake.pending chunks (line, after.pending)
  gives : intake.inlet.Gives chunks after.inlet

/-- The next line is the first of some lines. -/
inductive Reciting : List String → Option String → List Bytes → List String → Prop where
  | line {line : String} {lines : List String} : Reciting (line :: lines) (some line) [] lines
  | atEnd : Reciting [] none [] []

/-- The input still has these lines. -/
def Intake.Has (intake : Intake) (lines : List String) : Prop :=
  intake.inlet.Loaded ∧ linesOf intake.bytes = lines

/-! ## Transcripts -/

section

variable {σ τ : Type} {executor : Executor} {session : Session} {size : Nat} {chunks : List Bytes}
  {line : String} {events : List Event} {first rest entries : List Entry}
  {y : Except Interruption Bool × Session} {x : Except Interruption Unit × Session}

theorem taken_append : taken (first ++ rest) = taken first ++ taken rest := List.filterMap_append

theorem eventsOf_append : eventsOf (first ++ rest) = eventsOf first ++ eventsOf rest :=
  List.filterMap_append

theorem deeds_append : deeds (first ++ rest) = deeds first ++ deeds rest := List.filter_append ..

theorem eventsOf_did (events : List Event) : eventsOf (events.map .did) = events := by
  induction events with
  | nil => rfl
  | cons event events ih => exact congrArg _ ih

theorem taken_did (events : List Event) : taken (events.map .did) = [] := by
  induction events with
  | nil => rfl
  | cons event events ih => exact ih

theorem prompted_eq : prompted session size chunks =
    (.said session.prompt (.ok size) :: chunks.map .heard : List Event).map .did := by
  simp [prompted]

theorem eventsOf_prompted : eventsOf (prompted session size chunks) =
    .said session.prompt (.ok size) :: chunks.map .heard := by
  rw [prompted_eq, eventsOf_did]

theorem taken_prompted : taken (prompted session size chunks) = [] := by
  rw [prompted_eq, taken_did]

theorem deeds_prompted : deeds (prompted session size chunks) = prompted session size [] := by
  rw [deeds, prompted, List.filter_cons_of_pos rfl, List.filter_eq_nil_iff.mpr ?_]
  · rfl
  · simp [Entry.isDeed]

theorem eventsOf_handled : eventsOf (handled session line events) = events := eventsOf_did events

theorem taken_handled : taken (handled session line events) = [line] :=
  congrArg (line :: ·) (taken_did events)

/-- A session that gets its lines elsewhere does the same, apart from what it hears. -/
theorem Sitting.transfer {Next : σ → Option String → List Bytes → σ → Prop}
    {Next' : τ → Option String → List Bytes → τ → Prop} {R : σ → τ → Prop} {s : σ} {t : τ}
    (h : Sitting executor Next s y entries x) (hR : R s t)
    (hnext : ∀ {s s' : σ} {t : τ} {line : Option String} {chunks : List Bytes}, R s t →
      Next s line chunks s' → ∃ chunks' t', Next' t line chunks' t' ∧ R s' t') :
    ∃ entries', Sitting executor Next' t y entries' x ∧ deeds entries' = deeds entries := by
  induction h generalizing t with
  | left => exact ⟨[], .left, rfl⟩
  | interrupted => exact ⟨[], .interrupted, rfl⟩
  | unprompted e => exact ⟨_, .unprompted e, rfl⟩
  | @closed s s' session size chunks h hsource =>
      obtain ⟨chunks', t', h', _⟩ := hnext hR h
      exact ⟨prompted session size chunks', .closed h' hsource,
        by rw [deeds_prompted, deeds_prompted]⟩
  | @brokenOff s s' session size chunks h hsource reply =>
      obtain ⟨chunks', t', h', _⟩ := hnext hR h
      refine ⟨prompted session size chunks' ++ _, .brokenOff h' hsource reply, ?_⟩
      rw [deeds_append, deeds_append, deeds_prompted, deeds_prompted]
  | @took s s' session size chunks line events _ entries _ h htakes _ ih =>
      obtain ⟨chunks', t', h', hR'⟩ := hnext hR h
      obtain ⟨later, hlater, hdeeds⟩ := ih hR'
      refine ⟨prompted session size chunks' ++ handled session line events ++ later,
        .took h' htakes hlater, ?_⟩
      simp only [deeds_append, deeds_prompted, hdeeds]

theorem Hearing.something {intake after : Intake} (h : Hearing intake (some line) chunks after)
    (hloaded : intake.inlet.Loaded) :
    after.inlet.Loaded ∧ linesOf intake.bytes = line :: linesOf after.bytes :=
  ⟨(h.gives.conserves hloaded).1, (h.hears.linesOf h.gives hloaded).1⟩

theorem Hearing.nothing {intake after : Intake} (h : Hearing intake none chunks after)
    (hloaded : intake.inlet.Loaded) :
    after.inlet.Loaded ∧ linesOf intake.bytes = [] ∧ linesOf after.bytes = [] := by
  obtain ⟨hlines, hend⟩ := h.hears.linesOf h.gives hloaded
  have hafter : after.bytes = [] := hend rfl
  have hnone : linesOf after.bytes = [] := congrArg linesOf hafter
  exact ⟨(h.gives.conserves hloaded).1, hlines.trans hnone, hnone⟩

theorem Hearing.atEnd {intake after : Intake} {heard : Option String}
    (h : Hearing intake heard chunks after) (hloaded : intake.inlet.Loaded) (hend : [] ∈ chunks) :
    after.bytes = [] := by
  have hpending : after.pending = [] := h.hears.atEnd hend
  rw [Intake.bytes, hpending, (h.gives.conserves hloaded).2.2 hend]
  rfl

theorem Intake.Has.recites {intake after : Intake} {lines : List String} {heard : Option String}
    (h : intake.Has lines) (hhears : Hearing intake heard chunks after) :
    ∃ chunks' lines', Reciting lines heard chunks' lines' ∧ after.Has lines' := by
  obtain ⟨hloaded, rfl⟩ := h
  cases heard with
  | some line =>
      obtain ⟨hafter, hlines⟩ := hhears.something hloaded
      rw [hlines]
      exact ⟨[], _, .line, hafter, rfl⟩
  | none =>
      obtain ⟨hafter, hlines, hnone⟩ := hhears.nothing hloaded
      rw [hlines]
      exact ⟨[], _, .atEnd, hafter, hnone⟩

theorem Intake.Has.hears {intake : Intake} {lines lines' : List String} {recited : Option String}
    (h : intake.Has lines) (hrecites : Reciting lines recited chunks lines') :
    ∃ chunks' after, Hearing intake recited chunks' after ∧ after.Has lines' := by
  obtain ⟨hloaded, rfl⟩ := h
  obtain ⟨now, ⟨heard, pending⟩, last, hhears, hgives⟩ := hloaded.hears intake.pending
  have hhearing : Hearing intake heard now ⟨pending, last⟩ := ⟨hhears, hgives⟩
  cases heard with
  | some line =>
      obtain ⟨hlast, hlines⟩ := hhearing.something hloaded
      rw [hlines] at hrecites
      cases hrecites
      exact ⟨now, _, hhearing, hlast, rfl⟩
  | none =>
      obtain ⟨hlast, hlines, hnone⟩ := hhearing.nothing hloaded
      rw [hlines] at hrecites
      cases hrecites
      exact ⟨now, _, hhearing, hlast, hnone⟩

/-- What was done with a line holds nothing that was heard. -/
theorem Takes.heard (h : Takes executor session line events y) : heard events = [] := by
  cases h with
  | continued => rfl
  | refused => rfl
  | completed _ hrun =>
      cases hrun with
      | crashed => rfl
      | ended _ _ _ hverdict => cases hverdict <;> rfl

theorem heard_prompt (text : String) (reply : Except PipeError Nat) (chunks : List Bytes) :
    heard (.said text reply :: chunks.map .heard) = chunks := by
  induction chunks with
  | nil => rfl
  | cons chunk chunks ih => exact congrArg (chunk :: ·) ih

/-- The lines are taken up in order, and all of them if the end of the input was heard. -/
theorem Sitting.lines {intake : Intake} (h : Sitting executor Hearing intake y entries x)
    (hloaded : intake.inlet.Loaded) :
    taken entries <+: linesOf intake.bytes ∧
      ([] ∈ heard (eventsOf entries) → taken entries = linesOf intake.bytes) := by
  induction h with
  | left => exact ⟨List.nil_prefix, by simp [eventsOf, Session.heard]⟩
  | interrupted => exact ⟨List.nil_prefix, by simp [eventsOf, Session.heard]⟩
  | unprompted => exact ⟨List.nil_prefix, by simp [eventsOf, Session.heard, Entry.event?, Event.chunk?]⟩
  | closed hnext =>
      obtain ⟨_, hlines, _⟩ := hnext.nothing hloaded
      rw [taken_prompted, hlines]
      exact ⟨List.nil_prefix, fun _ => rfl⟩
  | brokenOff hnext =>
      obtain ⟨_, hlines, _⟩ := hnext.nothing hloaded
      rw [taken_append, taken_prompted, hlines]
      exact ⟨List.nil_prefix, fun _ => rfl⟩
  | took hnext htakes _ ih =>
      obtain ⟨hafter, hlines⟩ := hnext.something hloaded
      obtain ⟨hbegin, hall⟩ := ih hafter
      rw [taken_append, taken_append, taken_prompted, taken_handled, hlines]
      refine ⟨List.prefix_cons_inj _ |>.mpr hbegin, fun hend => congrArg _ ?_⟩
      rw [eventsOf_append, eventsOf_append, eventsOf_prompted, eventsOf_handled, heard_append,
        heard_append, heard_prompt, htakes.heard, List.append_nil] at hend
      rcases List.mem_append.mp hend with hend | hend
      · rw [hnext.atEnd hloaded hend] at hbegin ⊢
        exact List.prefix_nil.mp hbegin
      · exact hall hend

/-! ## Sittings are conversations -/

/-- What was heard and not taken up plays no part in what is done with a line. -/
theorem Performs.withPending {program : Syntax.Program} (h : Performs executor program session events y)
    (pending : Bytes) : Performs executor program { session with pending := pending } events
      (y.1, { y.2 with pending := pending }) := by
  cases h with
  | crashed hrun => exact .crashed hrun
  | ended hrun hcrash htidy hverdict => exact .ended hrun hcrash htidy hverdict

theorem Takes.withPending (h : Takes executor session line events y) (pending : Bytes) :
    Takes executor { session with pending := pending } line events
      (y.1, { y.2 with pending := pending }) := by
  have hsource : ({ session with pending := pending } : Session).source = session.source := rfl
  cases h with
  | continued hattempt => exact .continued (hsource ▸ hattempt)
  | refused hattempt reply => exact .refused (hsource ▸ hattempt) reply
  | completed hattempt hrun => exact .completed (hsource ▸ hattempt) (hrun.withPending pending)

theorem Takes.pending (h : Takes executor session line events y) :
    y.2.pending = session.pending := by
  cases h with
  | continued => rfl
  | refused => rfl
  | completed _ hrun => cases hrun <;> rfl

theorem Sitting.of_left {Next : σ → Option String → List Bytes → σ → Prop} {s : σ}
    (h : Sitting executor Next s (.ok false, session) entries x) :
    entries = [] ∧ x = (.ok (), session) := by
  cases h
  exact ⟨rfl, rfl⟩

theorem Sitting.of_interrupted {Next : σ → Option String → List Bytes → σ → Prop} {s : σ}
    {interruption : Interruption}
    (h : Sitting executor Next s (.error interruption, session) entries x) :
    entries = [] ∧ x = (.error interruption, session) := by
  cases h
  exact ⟨rfl, rfl⟩

/-- A sitting that hears its lines is a conversation. -/
theorem Sitting.conversation {intake : Intake}
    (h : Sitting executor Hearing intake (.ok true, session) entries x) :
    ∃ pending, Conversation executor { session with pending := intake.pending } (eventsOf entries)
      (x.1, { x.2 with pending := pending }) := by
  suffices hall : ∀ y, Sitting executor Hearing intake y entries x → ∀ session : Session,
      y = (.ok true, session) → ∃ pending, Conversation executor
        { session with pending := intake.pending } (eventsOf entries)
        (x.1, { x.2 with pending := pending }) from hall _ h session rfl
  clear h
  intro y h
  induction h with
  | left =>
      intro _ hy
      cases hy
  | interrupted =>
      intro _ hy
      cases hy
  | unprompted e =>
      intro _ hy
      cases hy
      exact ⟨_, .interrupted (.unprompted e)⟩
  | @closed intake _ current size chunks hnext hsource =>
      intro _ hy
      cases hy
      have hround := @Round.closed executor { current with pending := intake.pending } size chunks _
        hnext.hears hsource
      rw [eventsOf_prompted]
      exact ⟨_, .ended hround⟩
  | @brokenOff intake _ current size chunks hnext hsource reply =>
      intro _ hy
      cases hy
      have hround := @Round.brokenOff executor { current with pending := intake.pending } size
        chunks _ hnext.hears hsource reply
      rw [eventsOf_append, eventsOf_prompted]
      cases reply with
      | ok sent => exact ⟨_, .ended hround⟩
      | error e => exact ⟨_, .interrupted hround⟩
  | @took intake after current size chunks line events next entries x hnext htakes hrest ih =>
      intro _ hy
      cases hy
      have hround := @Round.took executor { current with pending := intake.pending } size chunks _
        line events _ hnext.hears (htakes.withPending after.pending)
      rw [eventsOf_append, eventsOf_append, eventsOf_prompted, eventsOf_handled]
      obtain ⟨interruption | _ | _, next⟩ := next
      · obtain ⟨rfl, rfl⟩ := hrest.of_interrupted
        rw [eventsOf, List.filterMap_nil, List.append_nil]
        exact ⟨_, .interrupted hround⟩
      · obtain ⟨rfl, rfl⟩ := hrest.of_left
        rw [eventsOf, List.filterMap_nil, List.append_nil]
        exact ⟨_, .ended hround⟩
      · obtain ⟨pending, hlater⟩ := ih next rfl
        exact ⟨pending, .wentOn hround hlater⟩

theorem Round.sitting {inlet middle : Inlet} (h : Round executor session events y)
    (hgives : inlet.Gives (heard events) middle) (pending : Bytes) :
    ∃ noted, eventsOf noted = events ∧ ∀ entries x,
      Sitting executor Hearing ⟨y.2.pending, middle⟩ (y.1, { y.2 with pending := pending }) entries x →
        Sitting executor Hearing ⟨session.pending, inlet⟩
          (.ok true, { session with pending := pending }) (noted ++ entries) x := by
  cases h with
  | unprompted e =>
      refine ⟨[.did (.said session.prompt (.error e))], rfl, fun entries x hrest => ?_⟩
      obtain ⟨rfl, rfl⟩ := hrest.of_interrupted
      exact .unprompted e
  | @closed size chunks left hhears hsource =>
      rw [heard_prompt] at hgives
      have hnext : Hearing ⟨session.pending, inlet⟩ none chunks ⟨left, middle⟩ := ⟨hhears, hgives⟩
      refine ⟨prompted session size chunks, eventsOf_prompted, fun entries x hrest => ?_⟩
      obtain ⟨rfl, rfl⟩ := hrest.of_left
      rw [List.append_nil]
      exact .closed hnext hsource
  | @brokenOff size chunks left hhears hsource reply =>
      rw [heard_append, heard_prompt, heard, List.filterMap_cons_none rfl, List.filterMap_nil,
        List.append_nil] at hgives
      have hnext : Hearing ⟨session.pending, inlet⟩ none chunks ⟨left, middle⟩ := ⟨hhears, hgives⟩
      have hsame : ({ session with pending := pending } : Session).source ≠ "" := hsource
      refine ⟨prompted session size chunks ++ [.did (unfinished reply)], ?_, fun entries x hrest => ?_⟩
      · rw [eventsOf_append, eventsOf_prompted]
        rfl
      · cases reply with
        | ok sent =>
            obtain ⟨rfl, rfl⟩ := hrest.of_left
            rw [List.append_nil]
            exact .brokenOff hnext hsame (.ok sent)
        | error e =>
            obtain ⟨rfl, rfl⟩ := hrest.of_interrupted
            rw [List.append_nil]
            exact .brokenOff hnext hsame (.error e)
  | @took size chunks left line events _ hhears htakes =>
      rw [heard_append, heard_prompt, htakes.heard, List.append_nil] at hgives
      refine ⟨prompted session size chunks ++ handled session line events, ?_,
        fun entries x hrest => ?_⟩
      · rw [eventsOf_append, eventsOf_prompted, eventsOf_handled]
      · rw [htakes.pending] at hrest
        exact .took ⟨hhears, hgives⟩ (htakes.withPending pending) hrest

/-- A conversation that hears what an inlet gives is a sitting. -/
theorem Conversation.sitting {inlet last : Inlet} (h : Conversation executor session events x)
    (hgives : inlet.Gives (heard events) last) (pending : Bytes) :
    ∃ entries, eventsOf entries = events ∧
      Sitting executor Hearing ⟨session.pending, inlet⟩ (.ok true, { session with pending := pending })
        entries (x.1, { x.2 with pending := pending }) := by
  induction h generalizing inlet with
  | wentOn hround _ ih =>
      rw [heard_append] at hgives
      obtain ⟨middle, hfirst, hlater⟩ := hgives.split
      obtain ⟨noted, rfl, hsitting⟩ := hround.sitting hfirst pending
      obtain ⟨entries, rfl, hrest⟩ := ih hlater
      exact ⟨noted ++ entries, eventsOf_append, hsitting _ _ hrest⟩
  | ended hround =>
      obtain ⟨noted, rfl, hsitting⟩ := hround.sitting hgives pending
      exact ⟨noted ++ [], by rw [List.append_nil], hsitting _ _ .left⟩
  | interrupted hround =>
      obtain ⟨noted, rfl, hsitting⟩ := hround.sitting hgives pending
      exact ⟨noted ++ [], by rw [List.append_nil], hsitting _ _ .interrupted⟩

end

end Conch.Session
