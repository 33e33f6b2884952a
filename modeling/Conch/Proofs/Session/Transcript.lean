import Conch.Proofs.Effect.Answers
import Conch.Proofs.Session.Sitting

/-!
# Transcripts

A session that gets its lines one after the other does the same each time, if its
surroundings are deterministic.  What it does therefore depends only on the bytes that are
sent to it, and not on the chunks that they come in (`transcript_of_bytes`).
-/

namespace Conch.Session

open Text (Bytes)

section

variable {surroundings : Surroundings} {executor : Executor} {pipes : SessionPipes}
  {before : List Exchange} {events events' : List Event} {session : Session} {line : String}

/-! ## The same each time -/

theorem gives_cons {event : Event} : surroundings.Gives before (exchanges pipes (event :: events)) ↔
    surroundings.Gives before (event.exchanges pipes) ∧
      surroundings.Gives (before ++ event.exchanges pipes) (exchanges pipes events) :=
  Surroundings.gives_append

theorem Concludes.unique {result : Except Interruption Unit} {x x' : Except Interruption Bool}
    (h : Concludes result events x) (h' : Concludes result events' x')
    (hgives : surroundings.Gives before (exchanges pipes events))
    (hgives' : surroundings.Gives before (exchanges pipes events')) : events = events' ∧ x = x' := by
  cases h with
  | finished =>
      cases h'
      exact ⟨rfl, rfl⟩
  | left =>
      cases h' with
      | left => exact ⟨rfl, rfl⟩
      | failed hleft => exact absurd rfl (hleft _)
  | limited reached reply =>
      cases h' with
      | limited _ reply' =>
          obtain rfl : reply = reply' := hgives.1.trans hgives'.1.symm
          exact ⟨rfl, rfl⟩
      | failed _ hlimit => exact absurd rfl (hlimit _)
  | failed hleft hlimit =>
      cases h' with
      | left => exact absurd rfl (hleft _)
      | limited => exact absurd rfl (hlimit _)
      | failed => exact ⟨rfl, rfl⟩

theorem Performs.unique {program : Syntax.Program} {x x' : Except Interruption Bool × Session}
    (h : Performs executor program session events x)
    (h' : Performs executor program session events' x')
    (hgives : surroundings.Gives before (exchanges pipes events))
    (hgives' : surroundings.Gives before (exchanges pipes events')) : events = events' ∧ x = x' := by
  cases h with
  | crashed hrun =>
      have hlog := (gives_cons.mp hgives).1
      cases h' with
      | crashed hrun' =>
          obtain ⟨rfl, hx⟩ := hrun.unique hrun' hlog (gives_cons.mp hgives').1
          cases hx
          exact ⟨rfl, rfl⟩
      | ended hrun' hcrash =>
          obtain ⟨_, hx⟩ := hrun.unique hrun' hlog (gives_cons.mp hgives').1
          cases hx
          exact absurd rfl hcrash
  | ended hrun hcrash htidy hverdict =>
      obtain ⟨hlog, hrest⟩ := gives_cons.mp hgives
      cases h' with
      | crashed hrun' =>
          obtain ⟨_, hx⟩ := hrun.unique hrun' hlog (gives_cons.mp hgives').1
          cases hx
          exact absurd rfl hcrash
      | ended hrun' _ htidy' hverdict' =>
          obtain ⟨hlog', hrest'⟩ := gives_cons.mp hgives'
          obtain ⟨rfl, hx⟩ := hrun.unique hrun' hlog hlog'
          cases hx
          obtain ⟨htidied, hend⟩ := gives_cons.mp hrest
          obtain ⟨htidied', hend'⟩ := gives_cons.mp hrest'
          obtain ⟨rfl, hx⟩ := htidy.unique htidy' htidied htidied'
          cases hx
          obtain ⟨rfl, rfl⟩ := hverdict.unique hverdict' hend hend'
          exact ⟨rfl, rfl⟩

theorem Takes.unique {x x' : Except Interruption Bool × Session}
    (h : Takes executor session line events x) (h' : Takes executor session line events' x')
    (hgives : surroundings.Gives before (exchanges pipes events))
    (hgives' : surroundings.Gives before (exchanges pipes events')) : events = events' ∧ x = x' := by
  cases h with
  | continued hattempt =>
      cases h' with
      | continued => exact ⟨rfl, rfl⟩
      | refused hattempt' => cases hattempt.symm.trans hattempt'
      | completed hattempt' => cases hattempt.symm.trans hattempt'
  | refused hattempt reply =>
      cases h' with
      | continued hattempt' => cases hattempt.symm.trans hattempt'
      | refused hattempt' reply' =>
          cases hattempt.symm.trans hattempt'
          obtain rfl : reply = reply' := hgives.1.trans hgives'.1.symm
          exact ⟨rfl, rfl⟩
      | completed hattempt' => cases hattempt.symm.trans hattempt'
  | completed hattempt hrun =>
      cases h' with
      | continued hattempt' => cases hattempt.symm.trans hattempt'
      | refused hattempt' => cases hattempt.symm.trans hattempt'
      | completed hattempt' hrun' =>
          cases hattempt.symm.trans hattempt'
          exact hrun.unique hrun' hgives hgives'

/-- What follows a prompt that was said, if the lines are given. -/
inductive Recital (executor : Executor) :
    List String → Session → List Entry → Except Interruption Unit × Session → Prop where
  | closed {session : Session} (hsource : session.source = "") :
      Recital executor [] session [] (.ok (), session)
  | brokenOff {session : Session} (hsource : session.source ≠ "") (reply : Except PipeError Nat) :
      Recital executor [] session [.did (unfinished reply)] (sent reply, session)
  | took {session : Session} {line : String} {lines : List String} {events : List Event}
      {y : Except Interruption Bool × Session} {entries : List Entry}
      {x : Except Interruption Unit × Session} (htakes : Takes executor session line events y)
      (hrest : Sitting executor Reciting lines y entries x) :
      Recital executor (line :: lines) session (handled session line events ++ entries) x

variable {lines : List String} {y : Except Interruption Bool × Session}
  {entries entries' : List Entry} {x x' : Except Interruption Unit × Session}

/-- A session that goes on says its prompt, and then it is given a line, or it fails. -/
theorem Sitting.of_going (h : Sitting executor Reciting lines (.ok true, session) entries x) :
    ∃ reply rest, entries = .did (.said session.prompt reply) :: rest ∧
      ((∃ e, reply = .error e ∧ rest = [] ∧ x = (.error (.stream (.pipe e)), session)) ∨
        ∃ size, reply = .ok size ∧ Recital executor lines session rest x) := by
  cases h with
  | unprompted e => exact ⟨.error e, [], rfl, .inl ⟨e, rfl, rfl, rfl⟩⟩
  | closed hnext hsource =>
      cases hnext
      exact ⟨_, [], rfl, .inr ⟨_, rfl, .closed hsource⟩⟩
  | brokenOff hnext hsource reply =>
      cases hnext
      exact ⟨_, _, rfl, .inr ⟨_, rfl, .brokenOff hsource reply⟩⟩
  | took hnext htakes hrest =>
      cases hnext
      exact ⟨_, _, rfl, .inr ⟨_, rfl, .took htakes hrest⟩⟩

theorem gives_said {text : String} {reply : Except PipeError Nat} {rest : List Entry} :
    surroundings.Gives before (exchanges pipes (eventsOf (.did (.said text reply) :: rest))) ↔
      reply = surroundings.reply before (.send pipes.output (Text.encode text)) ∧
        surroundings.Gives (before ++ [.asked (.send pipes.output (Text.encode text)) reply])
          (exchanges pipes (eventsOf rest)) := Iff.rfl

theorem gives_handled {rest : List Entry} :
    surroundings.Gives before
        (exchanges pipes (eventsOf (handled session line events ++ rest))) ↔
      surroundings.Gives before (exchanges pipes events) ∧
        surroundings.Gives (before ++ exchanges pipes events) (exchanges pipes (eventsOf rest)) := by
  rw [eventsOf_append, eventsOf_handled, exchanges_append, Surroundings.gives_append]

/-- A session that is given lines does the same each time. -/
theorem Sitting.unique (h : Sitting executor Reciting lines y entries x)
    (h' : Sitting executor Reciting lines y entries' x')
    (hgives : surroundings.Gives before (exchanges pipes (eventsOf entries)))
    (hgives' : surroundings.Gives before (exchanges pipes (eventsOf entries'))) :
    entries = entries' ∧ x = x' := by
  induction h generalizing before entries' with
  | left =>
      obtain ⟨rfl, rfl⟩ := h'.of_left
      exact ⟨rfl, rfl⟩
  | interrupted =>
      obtain ⟨rfl, rfl⟩ := h'.of_interrupted
      exact ⟨rfl, rfl⟩
  | unprompted e =>
      obtain ⟨reply, rest, rfl, hcases⟩ := h'.of_going
      obtain rfl : .error e = reply := hgives.1.trans (gives_said.mp hgives').1.symm
      rcases hcases with ⟨_, hreply, rfl, rfl⟩ | ⟨_, hreply, _⟩
      · cases hreply
        exact ⟨rfl, rfl⟩
      · cases hreply
  | @closed lines after session size chunks hnext hsource =>
      cases hnext
      obtain ⟨reply, rest, rfl, hcases⟩ := h'.of_going
      obtain rfl : .ok size = reply := hgives.1.trans (gives_said.mp hgives').1.symm
      rcases hcases with ⟨_, hreply, _⟩ | ⟨_, _, hrecital⟩
      · cases hreply
      · cases hrecital with
        | closed => exact ⟨rfl, rfl⟩
        | brokenOff hopen => exact absurd hsource hopen
  | @brokenOff lines after session size chunks hnext hsource reply =>
      cases hnext
      obtain ⟨said, rest, rfl, hcases⟩ := h'.of_going
      obtain rfl : .ok size = said := hgives.1.trans (gives_said.mp hgives').1.symm
      rcases hcases with ⟨_, hreply, _⟩ | ⟨_, _, hrecital⟩
      · cases hreply
      · cases hrecital with
        | closed hempty => exact absurd hempty hsource
        | brokenOff _ reply' =>
            obtain rfl : reply = reply' := hgives.2.1.trans hgives'.2.1.symm
            exact ⟨rfl, rfl⟩
  | @took lines after session size chunks line events y entries x hnext htakes hrest ih =>
      cases hnext
      obtain ⟨said, rest, rfl, hcases⟩ := h'.of_going
      rw [List.append_assoc] at hgives
      obtain ⟨hsaid, hgives⟩ := gives_said.mp hgives
      obtain ⟨hsaid', hgives'⟩ := gives_said.mp hgives'
      obtain rfl : .ok size = said := hsaid.trans hsaid'.symm
      rcases hcases with ⟨_, hreply, _⟩ | ⟨_, _, hrecital⟩
      · cases hreply
      · cases hrecital with
        | took htakes' hrest' =>
            obtain ⟨hfirst, hlater⟩ := gives_handled.mp hgives
            obtain ⟨hfirst', hlater'⟩ := gives_handled.mp hgives'
            obtain ⟨rfl, rfl⟩ := htakes.unique htakes' hfirst hfirst'
            obtain ⟨rfl, rfl⟩ := ih hrest' hlater hlater'
            rw [List.append_assoc]
            exact ⟨rfl, rfl⟩

/-! ## Runs of a session -/

/-- The session at its start. -/
def opening (pipes : SessionPipes) (shell : Shell) : Session :=
  ⟨{ shell with streams := ⟨none, .pipe pipes.output, .pipe pipes.output⟩ }, "", []⟩

/-- Unless it crashes, a session closes its output. -/
def closing (pipes : SessionPipes) : Except Interruption Unit → List Exchange
  | .error .crash => []
  | _ => [.asked (.closePipe pipes.output) ()]

theorem runs_run {shell : Shell} {log : List Exchange} {x : Except Interruption Unit × Shell} :
    (run executor pipes shell).Runs log x ↔
      ∃ events final, log = exchanges pipes events ++ closing pipes x.1 ∧
        Conversation executor (opening pipes shell) events (x.1, final) ∧ x.2 = final.shell := by
  have hclose : ∀ (result : Except Interruption Unit) (last : Shell) (rest : List Exchange),
      (match result with
        | .error .crash => Proc.done (result, last)
        | _ => .ask (.closePipe pipes.output) fun _ => .done (result, last)).Runs rest x ↔
      rest = closing pipes result ∧ x = (result, last) := by
    intro result last rest
    have hasked : (Proc.ask (.closePipe pipes.output) fun _ => .done (result, last)).Runs rest x ↔
        rest = [.asked (.closePipe pipes.output) ()] ∧ x = (result, last) := by
      constructor
      · rintro ⟨_, _, rfl, rfl, rfl⟩
        exact ⟨rfl, rfl⟩
      · rintro ⟨rfl, rfl⟩
        exact ⟨(), [], rfl, rfl, rfl⟩
    rcases result with interruption | _
    · cases interruption with
      | crash => exact Proc.runs_done
      | _ => exact hasked
    · exact hasked
  have hrun : (run executor pipes shell).Runs log x ↔
      ((converse executor pipes (opening pipes shell)).bind fun r =>
        match r.1 with
        | .error .crash => .done r
        | _ => .ask (.closePipe pipes.output) fun _ => .done r).Runs log x := Iff.rfl
  rw [hrun, Proc.runs_bind]
  constructor
  · rintro ⟨⟨result, last⟩, first, rest, rfl, hfirst, hrest⟩
    obtain ⟨rfl, rfl⟩ := (hclose result last rest).mp hrest
    obtain ⟨events, _, final, rfl, hconversation, hx⟩ := runs_converse.mp hfirst
    cases hx
    exact ⟨events, final, rfl, hconversation, rfl⟩
  · rintro ⟨events, final, rfl, hconversation, hx⟩
    refine ⟨x, _, _, rfl, runs_converse.mpr ⟨events, x.1, final, rfl, hconversation, ?_⟩, ?_⟩
    · rw [← hx]
    · exact (hclose x.1 x.2 _).mpr ⟨rfl, rfl⟩

/-- A run of a session whose input is sent in chunks, with its transcript. -/
structure Sits (executor : Executor) (pipes : SessionPipes) (shell : Shell) (slots : Nat)
    (chunks : List Bytes) (entries : List Entry) (x : Except Interruption Unit × Shell) : Prop where
  runs : (run executor pipes shell).Runs (exchanges pipes (eventsOf entries) ++ closing pipes x.1) x
  sitting : ∃ final, x.2 = final.shell ∧ Sitting executor Hearing ⟨[], .new slots, chunks⟩
    (.ok true, opening pipes shell) entries (x.1, final)

variable {shell : Shell} {slots : Nat} {chunks : List Bytes}

theorem Sits.of_sitting {final : Session} {result : Except Interruption Unit}
    (h : Sitting executor Hearing ⟨[], .new slots, chunks⟩ (.ok true, opening pipes shell) entries
      (result, final)) :
    Sits executor pipes shell slots chunks entries (result, final.shell) := by
  obtain ⟨pending, hconversation⟩ := h.conversation
  exact ⟨runs_run.mpr ⟨_, _, rfl, hconversation, rfl⟩, final, rfl, h⟩

/-- Every run of a session has a transcript for the chunks that it hears. -/
theorem exists_sits {log : List Exchange} {x : Except Interruption Unit × Shell}
    (h : (run executor pipes shell).Runs log x) :
    ∃ events, log = exchanges pipes events ++ closing pipes x.1 ∧ ∀ slots chunks last,
      Inlet.Gives ⟨.new slots, chunks⟩ (heard events) last →
        ∃ entries, eventsOf entries = events ∧ Sits executor pipes shell slots chunks entries x := by
  obtain ⟨events, final, hlog, hconversation, hx⟩ := runs_run.mp h
  refine ⟨events, hlog, fun slots chunks last hgives => ?_⟩
  obtain ⟨entries, rfl, hsitting⟩ := hconversation.sitting hgives []
  exact ⟨entries, rfl, hlog ▸ h, { final with pending := [] }, hx, hsitting⟩

/-! ## Transcripts depend on the bytes alone -/

theorem deeds_of_heard {all : List Event} (h : heard all = []) :
    deeds (all.map .did) = all.map .did := by
  refine List.filter_eq_self.mpr fun entry hentry => ?_
  obtain ⟨event, hevent, rfl⟩ := List.mem_map.mp hentry
  cases event with
  | heard chunk =>
      have hmem : chunk ∈ heard all := List.mem_filterMap.mpr ⟨_, hevent, rfl⟩
      rw [h] at hmem
      cases hmem
  | _ => rfl

/-- A session that is given lines hears nothing. -/
theorem Sitting.deeds_eq (h : Sitting executor Reciting lines y entries x) :
    deeds entries = entries := by
  induction h with
  | left => rfl
  | interrupted => rfl
  | unprompted => rfl
  | closed hnext =>
      cases hnext
      exact deeds_prompted
  | brokenOff hnext =>
      cases hnext
      rw [deeds_append, deeds_prompted]
      rfl
  | took hnext htakes _ ih =>
      cases hnext
      have hhandled : ∀ session line, deeds (handled session line _) = _ := fun session line =>
        congrArg (Entry.took line (session.source ++ line) :: ·) (deeds_of_heard htakes.heard)
      rw [deeds_append, deeds_append, deeds_prompted, ih, hhandled]
      rfl

theorem has_lines (slots : Nat) (hchunks : ∀ chunk ∈ chunks, chunk ≠ []) :
    Intake.Has ⟨[], .new slots, chunks⟩ (linesOf chunks.flatten) :=
  ⟨.start slots hchunks, rfl⟩

variable {z : Except Interruption Unit × Shell}

/-- What a session does with chunks it does with the lines of the bytes. -/
theorem Sits.recited (h : Sits executor pipes shell slots chunks entries z)
    (hchunks : ∀ chunk ∈ chunks, chunk ≠ []) :
    ∃ final, z.2 = final.shell ∧ Sitting executor Reciting (linesOf chunks.flatten)
      (.ok true, opening pipes shell) (deeds entries) (z.1, final) := by
  obtain ⟨final, hz, hsitting⟩ := h.sitting
  obtain ⟨recited, hrecited, hdeeds⟩ := hsitting.transfer (has_lines slots hchunks) Intake.Has.recites
  rw [hrecited.deeds_eq] at hdeeds
  exact ⟨final, hz, hdeeds ▸ hrecited⟩

/-- What a session does with lines it does with every division of the bytes into chunks. -/
theorem Sits.of_recited {final : Session} {result : Except Interruption Unit} (slots : Nat)
    (hchunks : ∀ chunk ∈ chunks, chunk ≠ [])
    (h : Sitting executor Reciting (linesOf chunks.flatten) (.ok true, opening pipes shell) entries
      (result, final)) :
    ∃ entries', Sits executor pipes shell slots chunks entries' (result, final.shell) ∧
      deeds entries' = deeds entries := by
  obtain ⟨entries', hsitting, hdeeds⟩ :=
    h.transfer (R := fun lines intake => Intake.Has intake lines) (has_lines slots hchunks)
      Intake.Has.hears
  exact ⟨entries', .of_sitting hsitting, hdeeds⟩

/-- What a session parses, runs and says depends only on the bytes that are sent to it: divided
into other chunks they lead to a run with the same transcript but for what is heard and with the
same result, and in deterministic surroundings to no other.  The lines that it takes up are those
of the bytes, in order, and all of them unless it ends before its input. -/
theorem transcript_of_bytes (surroundings : Surroundings) {first second : List Bytes}
    (hfirst : ∀ chunk ∈ first, chunk ≠ []) (hsecond : ∀ chunk ∈ second, chunk ≠ [])
    (hbytes : first.flatten = second.flatten) {slots : Nat} (slots' : Nat) {entries : List Entry}
    {x : Except Interruption Unit × Shell}
    (h : Sits executor pipes shell slots first entries x)
    (hgives : surroundings.Gives [] (exchanges pipes (eventsOf (deeds entries)))) :
    (∃ entries', Sits executor pipes shell slots' second entries' x ∧
        deeds entries' = deeds entries) ∧
      (∀ entries' x', Sits executor pipes shell slots' second entries' x' →
        surroundings.Gives [] (exchanges pipes (eventsOf (deeds entries'))) →
          deeds entries' = deeds entries ∧ x' = x) ∧
      taken entries <+: linesOf first.flatten ∧
      ([] ∈ heard (eventsOf entries) → taken entries = linesOf first.flatten) := by
  obtain ⟨final, hshell, hrecited⟩ := h.recited hfirst
  refine ⟨?_, fun entries' x' h' hgives' => ?_, ?_⟩
  · rw [hbytes] at hrecited
    obtain ⟨entries', hsits, hdeeds⟩ := Sits.of_recited slots' hsecond hrecited
    refine ⟨entries', ?_, hdeeds.trans hrecited.deeds_eq⟩
    rw [← hshell] at hsits
    exact hsits
  · obtain ⟨final', hshell', hrecited'⟩ := h'.recited hsecond
    rw [hbytes] at hrecited
    obtain ⟨hdeeds, hx⟩ := hrecited'.unique hrecited hgives' hgives
    obtain ⟨hresult, rfl⟩ := Prod.mk.inj hx
    exact ⟨hdeeds, Prod.ext hresult (hshell'.trans hshell.symm)⟩
  · obtain ⟨_, _, hsitting⟩ := h.sitting
    exact hsitting.lines (.start slots hfirst)

/-- A line of one comment, which is divided within a character. -/
theorem divided_character : ∃ executor pipes shell entries x,
    Sits executor pipes shell 1 [[35, 195], [169, 10]] entries x ∧ taken entries = ["#é\n"] ∧
      ∃ entries', Sits executor pipes shell Pipe.defaultSlots [[35, 195, 169, 10]] entries' x ∧
        deeds entries' = deeds entries := by
  let executor : Executor := fun _ _ => .done (.ok 0)
  let shell : Shell := .new (.initial "/" 1) .standard
  have hencode : Text.encode "#é\n" = [35, 195, 169, 10] := by decide +kernel
  have hdecode : Text.decodeLossy [35, 195, 169, 10] = "#é\n" := by
    rw [← hencode, Text.decodeLossy_encode]
  obtain ⟨program, hparse, hempty⟩ := Syntax.exists_parse "#é\n" List.isEmpty (by decide +kernel)
  obtain rfl := List.isEmpty_iff.mp hempty
  have hattempt : Syntax.Attempt.ofText ("" ++ "#é\n") = .complete [] := by
    rw [String.empty_append, Syntax.Attempt.ofText, hparse]
    rfl
  have hrun : Acts (Action.runProgram executor []) (opening ⟨0, 1⟩ shell).shell [] (.ok (), _) :=
    ⟨rfl, rfl⟩
  have htidy : Acts Action.reset (opening ⟨0, 1⟩ shell).shell [] (.ok (), _) := ⟨rfl, rfl⟩
  have htakes : Takes executor (opening ⟨0, 1⟩ shell) "#é\n" _ (.ok true, _) :=
    .completed hattempt (.ended hrun (by simp) htidy .finished)
  have hhears : Hears [] [[35, 195], [169, 10]] (some "#é\n", []) := by
    rw [← hdecode]
    exact .more rfl (by decide) (.more rfl (by decide) (.line rfl))
  have hgives : Inlet.Gives ⟨.new 1, [[35, 195], [169, 10]]⟩ [[35, 195], [169, 10]]
      ⟨⟨1, [], [], true⟩, []⟩ := .sent rfl (.heard rfl (.sent rfl (.heard rfl .nothing)))
  have hend : Inlet.Gives ⟨⟨1, [], [], true⟩, []⟩ [[]] ⟨⟨1, [], [], false⟩, []⟩ :=
    .closed (.heard rfl .nothing)
  have hfirst : Hearing ⟨[], .new 1, [[35, 195], [169, 10]]⟩ (some "#é\n") _ ⟨[], _⟩ :=
    ⟨hhears, hgives⟩
  have hlast : Hearing ⟨[], ⟨1, [], [], true⟩, []⟩ none _ ⟨[], _⟩ := ⟨.nothing, hend⟩
  have hsitting : Sitting executor Hearing ⟨[], .new 1, [[35, 195], [169, 10]]⟩
      (.ok true, opening ⟨0, 1⟩ shell) (prompted _ 0 _ ++ handled _ _ _ ++ prompted _ 0 _)
      (.ok (), _) := .took hfirst htakes (.closed hlast rfl)
  have hsits := Sits.of_sitting hsitting
  have hbytes : ([[35, 195], [169, 10]] : List Bytes).flatten = [[35, 195, 169, 10]].flatten := rfl
  obtain ⟨hsame, _⟩ := transcript_of_bytes .quiet (by decide) (by decide) hbytes Pipe.defaultSlots
    hsits ⟨rfl, rfl, trivial⟩
  exact ⟨executor, _, shell, _, _, hsits, rfl, hsame⟩

end

end Conch.Session
