import Conch.Proofs.Appending
import Conch.Proofs.Session.Conversation
import Conch.Proofs.Text.Utf8
import Mathlib.Data.List.TakeDrop

/-!
# Programs typed into a session

A session that is fed the text of a program, line by line, runs that program: the
programs that it runs, one after the other, have the statements of the whole
(`converse_program`).
-/

namespace Conch

/-- The statement defines a function. -/
def Syntax.Node.isDefinition : Syntax.Node → Bool
  | .function .. => true
  | _ => false

namespace Session

open Text (Bytes encodeChars)
open Syntax (Attempt Program WholeLines)

/-! ## Lines -/

/-- A line ends at the first newline. -/
theorem splitLine?_eq_some {bytes line rest : Bytes} (h : splitLine? bytes = some (line, rest)) :
    ∃ body, 10 ∉ body ∧ line = body ++ [10] ∧ bytes = body ++ 10 :: rest := by
  unfold splitLine? at h
  rw [List.span_eq_takeWhile_dropWhile] at h
  cases hrest : bytes.dropWhile (· ≠ 10) with
  | nil =>
      rw [hrest] at h
      cases h
  | cons newline after =>
      rw [hrest] at h
      have hnewline := List.head?_dropWhile_not (· ≠ 10) bytes
      rw [hrest] at hnewline
      obtain rfl : newline = 10 := by simpa using hnewline
      obtain ⟨rfl, rfl⟩ := Prod.mk.inj (Option.some.inj h)
      refine ⟨bytes.takeWhile (· ≠ 10), fun hmem => ?_, rfl, ?_⟩
      · simpa using List.mem_takeWhile_imp hmem
      · rw [← hrest, List.takeWhile_append_dropWhile]

theorem splitLine?_line {body : Bytes} (h : 10 ∉ body) (rest : Bytes) :
    splitLine? (body ++ 10 :: rest) = some (body ++ [10], rest) := by
  have hbody : ∀ b ∈ body, decide (b ≠ 10) = true := fun b hb => by
    rw [decide_eq_true_eq]
    rintro rfl
    exact h hb
  unfold splitLine?
  rw [List.span_eq_takeWhile_dropWhile, List.takeWhile_append_of_pos hbody,
    List.dropWhile_append_of_pos hbody]
  simp

theorem splitLine?_eq_none {bytes : Bytes} (h : splitLine? bytes = none) : 10 ∉ bytes := by
  unfold splitLine? at h
  rw [List.span_eq_takeWhile_dropWhile] at h
  cases hrest : bytes.dropWhile (· ≠ 10) with
  | nil =>
      intro hmem
      simpa using List.dropWhile_eq_nil_iff.mp hrest 10 hmem
  | cons newline after =>
      rw [hrest] at h
      cases h

theorem newline_mem_encodeChars {text : List Char} : 10 ∈ encodeChars text ↔ '\n' ∈ text := by
  rw [encodeChars, List.mem_flatMap]
  constructor
  · rintro ⟨c, hc, hmem⟩
    rwa [← Text.newline_mem_encode.mp hmem]
  · intro hmem
    exact ⟨'\n', hmem, Text.newline_mem_encode.mpr rfl⟩

theorem encodeChars_append (first rest : List Char) :
    encodeChars (first ++ rest) = encodeChars first ++ encodeChars rest := List.flatMap_append

theorem encodeChars_newline (rest : List Char) :
    encodeChars ('\n' :: rest) = 10 :: encodeChars rest := rfl

theorem encodeChars_eq_nil {text : List Char} (h : encodeChars text = []) : text = [] := by
  cases text with
  | nil => rfl
  | cons c text =>
      rw [encodeChars, List.flatMap_cons, List.append_eq_nil_iff] at h
      exact absurd h.1 String.utf8EncodeChar_ne_nil

/-- Some chunks of a text are left to be heard, and then the end, after the bytes that are
pending. -/
structure Left (pending : Bytes) (chunks : List Bytes) (rest : List Char) : Prop where
  nonempty : ∀ chunk ∈ chunks, chunk ≠ []
  bytes : pending ++ chunks.flatten = encodeChars rest

/-- Of chunks before the end none is the end. -/
theorem Left.eq_nil {pending : Bytes} {chunks more : List Bytes} {rest : List Char}
    (h : Left pending chunks rest) (hchunks : chunks ++ [[]] = [] :: more) :
    chunks = [] ∧ more = [] := by
  cases chunks with
  | nil =>
      cases hchunks
      exact ⟨rfl, rfl⟩
  | cons chunk chunks =>
      cases hchunks
      exact absurd rfl (h.nonempty [] (List.mem_cons_self ..))

/-- A session that is fed whole lines hears the next one of them, or the end. -/
theorem Hears.fed {pending : Bytes} {heard more chunks : List Bytes} {x : Option String × Bytes}
    {rest : List Char} (h : Hears pending heard x) (hleft : Left pending chunks rest)
    (hchunks : chunks ++ [[]] = heard ++ more) (hlines : WholeLines rest) :
    (rest = [] ∧ x = (none, []) ∧ more = []) ∨
      ∃ line rest' chunks', rest = line ++ '\n' :: rest' ∧
        x.1 = some (String.ofList (line ++ ['\n'])) ∧ more = chunks' ++ [[]] ∧
        Left x.2 chunks' rest' := by
  induction h generalizing chunks with
  | @line pending first later hsplit =>
      obtain ⟨body, hbody, rfl, rfl⟩ := splitLine?_eq_some hsplit
      have hbytes := hleft.bytes
      rw [List.append_assoc, List.cons_append] at hbytes
      have hmem : '\n' ∈ rest := by
        rw [← newline_mem_encodeChars, ← hbytes]
        simp
      obtain ⟨line, rest', rfl, hline⟩ := List.eq_append_cons_of_mem hmem
      rw [encodeChars_append, encodeChars_newline] at hbytes
      have hsame := splitLine?_line hbody (later ++ chunks.flatten)
      rw [hbytes, splitLine?_line (mt newline_mem_encodeChars.mp hline)] at hsame
      obtain ⟨hbody, hrest⟩ := Prod.mk.inj (Option.some.inj hsame)
      refine .inr ⟨line, rest', chunks, rfl, ?_, hchunks.symm, hleft.nonempty, hrest.symm⟩
      have hline : encodeChars line ++ [10] = Text.encode (String.ofList (line ++ ['\n'])) := by
        rw [Text.encode_ofList, encodeChars_append]
        rfl
      rw [← hbody, hline, Text.decodeLossy_encode]
  | nothing =>
      obtain ⟨rfl, rfl⟩ := hleft.eq_nil hchunks
      exact .inl ⟨encodeChars_eq_nil hleft.bytes.symm, rfl, rfl⟩
  | @lastLine pending hsplit hne =>
      obtain ⟨rfl, rfl⟩ := hleft.eq_nil hchunks
      have hbytes := hleft.bytes
      rw [List.flatten_nil, List.append_nil] at hbytes
      subst hbytes
      have hnone := splitLine?_eq_none hsplit
      obtain ⟨last, hlast⟩ := Option.ne_none_iff_exists'.mp (fun hnone =>
        hne (congrArg encodeChars (List.getLast?_eq_none_iff.mp hnone)))
      obtain rfl := hlines last hlast
      exact absurd (newline_mem_encodeChars.mpr (List.mem_of_getLast? hlast)) hnone
  | @more pending chunk heard x hsplit hne _ ih =>
      cases chunks with
      | nil => exact absurd (List.cons.inj hchunks).1.symm hne
      | cons first chunks =>
          obtain ⟨rfl, htail⟩ := List.cons.inj hchunks
          have hbytes : pending ++ first ++ chunks.flatten = encodeChars rest := by
            rw [List.append_assoc]
            exact hleft.bytes
          exact ih ⟨fun c hc => hleft.nonempty c (List.mem_cons_of_mem _ hc), hbytes⟩ htail

/-- The next line of a text and what is left after it, as texts. -/
theorem Hears.fed_text {pending : Bytes} {heard more chunks : List Bytes}
    {x : Option String × Bytes} {rest : String} (h : Hears pending heard x)
    (hleft : Left pending chunks rest.toList) (hchunks : chunks ++ [[]] = heard ++ more)
    (hlines : WholeLines rest.toList) :
    (rest = "" ∧ x = (none, []) ∧ more = []) ∨
      ∃ line rest' chunks', rest = line ++ rest' ∧ rest'.toList.length < rest.toList.length ∧
        WholeLines line.toList ∧ WholeLines rest'.toList ∧ x.1 = some line ∧
        more = chunks' ++ [[]] ∧ Left x.2 chunks' rest'.toList := by
  rcases h.fed hleft hchunks hlines with
    ⟨hrest, hx, hmore⟩ | ⟨front, back, chunks', hrest, hx, hmore, hnext⟩
  · exact .inl ⟨String.toList_eq_nil_iff.mp hrest, hx, hmore⟩
  · refine .inr ⟨String.ofList (front ++ ['\n']), String.ofList back, chunks', ?_, ?_, ?_, ?_, hx,
      hmore, ?_⟩
    · apply String.toList_injective
      rw [hrest, String.toList_append, String.toList_ofList, String.toList_ofList,
        List.append_assoc]
      rfl
    · rw [hrest, String.toList_ofList, List.length_append, List.length_cons]
      omega
    · rw [String.toList_ofList]
      exact .newline front
    · rw [String.toList_ofList]
      rw [hrest] at hlines
      exact hlines.suffix ⟨front ++ ['\n'], by simp⟩
    · rw [String.toList_ofList]
      exact hnext

/-! ## What was heard, said and run -/

/-- The program ended by itself or at a limit. -/
def Harmless (result : Except Interruption Unit) : Prop :=
  result = .ok () ∨ ∃ reached, result = .error (.limit reached)

namespace Event

def chunk? : Event → Option Bytes
  | .heard chunk => some chunk
  | _ => none

def text? : Event → Option String
  | .said text _ => some text
  | _ => none

def program? : Event → Option Program
  | .ran program _ _ => some program
  | _ => none

/-- Nothing is in the way of the session: what it says is sent, and its programs are harmless. -/
def Smooth : Event → Prop
  | .said _ reply => ∃ size, reply = .ok size
  | .ran _ _ result => Harmless result
  | _ => True

end Event

def heard (events : List Event) : List Bytes := events.filterMap Event.chunk?

def said (events : List Event) : List String := events.filterMap Event.text?

/-- The programs that were run, as one. -/
def ran (events : List Event) : Program := (events.filterMap Event.program?).flatten

/-- The session hears the text, and then the end of its input. -/
def Fed (text : String) (events : List Event) : Prop :=
  ∃ chunks, heard events = chunks ++ [[]] ∧ Left [] chunks text.toList

/-- What a session says while nothing is wrong with what it hears: its prompts, and the limits
that its programs reached. -/
def Expected (events : List Event) (text : String) : Prop :=
  text = primaryPrompt ∨ text = continuationPrompt ∨
    ∃ program log reached, .ran program log (.error (.limit reached)) ∈ events ∧
      text = diagnostic reached.message

theorem expected_prompt (events : List Event) (session : Session) :
    Expected events session.prompt := by
  unfold prompt
  split
  · exact .inl rfl
  · exact .inr (.inl rfl)

theorem Expected.mono {events all : List Event} {text : String} (h : Expected events text)
    (hsub : events ⊆ all) : Expected all text := by
  rcases h with rfl | rfl | ⟨program, log, reached, hran, rfl⟩
  · exact .inl rfl
  · exact .inr (.inl rfl)
  · exact .inr (.inr ⟨program, log, reached, hsub hran, rfl⟩)

section

variable {first rest : List Event}

theorem heard_append : heard (first ++ rest) = heard first ++ heard rest := List.filterMap_append

theorem said_append : said (first ++ rest) = said first ++ said rest := List.filterMap_append

theorem ran_append : ran (first ++ rest) = ran first ++ ran rest := by
  rw [ran, List.filterMap_append, List.flatten_append]
  rfl

/-- The chunks heard in a round stand after its prompt. -/
theorem heard_round (text : String) (reply : Except PipeError Nat) (chunks : List Bytes) :
    heard (.said text reply :: chunks.map .heard ++ rest) = chunks ++ heard rest := by
  rw [heard_append]
  congr 1
  induction chunks with
  | nil => rfl
  | cons chunk chunks ih => exact congrArg _ ih

theorem said_round (text : String) (reply : Except PipeError Nat) (chunks : List Bytes) :
    said (.said text reply :: chunks.map .heard ++ rest) = text :: said rest := by
  rw [said_append]
  change text :: said (chunks.map .heard) ++ said rest = _
  have hchunks : said (chunks.map .heard) = [] := by
    induction chunks with
    | nil => rfl
    | cons chunk chunks ih => exact ih
  rw [hchunks]
  rfl

theorem ran_round (text : String) (reply : Except PipeError Nat) (chunks : List Bytes) :
    ran (.said text reply :: chunks.map .heard ++ rest) = ran rest := by
  rw [ran_append]
  have hchunks : ran (.said text reply :: chunks.map .heard) = [] := by
    induction chunks with
    | nil => rfl
    | cons chunk chunks ih => exact ih
  rw [hchunks]
  rfl

end

/-! ## Rounds -/

/-- The lines collected so far and those still to come make up the program. -/
structure Owes (source rest : String) (program : Program) : Prop where
  parsed : Syntax.parse (source ++ rest) = .ok program
  collected : source = "" ∨ Attempt.ofText source = .incomplete
  sourceLines : WholeLines source.toList
  restLines : WholeLines rest.toList

theorem ofText_eq_complete {text : String} {program : Program}
    (h : Attempt.ofText text = .complete program) : Syntax.parse text = .ok program := by
  unfold Attempt.ofText at h
  cases hparse : Syntax.parse text with
  | ok found =>
      rw [hparse] at h
      cases h
      rfl
  | error e =>
      rw [hparse, Attempt.ofResult] at h
      split at h <;> cases h

theorem ofText_eq_incomplete {text : String} (h : Attempt.ofText text = .incomplete) :
    ∃ e, Syntax.parse text = .error e := by
  unfold Attempt.ofText at h
  cases hparse : Syntax.parse text with
  | ok found =>
      rw [hparse] at h
      cases h
  | error e => exact ⟨e, rfl⟩

theorem parse_empty : Syntax.parse "" = .ok [] := by
  obtain ⟨program, hparse, hempty⟩ := Syntax.exists_parse "" List.isEmpty (by decide +kernel)
  rw [hparse, List.isEmpty_iff.mp hempty]

/-- At the end nothing is collected, and nothing is owed. -/
theorem Owes.ended {source : String} {program : Program} (h : Owes source "" program) :
    source = "" ∧ program = [] := by
  have hparsed := h.parsed
  rw [String.append_empty] at hparsed
  rcases h.collected with rfl | hincomplete
  · rw [parse_empty] at hparsed
    cases hparsed
    exact ⟨rfl, rfl⟩
  · obtain ⟨e, he⟩ := ofText_eq_incomplete hincomplete
    rw [hparsed] at he
    cases he

/-- A line is never refused; it completes a program, or more is collected. -/
theorem Owes.line {source line rest : String} {program : Program}
    (h : Owes source (line ++ rest) program) (hline : WholeLines line.toList)
    (hrest : WholeLines rest.toList) :
    (Attempt.ofText (source ++ line) = .incomplete ∧ Owes (source ++ line) rest program) ∨
      ∃ done todo, Attempt.ofText (source ++ line) = .complete done ∧ program = done ++ todo ∧
        Owes "" rest todo := by
  have hparsed : Syntax.parse (source ++ line ++ rest) = .ok program := by
    rw [String.append_assoc]
    exact h.parsed
  have hlines : WholeLines (source ++ line).toList := by
    rw [String.toList_append]
    exact h.sourceLines.append hline
  cases hattempt : Attempt.ofText (source ++ line) with
  | incomplete => exact .inl ⟨rfl, hparsed, .inr hattempt, hlines, hrest⟩
  | error e =>
      obtain ⟨he, hfinal⟩ := Attempt.ofText_eq_error.mp hattempt
      obtain ⟨f, hf⟩ := Syntax.error_append he hfinal hlines rest
      rw [hparsed] at hf
      cases hf
  | complete done =>
      obtain ⟨hsize, _⟩ := Syntax.programOf_eq_ok.mp (Syntax.parse_eq_ok.mp hparsed)
      rw [String.toList_append, Syntax.byteSize_append] at hsize
      have halike := Syntax.alike_append (ofText_eq_complete hattempt) hlines hsize
      cases htodo : Syntax.parse rest with
      | error e =>
          obtain ⟨f, hf, _⟩ := halike.of_error htodo
          rw [hparsed] at hf
          cases hf
      | ok todo =>
          obtain ⟨whole, hwhole, hsame⟩ := halike.of_ok htodo
          rw [hparsed] at hwhole
          cases hwhole
          refine .inr ⟨done, todo, rfl, hsame, ?_, .inl rfl, .nil, hrest⟩
          rw [String.empty_append]
          exact htodo

section

variable {executor : Executor} {session : Session} {events : List Event}

/-- A program that runs smoothly leaves the session to go on. -/
theorem Performs.smooth {program : Program} {x : Except Interruption Bool × Session}
    (h : Performs executor program session events x) (hsmooth : ∀ event ∈ events, event.Smooth) :
    ∃ shell, x = (.ok true, { session with shell := shell }) ∧ heard events = [] ∧
      ran events = program ∧ ∀ text ∈ said events, Expected events text := by
  cases h with
  | crashed =>
      rcases hsmooth _ (List.mem_cons_self ..) with hresult | ⟨_, hresult⟩ <;> cases hresult
  | @ended _ _ result _ shell _ events verdict _ _ _ hverdict =>
      rcases hsmooth _ (List.mem_cons_self ..) with rfl | ⟨reached, rfl⟩
      · cases hverdict
        exact ⟨shell, rfl, rfl, List.append_nil _, by simp [said, Event.text?]⟩
      · cases hverdict with
        | failed _ hlimit => exact absurd rfl (hlimit reached)
        | limited _ reply =>
            obtain ⟨size, rfl⟩ := hsmooth (.said (diagnostic reached.message) reply) (by simp)
            refine ⟨shell, rfl, rfl, List.append_nil _, ?_⟩
            intro text htext
            obtain rfl := List.mem_singleton.mp htext
            exact .inr (.inr ⟨program, _, reached, List.mem_cons_self .., rfl⟩)

/-- A line that is owed is taken up without complaint. -/
theorem Takes.fed {line rest : String} {program : Program} {x : Except Interruption Bool × Session}
    (h : Takes executor session line events x) (hsmooth : ∀ event ∈ events, event.Smooth)
    (howes : Owes session.source (line ++ rest) program) (hline : WholeLines line.toList)
    (hrest : WholeLines rest.toList) :
    heard events = [] ∧ (∀ text ∈ said events, Expected events text) ∧
      ∃ next todo, x = (.ok true, next) ∧ next.pending = session.pending ∧
        program = ran events ++ todo ∧ Owes next.source rest todo := by
  cases h with
  | continued h =>
      rcases howes.line hline hrest with ⟨_, hlater⟩ | ⟨_, _, hattempt, _⟩
      · exact ⟨rfl, by simp [said], _, program, rfl, rfl, rfl, hlater⟩
      · cases h.symm.trans hattempt
  | refused h =>
      rcases howes.line hline hrest with ⟨hattempt, _⟩ | ⟨_, _, hattempt, _⟩
      · cases h.symm.trans hattempt
      · cases h.symm.trans hattempt
  | completed h hperform =>
      rcases howes.line hline hrest with ⟨hattempt, _⟩ | ⟨done, todo, hattempt, rfl, hlater⟩
      · cases h.symm.trans hattempt
      · cases h.symm.trans hattempt
        obtain ⟨shell, rfl, hheard, hran, hsaid⟩ := hperform.smooth hsmooth
        exact ⟨hheard, hsaid, _, todo, rfl, rfl, by rw [hran], hlater⟩

/-- What a round of a session that is fed a program comes to: the end, with nothing owed, or a
line further. -/
theorem Round.fed {x : Except Interruption Bool × Session} {more chunks : List Bytes}
    {rest : String} {program : Program} (h : Round executor session events x)
    (hsmooth : ∀ event ∈ events, event.Smooth) (hleft : Left session.pending chunks rest.toList)
    (hchunks : chunks ++ [[]] = heard events ++ more)
    (howes : Owes session.source rest program) :
    (∀ text ∈ said events, Expected events text) ∧
      ((more = [] ∧ program = [] ∧ ran events = [] ∧ ∃ final, x = (.ok false, final) ∧
          final.source = "") ∨
        ∃ next chunks' rest' todo, x = (.ok true, next) ∧ more = chunks' ++ [[]] ∧
          Left next.pending chunks' rest'.toList ∧ program = ran events ++ todo ∧
          Owes next.source rest' todo ∧ rest'.toList.length < rest.toList.length) := by
  cases h with
  | unprompted e =>
      obtain ⟨size, hsize⟩ := hsmooth _ (List.mem_cons_self ..)
      cases hsize
  | @closed size chunksNow pending hhears hsource =>
      rw [← List.append_nil (List.map _ _), ← List.cons_append] at hchunks ⊢
      rw [heard_round, List.append_assoc] at hchunks
      rw [said_round, ran_round]
      rcases hhears.fed_text hleft hchunks howes.restLines with
        ⟨rfl, _, hmore⟩ | ⟨_, _, _, _, _, _, _, hx, _⟩
      · obtain ⟨_, rfl⟩ := howes.ended
        refine ⟨fun text htext => ?_, .inl ⟨hmore, rfl, rfl, _, rfl, hsource⟩⟩
        obtain rfl := List.mem_singleton.mp htext
        exact expected_prompt _ session
      · cases hx
  | brokenOff hhears hsource reply =>
      rw [heard_round, List.append_assoc] at hchunks
      rcases hhears.fed_text hleft hchunks howes.restLines with
        ⟨rfl, _⟩ | ⟨_, _, _, _, _, _, _, hx, _⟩
      · exact absurd howes.ended.1 hsource
      · cases hx
  | @took size chunksNow pending line later _ hhears htakes =>
      have hlater : ∀ event ∈ later, event.Smooth := fun event hevent =>
        hsmooth event (List.mem_append_right _ hevent)
      rw [heard_round, List.append_assoc] at hchunks
      rw [said_round, ran_round]
      rcases hhears.fed_text hleft hchunks howes.restLines with
        ⟨_, hx, _⟩ | ⟨_, rest', chunks', rfl, hlength, hline, hrest, hx, hmore, hnext⟩
      · cases hx
      obtain rfl := Option.some.inj hx
      obtain ⟨hheard, hsaid, next, todo, rfl, hpending, rfl, hdue⟩ :=
        htakes.fed hlater howes hline hrest
      rw [hheard] at hmore
      refine ⟨fun text htext => ?_, .inr ⟨next, chunks', rest', todo, rfl, hmore, ?_, rfl, hdue,
        hlength⟩⟩
      · rcases List.mem_cons.mp htext with rfl | htext
        · exact expected_prompt _ session
        · exact (hsaid text htext).mono (List.subset_append_right ..)
      · rw [hpending]
        exact hnext

theorem Conversation.fed {result : Except Interruption Unit} {final : Session}
    {chunks : List Bytes} {rest : String} {program : Program}
    (h : Conversation executor session events (result, final))
    (hsmooth : ∀ event ∈ events, event.Smooth) (hleft : Left session.pending chunks rest.toList)
    (hheard : heard events = chunks ++ [[]]) (howes : Owes session.source rest program) :
    ran events = program ∧ (∀ text ∈ said events, Expected events text) ∧ result = .ok () ∧
      final.source = "" := by
  generalize hlast : (result, final) = last at h
  induction h generalizing chunks rest program with
  | @wentOn session next events later last hround _ ih =>
      rw [heard_append] at hheard
      obtain ⟨hexpected, ⟨_, _, _, _, hx, _⟩ |
          ⟨_, chunks', rest', todo, hx, hmore, hnext, rfl, howes, _⟩⟩ :=
        hround.fed (fun event hevent => hsmooth event (List.mem_append_left _ hevent)) hleft
          hheard.symm howes
      · cases hx
      · cases hx
        obtain ⟨hran, hsaid, hend⟩ := ih
          (fun event hevent => hsmooth event (List.mem_append_right _ hevent)) hnext hmore howes hlast
        refine ⟨by rw [ran_append, hran], fun text htext => ?_, hend⟩
        rw [said_append, List.mem_append] at htext
        rcases htext with htext | htext
        · exact (hexpected text htext).mono (List.subset_append_left ..)
        · exact (hsaid text htext).mono (List.subset_append_right ..)
  | ended hround =>
      cases hlast
      rw [← List.append_nil (heard _)] at hheard
      obtain ⟨hexpected, ⟨_, rfl, hran, _, hx, hsource⟩ | ⟨_, _, _, _, hx, _⟩⟩ :=
        hround.fed hsmooth hleft hheard.symm howes
      · cases hx
        exact ⟨hran, hexpected, rfl, hsource⟩
      · cases hx
  | interrupted hround =>
      rw [← List.append_nil (heard _)] at hheard
      obtain ⟨hexpected, ⟨_, _, _, _, hx, _⟩ | ⟨_, _, _, _, hx, _⟩⟩ :=
        hround.fed hsmooth hleft hheard.symm howes
      · cases hx
      · cases hx

/-! ## Sessions end -/

/-- A text that is fed is heard line by line. -/
theorem Hears.exists_chunks (pending : Bytes) {chunks : List Bytes}
    (hnonempty : ∀ chunk ∈ chunks, chunk ≠ []) :
    ∃ now x more, Hears pending now x ∧ chunks ++ [[]] = now ++ more := by
  induction chunks generalizing pending with
  | nil =>
      cases hsplit : splitLine? pending with
      | some found => exact ⟨[], _, _, .line hsplit, rfl⟩
      | none =>
          by_cases hpending : pending = []
          · subst hpending
            exact ⟨[[]], _, [], .nothing, rfl⟩
          · exact ⟨[[]], _, [], .lastLine hsplit hpending, rfl⟩
  | cons chunk chunks ih =>
      cases hsplit : splitLine? pending with
      | some found => exact ⟨[], _, _, .line hsplit, rfl⟩
      | none =>
          obtain ⟨now, x, more, hhears, hchunks⟩ := ih (pending ++ chunk)
            (fun c hc => hnonempty c (List.mem_cons_of_mem _ hc))
          refine ⟨chunk :: now, x, more, .more hsplit (hnonempty _ (List.mem_cons_self ..)) hhears, ?_⟩
          rw [List.cons_append, hchunks, List.cons_append]

theorem reset_canFinish : CanFinish Action.reset := by
  have hask : ∀ job : Job TaskId, CanFinish (do
      return (job, ← Action.request (.isFinished job.handle)) : Action (Job TaskId × Bool)) :=
    fun job shell => ⟨[.asked (.isFinished job.handle) true], .ok (job, true), shell,
      true, [], rfl, rfl, rfl⟩
  have hstates : CanFinish Action.jobStates :=
    CanFinish.get.bind (fun shell => .mapM hask shell.jobs.jobs)
  exact (CanFinish.modify _).bind (fun _ => hstates.bind (fun _ => .modify _))

/-- What a session may run of a program can end, by itself or at a limit, from whatever shell. -/
def CanRun (executor : Executor) (program : Program) : Prop :=
  ∀ part, part <:+: program → ∀ shell, ∃ log result shell',
    Acts (Action.runProgram executor part) shell log (result, shell') ∧ Harmless result

theorem CanRun.suffix {done todo : Program} (h : CanRun executor (done ++ todo)) :
    CanRun executor todo :=
  fun part hpart => h part (hpart.trans (List.suffix_append done todo).isInfix)

theorem Performs.exists_smooth {done todo : Program} (hcan : CanRun executor (done ++ todo))
    (session : Session) :
    ∃ events x, Performs executor done session events x ∧ ∀ event ∈ events, event.Smooth := by
  obtain ⟨log, result, shell, hrun, hharmless⟩ :=
    hcan done (List.prefix_append done todo).isInfix session.shell
  obtain ⟨log', tidied, shell', htidy⟩ := reset_canFinish shell
  rcases hharmless with rfl | ⟨reached, rfl⟩
  · refine ⟨_, _, .ended hrun (by simp) htidy .finished, ?_⟩
    simp [Event.Smooth, Harmless]
  · refine ⟨_, _, .ended hrun (by simp) htidy (.limited reached (.ok 0)), ?_⟩
    simp [Event.Smooth, Harmless]

theorem Takes.exists_smooth {line rest : String} {program : Program}
    (hcan : CanRun executor program) (howes : Owes session.source (line ++ rest) program)
    (hline : WholeLines line.toList) (hrest : WholeLines rest.toList) :
    ∃ events x, Takes executor session line events x ∧ ∀ event ∈ events, event.Smooth := by
  rcases howes.line hline hrest with ⟨hattempt, _⟩ | ⟨done, todo, hattempt, rfl, _⟩
  · exact ⟨[], _, .continued hattempt, by simp⟩
  · obtain ⟨events, x, hperform, hsmooth⟩ :=
      Performs.exists_smooth hcan { session with source := "" }
    exact ⟨events, x, .completed hattempt hperform, hsmooth⟩

theorem Round.exists_smooth {chunks : List Bytes} {rest : String} {program : Program}
    (hcan : CanRun executor program) (hleft : Left session.pending chunks rest.toList)
    (howes : Owes session.source rest program) :
    ∃ events x more, Round executor session events x ∧ (∀ event ∈ events, event.Smooth) ∧
      chunks ++ [[]] = heard events ++ more := by
  obtain ⟨now, ⟨line, pending⟩, more, hhears, hchunks⟩ :=
    Hears.exists_chunks session.pending hleft.nonempty
  have hquiet : ∀ event ∈ Event.said session.prompt (.ok 0) :: now.map Event.heard,
      event.Smooth := by
    simp [Event.Smooth]
  rcases hhears.fed_text hleft hchunks howes.restLines with
    ⟨rfl, hx, rfl⟩ | ⟨line, rest', chunks', rfl, _, hline, hrest, hx, rfl, hnext⟩
  · cases hx
    refine ⟨.said session.prompt (.ok 0) :: now.map .heard, _, [],
      .closed hhears howes.ended.1, hquiet, ?_⟩
    rw [hchunks, ← List.append_nil (List.map _ _), ← List.cons_append, heard_round,
      List.append_assoc]
    rfl
  · obtain rfl : _ = some line := hx
    obtain ⟨later, x, htakes, hsmooth⟩ : ∃ events x,
        Takes executor { session with pending := pending } line events x ∧
          ∀ event ∈ events, event.Smooth := Takes.exists_smooth hcan howes hline hrest
    obtain ⟨hheard, _⟩ := htakes.fed hsmooth howes hline hrest
    refine ⟨.said session.prompt (.ok 0) :: now.map .heard ++ later, x, chunks' ++ [[]],
      .took hhears htakes, ?_, ?_⟩
    · intro event hevent
      exact (List.mem_append.mp hevent).elim (hquiet event) (hsmooth event)
    · rw [heard_round, hheard, List.append_nil, hchunks]

/-- A session that is fed a program ends, when its programs do. -/
theorem Conversation.exists_smooth {chunks : List Bytes} {rest : String} {program : Program}
    (hcan : CanRun executor program) (hleft : Left session.pending chunks rest.toList)
    (howes : Owes session.source rest program) :
    ∃ events x, Conversation executor session events x ∧ (∀ event ∈ events, event.Smooth) ∧
      heard events = chunks ++ [[]] := by
  induction hsize : rest.toList.length using Nat.strongRecOn
    generalizing session chunks rest program with
  | ind size ih =>
      obtain ⟨events, x, more, hround, hsmooth, hchunks⟩ := Round.exists_smooth hcan hleft howes
      obtain ⟨_, ⟨rfl, _, _, final, rfl, _⟩ |
          ⟨next, chunks', rest', todo, rfl, rfl, hnext, rfl, hdue, hlength⟩⟩ :=
        hround.fed hsmooth hleft hchunks howes
      · refine ⟨events, _, .ended hround, hsmooth, ?_⟩
        rw [hchunks, List.append_nil]
      · obtain ⟨later, x, hlater, hsmooth', hheard⟩ :=
          ih _ (hsize ▸ hlength) hcan.suffix hnext hdue rfl
        refine ⟨events ++ later, x, .wentOn hround hlater, ?_, ?_⟩
        · intro event hevent
          exact (List.mem_append.mp hevent).elim (hsmooth event) (hsmooth' event)
        · rw [heard_append, hheard, hchunks]

end

theorem Owes.start {text : String} {program : Program} (hparse : Syntax.parse text = .ok program)
    (hlines : WholeLines text.toList) : Owes "" text program where
  parsed := by
    rw [String.empty_append]
    exact hparse
  collected := .inl rfl
  sourceLines := .nil
  restLines := hlines

/-- A program that only defines functions runs without a request. -/
theorem CanRun.definitions {executor : Executor} {program : Program}
    (h : program.all Syntax.Node.isDefinition = true) : CanRun executor program := by
  intro part hpart shell
  have hdefines : ∀ node ∈ part, node.isDefinition = true := fun node hnode =>
    List.all_eq_true.mp h node (hpart.subset hnode)
  obtain ⟨shell', hrun⟩ : ∃ shell', Acts (Action.runProgram executor part) shell []
      (.ok (), shell') := by
    clear h hpart
    induction part generalizing shell with
    | nil => exact ⟨shell, rfl, rfl⟩
    | cons node part ih =>
        obtain ⟨hnode, hpart⟩ := List.forall_mem_cons.mp hdefines
        cases node with
        | function name body =>
            obtain ⟨shell', hrun⟩ := ih _ hpart
            exact ⟨shell', acts_bind.mpr (.inr ⟨(), _, [], [], rfl, ⟨rfl, rfl⟩, hrun⟩)⟩
        | _ => cases hnode
  exact ⟨[], .ok (), shell', hrun, .inl rfl⟩

/-- A session that is fed the text of a program runs that program: while nothing fails, the
programs that it runs have together the statements of the whole, it says nothing but prompts and
the limits that were reached, and it ends with its input, with nothing collected.  However the
text comes in chunks, there is such a session if the programs can end. -/
theorem converse_program (executor : Executor) (pipes : SessionPipes) (shell : Shell)
    {text : String} {program : Program} (hparse : Syntax.parse text = .ok program)
    (hlines : WholeLines text.toList) :
    (∀ log result shell',
      (converse executor pipes ⟨shell, "", []⟩).Runs log (result, shell') →
        ∃ events final, log = exchanges pipes events ∧ final.shell = shell' ∧
          Conversation executor ⟨shell, "", []⟩ events (result, final) ∧
          (Fed text events → (∀ event ∈ events, event.Smooth) →
            ran events = program ∧ (∀ sent ∈ said events, Expected events sent) ∧
              result = .ok () ∧ final.source = "")) ∧
      (CanRun executor program → ∀ chunks, Left [] chunks text.toList →
          ∃ events final, Conversation executor ⟨shell, "", []⟩ events (.ok (), final) ∧
            (∀ event ∈ events, event.Smooth) ∧ heard events = chunks ++ [[]] ∧
            (converse executor pipes ⟨shell, "", []⟩).Runs (exchanges pipes events)
              (.ok (), final.shell)) := by
  have howes : Owes "" text program := .start hparse hlines
  constructor
  · intro log result shell' hrun
    obtain ⟨events, result, final, rfl, hconversation, hx⟩ := runs_converse.mp hrun
    cases hx
    refine ⟨events, final, rfl, rfl, hconversation, ?_⟩
    rintro ⟨chunks, hheard, hleft⟩ hsmooth
    exact hconversation.fed hsmooth hleft hheard howes
  · intro hcan chunks hleft
    obtain ⟨events, ⟨result, final⟩, hconversation, hsmooth, hheard⟩ : ∃ events x,
        Conversation executor ⟨shell, "", []⟩ events x ∧ (∀ event ∈ events, event.Smooth) ∧
          heard events = chunks ++ [[]] := Conversation.exists_smooth hcan hleft howes
    obtain ⟨_, _, rfl, _⟩ := hconversation.fed hsmooth hleft hheard howes
    exact ⟨events, final, hconversation, hsmooth, hheard,
      runs_converse.mpr ⟨events, _, final, rfl, hconversation, rfl⟩⟩

/-- A definition over three lines, which come in two chunks. -/
theorem definition_typed_in :
    ∃ program, Syntax.parse "f() \x7b\na\n\x7d\n" = .ok program ∧
      ∀ (executor : Executor) (pipes : SessionPipes) (shell : Shell), ∃ events shell',
        (converse executor pipes ⟨shell, "", []⟩).Runs (exchanges pipes events) (.ok (), shell') ∧
          ran events = program ∧
          heard events = [Text.encode "f() \x7b\na", Text.encode "\n\x7d\n", []] := by
  obtain ⟨program, hparse, hdefines⟩ := Syntax.exists_parse "f() \x7b\na\n\x7d\n"
    (List.all · Syntax.Node.isDefinition) (by decide +kernel)
  refine ⟨program, hparse, fun executor pipes shell => ?_⟩
  obtain ⟨_, hsome⟩ := converse_program executor pipes shell hparse (by decide +kernel)
  have hleft : Left [] [Text.encode "f() \x7b\na", Text.encode "\n\x7d\n"]
      "f() \x7b\na\n\x7d\n".toList := ⟨by decide +kernel, by decide +kernel⟩
  obtain ⟨events, final, hconversation, hsmooth, hheard, hruns⟩ :=
    hsome (.definitions hdefines) _ hleft
  have hfed := hconversation.fed hsmooth hleft hheard (.start hparse (by decide +kernel))
  exact ⟨events, _, hruns, hfed.1, hheard⟩

end Session

end Conch
