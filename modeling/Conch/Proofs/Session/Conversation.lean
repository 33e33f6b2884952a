import Conch.Proofs.Effect.Runs
import Conch.Shell.Session

/-!
# Conversations

What a session does, told as the events between it and its surroundings: what it said
and heard, and which programs it ran.  The runs of `converse` are exactly the
conversations (`runs_converse`), so that what holds of all conversations holds of the
sessions that are run.
-/

namespace Conch.Session

open Text (Bytes)

/-! ## Events -/

inductive Event where
  /-- A text was sent to the output, with this reply. -/
  | said (text : String) (reply : Except PipeError Nat)
  /-- A chunk came from the input; an empty one is the end. -/
  | heard (chunk : Bytes)
  | ran (program : Syntax.Program) (log : List Exchange) (result : Except Interruption Unit)
  /-- The shell was made ready for the next program. -/
  | tidied (log : List Exchange)

namespace Event

def exchanges (pipes : SessionPipes) : Event → List Exchange
  | .said text reply => [.asked (.send pipes.output (Text.encode text)) reply]
  | .heard chunk => [.asked (.receive pipes.input readSize) chunk]
  | .ran _ log _ => log
  | .tidied log => log

end Event

def exchanges (pipes : SessionPipes) (events : List Event) : List Exchange :=
  events.flatMap (Event.exchanges pipes)

/-! ## Lines -/

/-- Which line is heard in some chunks, after bytes that were heard before. -/
inductive Hears : Bytes → List Bytes → Option String × Bytes → Prop where
  | line {pending line rest : Bytes} (h : splitLine? pending = some (line, rest)) :
      Hears pending [] (some (Text.decodeLossy line), rest)
  | nothing : Hears [] [[]] (none, [])
  | lastLine {pending : Bytes} (h : splitLine? pending = none) (hne : pending ≠ []) :
      Hears pending [[]] (some (Text.decodeLossy pending ++ "\n"), [])
  | more {pending chunk : Bytes} {chunks : List Bytes} {x : Option String × Bytes}
      (h : splitLine? pending = none) (hne : chunk ≠ [])
      (hrest : Hears (pending ++ chunk) chunks x) : Hears pending (chunk :: chunks) x

/-- How a session takes it that a text was sent or not. -/
def sent (reply : Except PipeError Nat) : Except Interruption Unit :=
  (reply.mapError (fun e => .stream (.pipe e))).map (fun _ => ())

/-! ## Rounds -/

/-- How a session goes on after a program that ended with a result. -/
inductive Concludes : Except Interruption Unit → List Event → Except Interruption Bool → Prop where
  | finished : Concludes (.ok ()) [] (.ok true)
  | left (status : Int) : Concludes (.error (.leaveShell status)) [] (.ok false)
  | limited (reached : LimitReached) (reply : Except PipeError Nat) :
      Concludes (.error (.limit reached)) [.said (diagnostic reached.message) reply]
        ((sent reply).map (fun _ => true))
  | failed {interruption : Interruption} (hleft : ∀ status, interruption ≠ .leaveShell status)
      (hlimit : ∀ reached, interruption ≠ .limit reached) :
      Concludes (.error interruption) [] (.error interruption)

section

variable (executor : Executor)

/-- How a session runs a program. -/
inductive Performs (program : Syntax.Program) (session : Session) :
    List Event → Except Interruption Bool × Session → Prop where
  | crashed {log : List Exchange} {shell : Shell}
      (hrun : Acts (Action.runProgram executor program) session.shell log (.error .crash, shell)) :
      Performs program session [.ran program log (.error .crash)]
        (.error .crash, { session with shell := shell })
  | ended {log log' : List Exchange} {result : Except Interruption Unit} {shell shell' : Shell}
      {tidied : Except Interruption Unit} {events : List Event} {verdict : Except Interruption Bool}
      (hrun : Acts (Action.runProgram executor program) session.shell log (result, shell))
      (hcrash : result ≠ .error .crash) (htidy : Acts Action.reset shell log' (tidied, shell'))
      (hverdict : Concludes result events verdict) :
      Performs program session (.ran program log result :: .tidied log' :: events)
        (verdict, { session with shell := shell' })

/-- What a session does with a line that it heard. -/
inductive Takes (session : Session) (line : String) :
    List Event → Except Interruption Bool × Session → Prop where
  | continued (h : Syntax.Attempt.ofText (session.source ++ line) = .incomplete) :
      Takes session line [] (.ok true, { session with source := session.source ++ line })
  | refused {e : Syntax.ParseError}
      (h : Syntax.Attempt.ofText (session.source ++ line) = .error e)
      (reply : Except PipeError Nat) :
      Takes session line [.said (diagnostic ("syntax error: " ++ e.message)) reply]
        ((sent reply).map (fun _ => true), { session with source := "" })
  | completed {program : Syntax.Program} {events : List Event}
      {x : Except Interruption Bool × Session}
      (h : Syntax.Attempt.ofText (session.source ++ line) = .complete program)
      (hrun : Performs executor program { session with source := "" } events x) :
      Takes session line events x

/-- What a session does from one line to the next. -/
inductive Round (session : Session) : List Event → Except Interruption Bool × Session → Prop where
  | unprompted (e : PipeError) :
      Round session [.said session.prompt (.error e)] (.error (.stream (.pipe e)), session)
  | closed {size : Nat} {chunks : List Bytes} {pending : Bytes}
      (hhears : Hears session.pending chunks (none, pending)) (hsource : session.source = "") :
      Round session (.said session.prompt (.ok size) :: chunks.map .heard)
        (.ok false, { session with pending := pending })
  | brokenOff {size : Nat} {chunks : List Bytes} {pending : Bytes}
      (hhears : Hears session.pending chunks (none, pending)) (hsource : session.source ≠ "")
      (reply : Except PipeError Nat) :
      Round session (.said session.prompt (.ok size) :: chunks.map .heard ++
          [.said (diagnostic "syntax error: unexpected end of file") reply])
        ((sent reply).map (fun _ => false), { session with pending := pending })
  | took {size : Nat} {chunks : List Bytes} {pending : Bytes} {line : String} {events : List Event}
      {x : Except Interruption Bool × Session}
      (hhears : Hears session.pending chunks (some line, pending))
      (htakes : Takes executor { session with pending := pending } line events x) :
      Round session (.said session.prompt (.ok size) :: chunks.map .heard ++ events) x

/-- What a session does until it ends. -/
inductive Conversation : Session → List Event → Except Interruption Unit × Session → Prop where
  | wentOn {session next : Session} {events rest : List Event}
      {last : Except Interruption Unit × Session}
      (hround : Round executor session events (.ok true, next))
      (hrest : Conversation next rest last) : Conversation session (events ++ rest) last
  | ended {session final : Session} {events : List Event}
      (hround : Round executor session events (.ok false, final)) :
      Conversation session events (.ok (), final)
  | interrupted {session final : Session} {events : List Event} {interruption : Interruption}
      (hround : Round executor session events (.error interruption, final)) :
      Conversation session events (.error interruption, final)

end

/-! ## The runs of a session are its conversations -/

section

variable {executor : Executor} {pipes : SessionPipes} {session : Session} {log : List Exchange}

theorem runs_lookForLine_some {input : PipeId} {pending line rest : Bytes}
    {r : Bytes ⊕ Option String × Bytes} (h : splitLine? pending = some (line, rest)) :
    (lookForLine input pending).Runs log r ↔
      log = [] ∧ r = .inr (some (Text.decodeLossy line), rest) := by
  rw [lookForLine, h]
  rfl

theorem runs_lookForLine_none {input : PipeId} {pending : Bytes}
    {r : Bytes ⊕ Option String × Bytes} (h : splitLine? pending = none) :
    (lookForLine input pending).Runs log r ↔
      ∃ chunk, log = [.asked (.receive input readSize) chunk] ∧
        r = if chunk ≠ [] then .inl (pending ++ chunk)
          else if pending = [] then .inr (none, [])
          else .inr (some (Text.decodeLossy pending ++ "\n"), []) := by
  rw [lookForLine, h]
  constructor
  · rintro ⟨_ | ⟨b, chunk⟩, rest, rfl, hrest⟩
    · refine ⟨[], ?_⟩
      cases pending with
      | nil =>
          obtain ⟨rfl, rfl⟩ := hrest
          exact ⟨rfl, rfl⟩
      | cons c pending =>
          obtain ⟨rfl, rfl⟩ := hrest
          exact ⟨rfl, rfl⟩
    · obtain ⟨rfl, rfl⟩ := hrest
      exact ⟨b :: chunk, rfl, rfl⟩
  · rintro ⟨_ | ⟨b, chunk⟩, rfl, rfl⟩
    · refine ⟨[], [], rfl, ?_⟩
      cases pending with
      | nil => exact ⟨rfl, rfl⟩
      | cons c pending => exact ⟨rfl, rfl⟩
    · exact ⟨b :: chunk, [], rfl, rfl, rfl⟩

theorem runs_readLine {input : PipeId} {pending : Bytes} {x : Option String × Bytes} :
    (readLine input pending).Runs log x ↔
      ∃ chunks, log = chunks.map (fun chunk => .asked (.receive input readSize) chunk) ∧
        Hears pending chunks x := by
  rw [readLine, Proc.runs_repeatFrom]
  constructor
  · intro h
    induction h with
    | @stop pending log last h =>
        cases hsplit : splitLine? pending with
        | some found =>
            obtain ⟨rfl, hlast⟩ := (runs_lookForLine_some hsplit).mp h
            cases hlast
            exact ⟨[], rfl, .line hsplit⟩
        | none =>
            obtain ⟨chunk, rfl, hlast⟩ := (runs_lookForLine_none hsplit).mp h
            split at hlast
            · cases hlast
            rename_i hchunk
            obtain rfl := Decidable.not_not.mp hchunk
            split at hlast
            · rename_i hpending
              subst hpending
              cases hlast
              exact ⟨[[]], rfl, .nothing⟩
            · rename_i hpending
              cases hlast
              exact ⟨[[]], rfl, .lastLine hsplit hpending⟩
    | @again pending next log rest last h _ ih =>
        obtain ⟨chunks, rfl, hrest⟩ := ih
        cases hsplit : splitLine? pending with
        | some found =>
            obtain ⟨_, hnext⟩ := (runs_lookForLine_some hsplit).mp h
            cases hnext
        | none =>
            obtain ⟨chunk, rfl, hnext⟩ := (runs_lookForLine_none hsplit).mp h
            split at hnext
            · rename_i hchunk
              cases hnext
              exact ⟨chunk :: chunks, rfl, .more hsplit hchunk hrest⟩
            · split at hnext <;> cases hnext
  · rintro ⟨chunks, rfl, h⟩
    induction h with
    | line hsplit => exact .stop ((runs_lookForLine_some hsplit).mpr ⟨rfl, rfl⟩)
    | nothing => exact .stop ((runs_lookForLine_none rfl).mpr ⟨[], rfl, rfl⟩)
    | lastLine hsplit hne =>
        exact .stop ((runs_lookForLine_none hsplit).mpr ⟨[], rfl, by simp [hne]⟩)
    | @more pending chunk _ _ hsplit hne _ ih =>
        have hlook : (lookForLine input pending).Runs [.asked (.receive input readSize) chunk]
            (.inl (pending ++ chunk)) :=
          (runs_lookForLine_none hsplit).mpr ⟨chunk, rfl, (if_pos hne).symm⟩
        exact .again hlook ih

theorem acts_say {text : String} {x : Except Interruption Unit × Session} :
    Acts (say pipes text) session log x ↔
      ∃ reply, log = exchanges pipes [.said text reply] ∧ x = (sent reply, session) := by
  constructor
  · rintro ⟨reply, _, rfl, rfl, rfl⟩
    exact ⟨reply, rfl, rfl⟩
  · rintro ⟨reply, rfl, rfl⟩
    exact ⟨reply, [], rfl, rfl, rfl⟩

theorem exchanges_heard (chunks : List Bytes) :
    exchanges pipes (chunks.map .heard) =
      chunks.map (fun chunk => .asked (.receive pipes.input readSize) chunk) := by
  induction chunks with
  | nil => rfl
  | cons chunk chunks ih => exact congrArg _ ih

theorem exchanges_append (first rest : List Event) :
    exchanges pipes (first ++ rest) = exchanges pipes first ++ exchanges pipes rest :=
  List.flatMap_append

theorem acts_nextLine {x : Except Interruption (Option String) × Session} :
    Acts (nextLine pipes) session log x ↔
      ∃ chunks line pending, log = exchanges pipes (chunks.map .heard) ∧
        Hears session.pending chunks (line, pending) ∧
        x = (.ok line, { session with pending := pending }) := by
  have hrun : Acts (nextLine pipes) session log x ↔
      ((readLine pipes.input session.pending).bind fun r =>
        .done (.ok r.1, { session with pending := r.2 })).Runs log x := Iff.rfl
  rw [hrun, Proc.runs_bind]
  constructor
  · rintro ⟨⟨line, pending⟩, first, rest, rfl, hread, rfl, rfl⟩
    obtain ⟨chunks, rfl, hhears⟩ := runs_readLine.mp hread
    refine ⟨chunks, line, pending, ?_, hhears, rfl⟩
    rw [exchanges_heard, List.append_nil]
  · rintro ⟨chunks, line, pending, rfl, hhears, rfl⟩
    refine ⟨(line, pending), _, [], (List.append_nil _).symm, runs_readLine.mpr ?_, rfl, rfl⟩
    exact ⟨chunks, exchanges_heard chunks, hhears⟩

theorem acts_onShell {α : Type} {body : Action α}
    {x : Except Interruption (Except Interruption α) × Session} :
    Acts (onShell body) session log x ↔
      ∃ result shell, Acts body session.shell log (result, shell) ∧
        x = (.ok result, { session with shell := shell }) := by
  have hrun : Acts (onShell body) session log x ↔
      (Proc.bind (body session.shell) fun r =>
        .done (.ok r.1, { session with shell := r.2 })).Runs log x := Iff.rfl
  rw [hrun, Proc.runs_bind]
  constructor
  · rintro ⟨⟨result, shell⟩, first, rest, rfl, hbody, rfl, rfl⟩
    refine ⟨result, shell, ?_, rfl⟩
    rw [List.append_nil]
    exact hbody
  · rintro ⟨result, shell, hbody, rfl⟩
    exact ⟨(result, shell), log, [], (List.append_nil _).symm, hbody, rfl, rfl⟩

theorem acts_say_bind {α : Type} {text : String} {next : Unit → Dialogue α}
    {x : Except Interruption α × Session} :
    Acts (say pipes text >>= next) session log x ↔
      (∃ e, log = exchanges pipes [.said text (.error e)] ∧
        x = (.error (.stream (.pipe e)), session)) ∨
      ∃ size rest, log = exchanges pipes [.said text (.ok size)] ++ rest ∧
        Acts (next ()) session rest x := by
  rw [acts_bind]
  constructor
  · rintro (⟨e, s', rfl, hsay⟩ | ⟨_, s', first, rest, rfl, hsay, hrest⟩)
    · obtain ⟨reply, rfl, hx⟩ := acts_say.mp hsay
      cases reply with
      | ok size => cases hx
      | error e =>
          cases hx
          exact .inl ⟨e, rfl, rfl⟩
    · obtain ⟨reply, rfl, hx⟩ := acts_say.mp hsay
      cases reply with
      | error e => cases hx
      | ok size =>
          cases hx
          exact .inr ⟨size, rest, rfl, hrest⟩
  · rintro (⟨e, rfl, rfl⟩ | ⟨size, rest, rfl, hrest⟩)
    · exact .inl ⟨_, session, rfl, acts_say.mpr ⟨.error e, rfl, rfl⟩⟩
    · exact .inr ⟨(), session, _, rest, rfl, acts_say.mpr ⟨.ok size, rfl, rfl⟩, hrest⟩

/-- A text is said, and if that succeeds there is a result. -/
theorem acts_say_return {text : String} {b : Bool} {x : Except Interruption Bool × Session} :
    Acts (do say pipes text; return b) session log x ↔
      ∃ reply, log = exchanges pipes [.said text reply] ∧
        x = ((sent reply).map (fun _ => b), session) := by
  rw [acts_say_bind]
  constructor
  · rintro (⟨e, rfl, rfl⟩ | ⟨size, rest, rfl, rfl, rfl⟩)
    · exact ⟨.error e, rfl, rfl⟩
    · exact ⟨.ok size, List.append_nil _, rfl⟩
  · rintro ⟨e | size, rfl, rfl⟩
    · exact .inl ⟨e, rfl, rfl⟩
    · exact .inr ⟨size, [], (List.append_nil _).symm, rfl, rfl⟩

theorem acts_nextLine_bind {α : Type} {next : Option String → Dialogue α}
    {x : Except Interruption α × Session} :
    Acts (nextLine pipes >>= next) session log x ↔
      ∃ chunks line pending rest, log = exchanges pipes (chunks.map .heard) ++ rest ∧
        Hears session.pending chunks (line, pending) ∧
        Acts (next line) { session with pending := pending } rest x := by
  rw [acts_bind]
  constructor
  · rintro (⟨e, s', rfl, hline⟩ | ⟨_, s', first, rest, rfl, hline, hrest⟩)
    · obtain ⟨_, _, _, _, _, hx⟩ := acts_nextLine.mp hline
      cases hx
    · obtain ⟨chunks, line, pending, rfl, hhears, hx⟩ := acts_nextLine.mp hline
      cases hx
      exact ⟨chunks, _, pending, rest, rfl, hhears, hrest⟩
  · rintro ⟨chunks, line, pending, rest, rfl, hhears, hrest⟩
    exact .inr ⟨line, _, _, rest, rfl,
      acts_nextLine.mpr ⟨chunks, line, pending, rfl, hhears, rfl⟩, hrest⟩

theorem conclude_failed {interruption : Interruption}
    (hleft : ∀ status, interruption ≠ .leaveShell status)
    (hlimit : ∀ reached, interruption ≠ .limit reached) :
    conclude pipes (.error interruption) = throw interruption := by
  rw [conclude]
  · exact hleft
  · exact hlimit

theorem acts_conclude {result : Except Interruption Unit}
    {x : Except Interruption Bool × Session} :
    Acts (conclude pipes result) session log x ↔
      ∃ events verdict, log = exchanges pipes events ∧ Concludes result events verdict ∧
        x = (verdict, session) := by
  constructor
  · intro h
    cases result with
    | ok _ =>
        obtain ⟨rfl, rfl⟩ := h
        exact ⟨[], _, rfl, .finished, rfl⟩
    | error interruption =>
        by_cases hleft : ∃ status, interruption = .leaveShell status
        · obtain ⟨status, rfl⟩ := hleft
          obtain ⟨rfl, rfl⟩ := h
          exact ⟨[], _, rfl, .left status, rfl⟩
        by_cases hlimit : ∃ reached, interruption = .limit reached
        · obtain ⟨reached, rfl⟩ := hlimit
          obtain ⟨reply, rfl, rfl⟩ := acts_say_return.mp h
          exact ⟨_, _, rfl, .limited reached reply, rfl⟩
        have hleft := not_exists.mp hleft
        have hlimit := not_exists.mp hlimit
        rw [conclude_failed hleft hlimit] at h
        obtain ⟨rfl, rfl⟩ := h
        exact ⟨[], _, rfl, .failed hleft hlimit, rfl⟩
  · rintro ⟨events, verdict, rfl, hverdict, rfl⟩
    cases hverdict with
    | finished => exact ⟨rfl, rfl⟩
    | left status => exact ⟨rfl, rfl⟩
    | limited reached reply => exact acts_say_return.mpr ⟨reply, rfl, rfl⟩
    | failed hleft hlimit =>
        rw [conclude_failed hleft hlimit]
        exact ⟨rfl, rfl⟩

theorem acts_onShell_bind {α β : Type} {body : Action α}
    {next : Except Interruption α → Dialogue β} {x : Except Interruption β × Session} :
    Acts (onShell body >>= next) session log x ↔
      ∃ result shell first rest, log = first ++ rest ∧
        Acts body session.shell first (result, shell) ∧
        Acts (next result) { session with shell := shell } rest x := by
  rw [acts_bind]
  constructor
  · rintro (⟨e, s', rfl, hbody⟩ | ⟨_, _, first, rest, rfl, hbody, hrest⟩)
    · obtain ⟨_, _, _, hx⟩ := acts_onShell.mp hbody
      cases hx
    · obtain ⟨result, shell, hshell, hx⟩ := acts_onShell.mp hbody
      cases hx
      exact ⟨_, shell, first, rest, rfl, hshell, hrest⟩
  · rintro ⟨result, shell, first, rest, rfl, hshell, hrest⟩
    exact .inr ⟨result, _, first, rest, rfl, acts_onShell.mpr ⟨result, shell, hshell, rfl⟩, hrest⟩

theorem acts_runProgram {program : Syntax.Program} {x : Except Interruption Bool × Session} :
    Acts (runProgram executor pipes program) session log x ↔
      ∃ events, log = exchanges pipes events ∧ Performs executor program session events x := by
  rw [runProgram, acts_onShell_bind]
  constructor
  · rintro ⟨result, shell, first, rest, rfl, hrun, hrest⟩
    split at hrest
    · obtain ⟨rfl, rfl⟩ := acts_throw.mp hrest
      exact ⟨[.ran program first (.error .crash)], rfl, .crashed hrun⟩
    · rename_i hcrash
      rw [acts_discard_bind, acts_onShell_bind] at hrest
      obtain ⟨tidied, shell', second, rest, rfl, htidy, hrest⟩ := hrest
      obtain ⟨events, verdict, rfl, hverdict, rfl⟩ := acts_conclude.mp hrest
      exact ⟨.ran program first result :: .tidied second :: events, rfl,
        .ended hrun hcrash htidy hverdict⟩
  · rintro ⟨events, rfl, hperform⟩
    cases hperform with
    | @crashed log shell hrun =>
        exact ⟨.error .crash, shell, log, [], rfl, hrun, acts_throw.mpr ⟨rfl, rfl⟩⟩
    | @ended log second result shell shell' tidied events verdict hrun hcrash htidy hverdict =>
        refine ⟨result, shell, log, second ++ exchanges pipes events, rfl, hrun, ?_⟩
        split
        · exact absurd rfl hcrash
        · rw [acts_discard_bind, acts_onShell_bind]
          exact ⟨tidied, shell', second, _, rfl, htidy,
            acts_conclude.mpr ⟨events, verdict, rfl, hverdict, rfl⟩⟩

theorem acts_takeUp {line : String} {x : Except Interruption Bool × Session} :
    Acts (takeUp executor pipes line) session log x ↔
      ∃ events, log = exchanges pipes events ∧ Takes executor session line events x := by
  rw [takeUp, acts_get_bind]
  cases hattempt : Syntax.Attempt.ofText (session.source ++ line) with
  | complete program =>
      simp only [hattempt]
      rw [acts_modify_bind, acts_runProgram]
      constructor
      · rintro ⟨events, rfl, hperform⟩
        exact ⟨events, rfl, .completed hattempt hperform⟩
      · rintro ⟨events, rfl, htakes⟩
        cases htakes with
        | completed h hperform =>
            cases hattempt.symm.trans h
            exact ⟨events, rfl, hperform⟩
        | continued h => cases hattempt.symm.trans h
        | refused h => cases hattempt.symm.trans h
  | incomplete =>
      simp only [hattempt]
      rw [acts_modify_bind, acts_pure]
      constructor
      · rintro ⟨rfl, rfl⟩
        exact ⟨[], rfl, .continued hattempt⟩
      · rintro ⟨events, rfl, htakes⟩
        cases htakes with
        | completed h => cases hattempt.symm.trans h
        | continued => exact ⟨rfl, rfl⟩
        | refused h => cases hattempt.symm.trans h
  | error e =>
      simp only [hattempt]
      rw [acts_modify_bind, acts_say_return]
      constructor
      · rintro ⟨reply, rfl, rfl⟩
        exact ⟨_, rfl, .refused hattempt reply⟩
      · rintro ⟨events, rfl, htakes⟩
        cases htakes with
        | completed h => cases hattempt.symm.trans h
        | continued h => cases hattempt.symm.trans h
        | refused h reply =>
            cases hattempt.symm.trans h
            exact ⟨reply, rfl, rfl⟩

theorem acts_round {x : Except Interruption Bool × Session} :
    Acts (round executor pipes) session log x ↔
      ∃ events, log = exchanges pipes events ∧ Round executor session events x := by
  have hevents : ∀ size chunks events, exchanges pipes [.said session.prompt (.ok size)] ++
      (exchanges pipes (List.map .heard chunks) ++ exchanges pipes events) =
      exchanges pipes (.said session.prompt (.ok size) :: chunks.map .heard ++ events) := by
    intro size chunks events
    simp [exchanges]
  rw [round, acts_get_bind, acts_say_bind]
  constructor
  · rintro (⟨e, rfl, rfl⟩ | ⟨size, rest, rfl, hrest⟩)
    · exact ⟨_, rfl, .unprompted e⟩
    · obtain ⟨chunks, line, pending, rest, rfl, hhears, hrest⟩ := acts_nextLine_bind.mp hrest
      cases line with
      | some line =>
          obtain ⟨events, rfl, htakes⟩ := acts_takeUp.mp hrest
          exact ⟨_, hevents size chunks events, .took hhears htakes⟩
      | none =>
          rw [acts_get_bind] at hrest
          split at hrest
          · rename_i hsource
            obtain ⟨rfl, rfl⟩ := acts_pure.mp hrest
            rw [List.append_nil]
            exact ⟨_, rfl, .closed hhears (String.isEmpty_iff.mp hsource)⟩
          · rename_i hsource
            obtain ⟨reply, rfl, rfl⟩ := acts_say_return.mp hrest
            exact ⟨_, hevents size chunks _,
              .brokenOff hhears (mt String.isEmpty_iff.mpr hsource) reply⟩
  · rintro ⟨events, rfl, hround⟩
    cases hround with
    | unprompted e => exact .inl ⟨e, rfl, rfl⟩
    | @closed size chunks pending hhears hsource =>
        refine .inr ⟨size, exchanges pipes (chunks.map .heard), rfl, ?_⟩
        refine acts_nextLine_bind.mpr ⟨chunks, none, pending, [], by simp, hhears, ?_⟩
        rw [acts_get_bind, if_pos (String.isEmpty_iff.mpr hsource)]
        exact acts_pure.mpr ⟨rfl, rfl⟩
    | @brokenOff size chunks pending hhears hsource reply =>
        refine .inr ⟨size, _, (hevents size chunks _).symm, ?_⟩
        refine acts_nextLine_bind.mpr ⟨chunks, none, pending, _, rfl, hhears, ?_⟩
        rw [acts_get_bind, if_neg (mt String.isEmpty_iff.mp hsource)]
        exact acts_say_return.mpr ⟨reply, rfl, rfl⟩
    | @took size chunks pending line events _ hhears htakes =>
        refine .inr ⟨size, _, (hevents size chunks events).symm, ?_⟩
        exact acts_nextLine_bind.mpr ⟨chunks, some line, pending, _, rfl, hhears,
          acts_takeUp.mpr ⟨events, rfl, htakes⟩⟩

/-- The runs of a session are its conversations. -/
theorem runs_converse {x : Except Interruption Unit × Shell} :
    (converse executor pipes session).Runs log x ↔
      ∃ events result final, log = exchanges pipes events ∧
        Conversation executor session events (result, final) ∧ x = (result, final.shell) := by
  rw [converse, Proc.runs_repeatFrom]
  constructor
  · intro h
    induction h with
    | stop h =>
        obtain ⟨⟨verdict, final⟩, first, rest, rfl, hacts, hrest⟩ := Proc.runs_bind.mp h
        obtain ⟨events, rfl, hround⟩ := acts_round.mp hacts
        rcases verdict with interruption | _ | _
        · obtain ⟨rfl, hlast⟩ := hrest
          cases hlast
          exact ⟨events, _, final, List.append_nil _, .interrupted hround, rfl⟩
        · obtain ⟨rfl, hlast⟩ := hrest
          cases hlast
          exact ⟨events, _, final, List.append_nil _, .ended hround, rfl⟩
        · obtain ⟨_, hlast⟩ := hrest
          cases hlast
    | again h _ ih =>
        obtain ⟨⟨verdict, next⟩, first, rest, rfl, hacts, hrest⟩ := Proc.runs_bind.mp h
        obtain ⟨events, rfl, hround⟩ := acts_round.mp hacts
        obtain ⟨later, result, final, rfl, hlater, rfl⟩ := ih
        rcases verdict with interruption | _ | _
        · obtain ⟨_, hnext⟩ := hrest
          cases hnext
        · obtain ⟨_, hnext⟩ := hrest
          cases hnext
        · obtain ⟨rfl, hnext⟩ := hrest
          cases hnext
          refine ⟨events ++ later, result, final, ?_, .wentOn hround hlater, rfl⟩
          rw [List.append_nil, exchanges_append]
  · rintro ⟨events, result, final, rfl, h, rfl⟩
    generalize hlast : (result, final) = last at h
    induction h with
    | wentOn hround _ ih =>
        rw [exchanges_append]
        refine .again ?_ (ih hlast)
        exact Proc.runs_bind.mpr ⟨_, _, [], (List.append_nil _).symm,
          acts_round.mpr ⟨_, rfl, hround⟩, rfl, rfl⟩
    | ended hround =>
        cases hlast
        exact .stop (Proc.runs_bind.mpr ⟨_, _, [], (List.append_nil _).symm,
          acts_round.mpr ⟨_, rfl, hround⟩, rfl, rfl⟩)
    | interrupted hround =>
        cases hlast
        exact .stop (Proc.runs_bind.mpr ⟨_, _, [], (List.append_nil _).symm,
          acts_round.mpr ⟨_, rfl, hround⟩, rfl, rfl⟩)

end

end Conch.Session
