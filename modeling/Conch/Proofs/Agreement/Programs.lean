import Conch.Proofs.Agreement.Termination
import Conch.CommandLine.Console

/-!
# Programs and sessions

What agrees for statements agrees for programs, and what is known of the statuses of
statements is known of scripts whose output is captured (`execAll_keeps`), and of
sessions (`Session.task_keeps`), on the console as well (`Console.converse_keeps`).
-/

namespace Conch

open Syntax (Node Program)

/-- Runs the statements of a program in some way, as `runProgram` does. -/
def Action.runStatements (run : Node → Action Int) (program : Program) : Action Unit :=
  program.forM fun statement => do
    match ← (run statement).attempt with
    | .ok _ => return
    | .error (.leaveShell status) =>
        modifyState fun state => { state with status := status }
        throw (.leaveShell status)
    | .error interruption => if interruption.leavesScope then return else throw interruption

theorem Action.runProgram_eq (executor : Executor) (program : Program) :
    runProgram executor program = runStatements (execute executor) program := rfl

section

variable {terms : Terms} {level : Level}

theorem alike_runStatements {run run' : Node → Action Int}
    (h : ∀ statement, Alike terms level terms.statuses (run statement) (run' statement))
    (program : Program) :
    Alike terms level anything (Action.runStatements run program)
      (Action.runStatements run' program) := by
  refine .forM program fun statement _ => (h statement).attempt_bind
    (fun result hresult hcarries => ?_) fun final hfinal => .crashed hfinal
  cases result with
  | ok status => exact .pure trivial
  | error interruption =>
      cases interruption with
      | leaveShell status =>
          exact Alike.andThen (.modifyState (fun _ => rfl) fun _ _ => hcarries status rfl)
            fun _ => .throw (by simp) hcarries
      | crash => exact absurd rfl hresult
      | _ => exact .ite (.pure trivial) (.throw (by simp) hcarries)

/-- The level after the counts are forgotten. -/
def Level.outermost (level : Level) : Level := { level with callDepth := 0 }

theorem agree_reset {shell : Shell} (hholds : shell.Holds terms.toHolding) :
    Agree terms shell.level.outermost anything (Action.reset shell) (Action.reset shell) :=
  alike_reapJobs _ ⟨rfl, hholds.dialect, hholds.status, fun _ _ hnone => nomatch hnone⟩

/-- How a program ends, whatever level it was run on. -/
structure Closes (terms : Terms) {α : Type} (x : Except Interruption α × Shell) : Prop where
  carries : Carries terms.statuses anything x.1
  holds : x.2.Holds terms.toHolding

theorem Agree.closes {α : Type} {P : α → Prop} {p : Proc (Except Interruption α × Shell)}
    (h : Agree terms level P p p) : p.Keeps terms.promise (Closes terms) := by
  refine h.mirrors.mono fun x hx => ⟨?_, hx.holds⟩
  obtain ⟨result, final⟩ := x
  cases result with
  | ok a => trivial
  | error interruption => exact hx.carries

end

/-! ## Programs with a state -/

namespace Proc.Keeps

variable {promise : Outcome → Prop} {σ α β : Type} {P : α × σ → Prop} {Q : β × σ → Prop} {s : σ}

theorem stateBind {body : StateT σ Proc α} {next : α → StateT σ Proc β}
    (h : (body s).Keeps promise P)
    (hnext : ∀ a s', P (a, s') → (next a s').Keeps promise Q) :
    ((body >>= next) s).Keeps promise Q :=
  Mirrors.bind h fun (a, s') hx => hnext a s' hx

theorem stateModify {change : σ → σ} {next : PUnit → StateT σ Proc β}
    (hnext : (next ⟨⟩ (change s)).Keeps promise Q) :
    ((modify change >>= next) s).Keeps promise Q := hnext

theorem stateRequest (r : Request) {next : r.Reply → StateT σ Proc β}
    (hnext : ∀ reply, (next reply s).Keeps promise Q) :
    (((liftM (Proc.request r) : StateT σ Proc r.Reply) >>= next) s).Keeps promise Q :=
  .ask fun reply _ => hnext reply

theorem tryBind {ε : Type} {R : Except ε α × σ → Prop} {S : Except ε β × σ → Prop}
    {body : ExceptT ε (StateT σ Proc) α} {next : α → ExceptT ε (StateT σ Proc) β}
    (h : (body s).Keeps promise R) (hnext : ∀ a s', R (.ok a, s') → (next a s').Keeps promise S)
    (herror : ∀ e s', R (.error e, s') → S (.error e, s')) :
    ((body >>= next) s).Keeps promise S := by
  refine Mirrors.bind h fun x hx => ?_
  obtain ⟨result, s'⟩ := x
  cases result with
  | ok a => exact hnext a s' hx
  | error e => exact .done (herror e s' hx)

end Proc.Keeps

/-! ## Captured scripts -/

section

variable {terms : Terms}

theorem complain_keeps (message : String) (shell : Shell) :
    (Shell.complain message shell).Keeps terms.promise fun x => x.2 = shell := by
  have hrun : Shell.complain message shell =
      (shell.streams.errors.write (diagnostic message)).bind fun _ => .done ((), shell) := by
    change (((shell.streams.errors.write (diagnostic message)).bind fun written =>
      .done (written.mapError Interruption.stream)).bind fun result => .done (result, shell)).bind
        _ = _
    simp only [Proc.bind_assoc]
    rfl
  rw [hrun]
  have hwrite : (shell.streams.errors.write (diagnostic message)).Keeps terms.promise anything :=
    (Output.write_asks _ _).keeps (Proc.Returns.trivial _)
  exact Proc.Mirrors.bind hwrite fun _ _ => .done rfl

/-- The status of a run is that of its end, or one of those for errors. -/
theorem runStatus_keeps {result : Except Interruption Unit}
    (hcarries : Carries terms.statuses anything result) {shell : Shell}
    (hstatus : terms.statuses shell.state.status) :
    (Shell.runStatus result shell).Keeps terms.promise fun x =>
      terms.statuses x.1 ∧ x.2 = shell := by
  have hcomplaint : ∀ (message : String) {status : Int}, terms.statuses status →
      ((do Shell.complain message; return status : StateT Shell Proc Int) shell).Keeps
        terms.promise fun x => terms.statuses x.1 ∧ x.2 = shell := fun message _ hstatus =>
    .stateBind (complain_keeps message shell) fun _ _ hsame => .done ⟨hstatus, hsame⟩
  have hfailed : terms.statuses 1 := terms.status_of_nat (by decide)
  cases result with
  | ok _ => exact .done ⟨hstatus, rfl⟩
  | error interruption =>
      cases interruption with
      | leaveShell status => exact .done ⟨hcarries status rfl, rfl⟩
      | limit reached => exact hcomplaint _ (terms.status_of_nat (by decide))
      | stream e => exact hcomplaint _ hfailed
      | _ => exact hcomplaint _ hfailed

variable {executor : Executor} (hexecutor : executor.Supports terms)

include hexecutor

theorem alike_runProgram {level : Level} (program : Program) :
    Alike terms level anything (Action.runProgram executor program)
      (Action.runProgram executor program) := by
  rw [Action.runProgram_eq]
  exact alike_runStatements (fun statement shell hshell =>
    (alike_execute hexecutor statement shell hshell).left) program

theorem capture_keeps (program : Program) {shell : Shell} (hholds : shell.Holds terms.toHolding) :
    (Shell.capture executor program shell).Keeps terms.promise fun x =>
      terms.statuses x.1.status ∧ x.2.Holds terms.toHolding := by
  refine .stateRequest _ fun output => .stateRequest _ fun errors => .stateModify ?_
  have hready : Shell.Holds terms.toHolding
      { shell with streams := ⟨none, .buffer output, .buffer errors⟩ } := hholds.congr rfl
  have hrun := ((agree_reset hready).andThen fun _ final _ hfinal =>
    alike_runProgram hexecutor program final hfinal).mirrors
  refine .stateBind hrun fun result final hended => ?_
  have hreport := runStatus_keeps hended.carries hended.holds.status
  refine .stateBind hreport fun status _ hreported => ?_
  obtain ⟨hreached, rfl⟩ := hreported
  refine .stateModify (.stateRequest _ fun written => .stateRequest _ fun complaints => ?_)
  exact Proc.Mirrors.done ⟨hreached, hended.holds.dialect, hreached, hended.holds.substitution⟩

theorem exec_keeps (script : String) {shell : Shell} (hholds : shell.Holds terms.toHolding) :
    (Shell.exec executor script shell).Keeps terms.promise fun x =>
      terms.statuses x.1.status ∧ x.2.Holds terms.toHolding := by
  rw [Shell.exec]
  cases Syntax.parse script with
  | error e => exact Proc.Mirrors.done ⟨terms.status_of_nat (by decide), hholds⟩
  | ok program => exact capture_keeps hexecutor program hholds

/-- Scripts that are run one after another in a shell. -/
theorem execAll_keeps (scripts : List String) {shell : Shell}
    (hholds : shell.Holds terms.toHolding) :
    ((scripts.mapM (Shell.exec executor) : StateT Shell Proc (List Completion)) shell).Keeps
      terms.promise fun x => (∀ completion ∈ x.1, terms.statuses completion.status) ∧
        x.2.Holds terms.toHolding := by
  induction scripts generalizing shell with
  | nil => exact Proc.Mirrors.done ⟨fun _ hnone => (nomatch hnone), hholds⟩
  | cons script scripts ih =>
      rw [List.mapM_cons]
      refine .stateBind (exec_keeps hexecutor script hholds) fun completion _ hx => ?_
      refine .stateBind (ih hx.2) fun completions _ hrest => Proc.Mirrors.done ⟨?_, hrest.2⟩
      exact List.forall_mem_cons.mpr ⟨hx.1, hrest.1⟩

end

/-! ## Sessions -/

namespace Session

/-- How a part of a session ends. -/
structure Goes (terms : Terms) {α : Type} (x : Except Interruption α × Session) : Prop where
  carries : Carries terms.statuses anything x.1
  holds : x.2.shell.Holds terms.toHolding

/-- A part of a session that keeps to the terms. -/
def Steady (terms : Terms) {α : Type} (body : Dialogue α) : Prop :=
  ∀ session : Session, session.shell.Holds terms.toHolding →
    (body session).Keeps terms.promise (Goes terms)

section

variable {terms : Terms} {α β : Type} {pipes : SessionPipes}

theorem steady_pure (a : α) : Steady terms (pure a) :=
  fun _ hholds => Proc.Mirrors.done ⟨trivial, hholds⟩

theorem Steady.bind {body : Dialogue α} {next : α → Dialogue β} (h : Steady terms body)
    (hnext : ∀ a, Steady terms (next a)) : Steady terms (body >>= next) :=
  fun session hholds => .tryBind (h session hholds) (fun a session hx => hnext a session hx.holds)
    fun _ _ hx => ⟨hx.carries, hx.holds⟩

theorem steady_get {next : Session → Dialogue β} (h : ∀ session, Steady terms (next session)) :
    Steady terms (get >>= next) := fun session => h session session

theorem steady_source (source : String) {body : Dialogue β} (h : Steady terms body) :
    Steady terms (do modify fun session => { session with source := source }; body) :=
  fun _ hholds => h _ hholds

theorem steady_say (text : String) : Steady terms (say pipes text) := by
  refine fun session hholds => Proc.Mirrors.ask fun sent _ => .done ⟨?_, hholds⟩
  cases sent with
  | ok _ => trivial
  | error e => exact fun _ hnone => nomatch hnone

theorem lookForLine_asks (input : PipeId) (pending : Text.Bytes) :
    (lookForLine input pending).Asks := by
  unfold lookForLine
  split
  · exact .done _
  · refine (Proc.Asks.request _).andThen fun chunk => ?_
    split
    · split <;> exact .done _
    · exact .done _

theorem steady_nextLine : Steady terms (nextLine pipes) := fun _ hholds =>
  Proc.Mirrors.bind (Proc.Asks.repeatFrom_keeps (lookForLine_asks pipes.input) _)
    fun _ _ => .done ⟨trivial, hholds⟩

/-- An action on the shell, of which an interruption is a result. -/
theorem steady_onShell {body : Action α} {next : Except Interruption α → Dialogue β}
    (hbody : ∀ shell : Shell, shell.Holds terms.toHolding →
      (body shell).Keeps terms.promise (Closes terms))
    (hnext : ∀ result, Carries terms.statuses anything result → Steady terms (next result)) :
    Steady terms (onShell body >>= next) := by
  intro session hholds
  have hended : (onShell body session).Keeps terms.promise fun x =>
      ∃ y, Closes terms y ∧ x = (.ok y.1, { session with shell := y.2 }) :=
    Proc.Mirrors.bind (hbody session.shell hholds) fun y hy => .done ⟨y, hy, rfl⟩
  refine .tryBind hended (fun _ _ hx => ?_) fun _ _ ⟨_, _, hx⟩ => (nomatch hx)
  obtain ⟨⟨result, shell⟩, hclosed, heq⟩ := hx
  cases heq
  exact hnext result hclosed.carries _ hclosed.holds

theorem steady_reset : Steady terms (discard (onShell Action.reset) : Dialogue PUnit) := by
  have hdiscard : (discard (onShell Action.reset) : Dialogue PUnit) =
      onShell Action.reset >>= fun _ => pure ⟨⟩ := rfl
  rw [hdiscard]
  exact steady_onShell (fun shell hholds => (agree_reset hholds).closes) fun _ _ => steady_pure _

theorem steady_conclude {result : Except Interruption Unit}
    (hcarries : Carries terms.statuses anything result) :
    Steady terms (conclude pipes result) := by
  cases result with
  | ok _ => exact steady_pure true
  | error interruption =>
      cases interruption with
      | leaveShell status => exact steady_pure false
      | limit reached => exact (steady_say _).bind fun _ => steady_pure true
      | _ => exact fun _ hholds => Proc.Mirrors.done ⟨hcarries, hholds⟩

end

section

variable {terms : Terms} {executor : Executor} (hexecutor : executor.Supports terms)
variable {pipes : SessionPipes}

include hexecutor

theorem steady_runProgram (program : Syntax.Program) :
    Steady terms (runProgram executor pipes program) := by
  refine steady_onShell (fun shell hholds =>
    (alike_runProgram hexecutor program shell ⟨rfl, hholds⟩).closes) fun result hcarries => ?_
  split
  · exact fun _ hholds => Proc.Mirrors.done ⟨hcarries, hholds⟩
  · exact steady_reset.bind fun _ => steady_conclude hcarries

theorem steady_takeUp (line : String) : Steady terms (takeUp executor pipes line) := by
  refine steady_get fun session => ?_
  dsimp only
  split
  · exact steady_source _ (steady_pure true)
  · exact steady_source _ ((steady_say _).bind fun _ => steady_pure true)
  · exact steady_source _ (steady_runProgram hexecutor _)

theorem steady_round : Steady terms (round executor pipes) := by
  refine steady_get fun session => (steady_say _).bind fun _ => steady_nextLine.bind fun line => ?_
  cases line with
  | none =>
      refine steady_get fun session => ?_
      split
      · exact steady_pure false
      · exact (steady_say _).bind fun _ => steady_pure false
  | some line => exact steady_takeUp hexecutor line

theorem converse_keeps {session : Session} (hholds : session.shell.Holds terms.toHolding) :
    (converse executor pipes session).Keeps terms.promise (Closes terms) := by
  refine .iterate (I := fun session : Session => session.shell.Holds terms.toHolding)
    (L := Closes terms) hholds (fun session hholds => ?_) fun _ hlast => .done hlast
  refine Proc.Mirrors.bind (steady_round hexecutor session hholds) fun x hx => ?_
  obtain ⟨result, session⟩ := x
  cases result with
  | ok goesOn =>
      cases goesOn with
      | true => exact .done hx.holds
      | false => exact .done ⟨trivial, hx.holds⟩
  | error interruption => exact .done ⟨hx.carries, hx.holds⟩

theorem run_keeps {shell : Shell} (hholds : shell.Holds terms.toHolding) :
    (run executor pipes shell).Keeps terms.promise (Closes terms) := by
  refine Proc.Mirrors.bind (converse_keeps hexecutor (hholds.congr rfl)) fun x hx => ?_
  obtain ⟨result, shell⟩ := x
  dsimp only
  split
  · exact .done hx
  · exact .ask fun _ _ => .done hx

theorem task_keeps {shell : Shell} (hholds : shell.Holds terms.toHolding) :
    (task executor pipes shell).Keeps terms.promise terms.promise := by
  refine Proc.Mirrors.bind (run_keeps hexecutor hholds) fun x hx => .done ⟨?_, hx.holds.status⟩
  obtain ⟨result, shell⟩ := x
  cases result with
  | ok _ => exact hx.holds.status
  | error interruption => exact hx.carries

end

end Session

/-! ## The console -/

namespace Console

theorem writeErrors_asks (text : String) : (writeErrors text).Asks := by
  unfold writeErrors
  split
  · exact .ask fun _ => .done _
  · exact .done _

theorem sendLine_asks (input : PipeId) (line : Text.Bytes) : (sendLine input line).Asks := by
  unfold sendLine
  split
  · exact .done _
  · exact .ask fun _ => .done _

variable {promise : Outcome → Prop}

theorem feed_keeps (input : PipeId) : (feed input).Keeps promise anything := by
  refine Proc.Mirrors.bind (Proc.Asks.repeatFrom_keeps (fun pending => ?_) _)
    fun _ _ => .ask fun _ _ => .done trivial
  split
  · refine (sendLine_asks _ _).andThen fun sent => ?_
    split <;> exact .done _
  · refine (Proc.Asks.request (.call _)).andThen fun reply => ?_
    split
    · exact .done _
    · dsimp only
      split
      · exact ((sendLine_asks _ _).andThen fun _ => .done _).andThen fun _ => .done _
      · exact .done _
    · exact .done _

theorem drain_keeps (output : PipeId) : (drain output).Keeps promise anything := by
  refine Proc.Mirrors.bind (Proc.Asks.repeatFrom_keeps (fun _ => ?_) _)
    fun _ _ => .ask fun _ _ => .done trivial
  refine .ask fun chunk => ?_
  cases chunk with
  | nil => exact .done _
  | cons byte rest =>
      refine .ask fun written => ?_
      cases written <;> exact .done _

variable {terms : Terms} {executor : Executor}

theorem converse_keeps (hexecutor : executor.Supports terms) {shell : Shell}
    (hholds : shell.Holds terms.toHolding) :
    (converse executor shell).Keeps terms.promise terms.statuses := by
  refine .ask fun input _ => .ask fun output _ => ?_
  refine .fork (Proc.Mirrors.bind (feed_keeps input) fun _ _ => .done trivial) fun _ => ?_
  refine .fork (Proc.Mirrors.bind (drain_keeps output) fun _ _ => .done trivial) fun drainer => ?_
  refine .fork (Session.task_keeps hexecutor hholds) fun session => ?_
  refine .ask fun outcome houtcome => ?_
  have hfinish : ∀ status, terms.statuses status → Proc.Keeps terms.promise terms.statuses (do
      discard (Proc.request (.join drainer))
      Proc.request (.closePipe input)
      return status) := fun status hstatus => .ask fun _ _ => .ask fun _ _ => .done hstatus
  cases outcome with
  | shell result state =>
      cases result with
      | ok status => exact hfinish status houtcome.1
      | error interruption =>
          have hreport : (writeErrors (diagnostic interruption.message)).Keeps terms.promise
              anything := (writeErrors_asks _).keeps (Proc.Returns.trivial _)
          exact hreport.bind fun _ _ => hfinish 1 (terms.status_of_nat (by decide))
  | _ => exact hfinish 0 (terms.status_of_nat (by decide))

end Console

end Conch
