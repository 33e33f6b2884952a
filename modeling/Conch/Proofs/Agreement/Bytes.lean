import Conch.CommandLine.Run
import Conch.Proofs.Agreement.Programs
import Conch.Proofs.World.Mirrors

/-!
# Statuses are bytes

Statuses come from external commands, from the arguments of builtins, from limits,
errors and crashes, and from jobs, and they go on by results, by interruptions and by the
state of the shell.  If those of the external commands are bytes, all others are
(`statuses_stay_bytes`), so the status of the process is that of the script.  A listener
that is told the statuses at every statement and expansion makes sure of those that are
soon overwritten.
-/

namespace Conch

open Syntax (Node Program)

def IsByte (status : Int) : Prop := 0 ≤ status ∧ status < 256

instance : DecidablePred IsByte := fun status =>
  inferInstanceAs (Decidable (0 ≤ status ∧ status < 256))

theorem CommandLine.processStatus_eq {status : Int} (h : IsByte status) :
    (processStatus status : Int) = status := by
  obtain ⟨_, _⟩ := h
  rw [processStatus]
  omega

/-- The external commands, and the tasks that they start, end with bytes if the tasks that they
wait for do. -/
def Executor.ReturnsBytes (executor : Executor) : Prop :=
  ∀ command streams, (executor command streams).Keeps (Outcome.Keeps IsByte)
    fun result => ∀ status, result = .ok status → IsByte status

/-- The statuses are bytes, but for one that is left over from a substitution. -/
def Terms.byte : Terms where
  dialect := .embedded
  statuses := IsByte
  leftover := True
  crashes := True
  ends := False
  bytes _ h h' := ⟨h, h'⟩
  free := .inl ⟨trivial, not_false⟩

theorem Executor.ReturnsBytes.supports {executor : Executor} (h : executor.ReturnsBytes) :
    executor.Supports .byte :=
  ⟨h, fun _ _ _ _ => trivial, False.elim, .inl rfl⟩

theorem Shell.holds_byte {shell : Shell} (hdialect : shell.dialect = .embedded)
    (hstatus : IsByte shell.state.status) : shell.Holds Terms.byte.toHolding :=
  ⟨hdialect, hstatus, fun hsettled => absurd trivial hsettled⟩

/-! ## Listeners -/

/-- Tells the status of the shell before and after an action, and the one that its result is or
carries. -/
def Action.telling {α : Type} (tell : Int → Proc Unit)
    (told : Except Interruption α → Option Int) (body : Action α) : Action α := fun shell => do
  tell shell.state.status
  let (result, final) ← body shell
  (told result).forM tell
  tell final.state.status
  return (result, final)

/-- The status of a statement, or that of the interruption that it ends with. -/
def statementStatus? : Except Interruption Int → Option Int
  | .ok status => some status
  | .error interruption => interruption.status?

/-- An expansion has a status only if it is interrupted. -/
def expansionStatus? : Except Interruption Fields → Option Int
  | .ok _ => none
  | .error interruption => interruption.status?

/-- Tells all statuses of statements and expansions. -/
def Hooks.telling (tell : Int → Proc Unit) (exhausted : Evaluator) : Hooks :=
  ⟨.telling tell statementStatus?, .telling tell expansionStatus?, exhausted⟩

section

variable {terms : Terms} {level : Level} {tell : Int → Proc Unit}

/-- To a listener who is silent about such statuses nothing else is told. -/
theorem alike_telling {α : Type} {Q : α → Prop} {told : Except Interruption α → Option Int}
    {body other : Action α} (h : Alike terms level Q body other)
    (hsilent : ∀ status, terms.statuses status → tell status = .done ())
    (htold : ∀ result status, Carries terms.statuses Q result → told result = some status →
      terms.statuses status) : Alike terms level Q body (other.telling tell told) := by
  intro shell hshell
  obtain ⟨haccord, hcrash⟩ := h shell hshell
  refine ⟨?_, hcrash⟩
  have hrun : other.telling tell told shell = (tell shell.state.status).bind fun _ =>
      (other shell).bind fun x => ((told x.1).forM tell).bind fun _ =>
        (tell x.2.state.status).bind fun _ => .done (x.1, x.2) := rfl
  rw [hrun, hsilent _ hshell.holds.status, Proc.bind, ← Proc.bind_done (body shell)]
  refine haccord.bind fun x hx => ?_
  have hresult : (told x.1).forM tell = .done () := by
    cases hstatus : told x.1 with
    | none => rfl
    | some status => exact hsilent status (htold x.1 status hx.carries hstatus)
  rw [hresult, Proc.bind, hsilent _ hx.holds.status, Proc.bind]
  exact .done hx

theorem Hooks.telling_spare (hsilent : ∀ status, terms.statuses status → tell status = .done ())
    (exhausted : Evaluator) : (Hooks.telling tell exhausted).Spare terms level where
  execute h := by
    refine alike_telling h hsilent fun result status hcarries htold => ?_
    cases result with
    | ok reached =>
        cases htold
        exact hcarries
    | error interruption => exact hcarries status htold
  expand h := by
    refine alike_telling h hsilent fun result status hcarries htold => ?_
    cases result with
    | ok fields => cases htold
    | error interruption => exact hcarries status htold

end

/-! ## All statuses -/

/-- In every world that is reached the tasks that ended have bytes as their statuses, and the
result of the program, if it ended, has the property. -/
def Proc.StaysInBytes {α : Type} (p : Proc α) (P : α → Prop) : Prop :=
  ∀ world, (World.start p).Reaches world →
    world.Honours (fun outcome => IsByte outcome.status ∧ outcome.Keeps IsByte) P

theorem Proc.Keeps.staysInBytes {α : Type} {p : Proc α} {P Q : α → Prop}
    (h : p.Keeps Terms.byte.promise P) (hPQ : ∀ a, P a → Q a) : p.StaysInBytes Q :=
  fun _ hreaches => (h.reaches hreaches).mono
    (fun _ houtcome => ⟨Terms.byte.status_of_promise houtcome, houtcome⟩) hPQ

/-- The result is or carries a byte, and the status of the shell is one. -/
def EndsInBytes {α : Type} (P : α → Prop) (x : Except Interruption α × Shell) : Prop :=
  Carries IsByte P x.1 ∧ IsByte x.2.state.status

/-- A program executed with hooks. -/
def Action.runHooked (hooks : Hooks) (executor : Executor) (program : Program) : Action Unit :=
  runStatements (executeHooked hooks executor) program

section

variable {executor : Executor} (hexecutor : executor.ReturnsBytes) {shell : Shell}
  (hholds : shell.Holds Terms.byte.toHolding)

include hexecutor hholds

theorem execute_staysInBytes (node : Node) :
    (execute executor node shell).StaysInBytes (EndsInBytes IsByte) := by
  have hnode := (alike_execute hexecutor.supports node shell ⟨rfl, hholds⟩).left
  exact Proc.Keeps.staysInBytes hnode.mirrors fun _ hx => ⟨hx.carries, hx.holds.status⟩

theorem runProgram_staysInBytes (program : Program) :
    (Action.runProgram executor program shell).StaysInBytes (EndsInBytes anything) := by
  have hprogram := alike_runProgram hexecutor.supports program shell ⟨rfl, hholds⟩
  exact Proc.Keeps.staysInBytes hprogram.mirrors fun _ hx => ⟨hx.carries, hx.holds.status⟩

/-- A listener who is silent about bytes has nothing to say. -/
theorem runTelling_mirrors {tell : Int → Proc Unit}
    (hsilent : ∀ status, IsByte status → tell status = .done ()) (exhausted : Evaluator)
    (program : Program) :
    (Action.runHooked (.telling tell exhausted) executor program shell).Mirrors
      (Outcome.Keeps IsByte) (EndsInBytes anything) (Action.runProgram executor program shell) := by
  have hspare : (Hooks.telling tell exhausted).SpareOn (fun _ => True) .byte := fun _ _ =>
    ⟨Hooks.telling_spare hsilent exhausted, Hooks.telling_spare hsilent exhausted⟩
  have hstatement : ∀ statement, Alike .byte shell.level IsByte (execute executor statement)
      (executeHooked (.telling tell exhausted) executor statement) :=
    executeHooked_alike hexecutor.supports hspare (fun _ _ _ => trivial) trivial
  rw [Action.runProgram_eq]
  have hprogram := alike_runStatements hstatement program shell ⟨rfl, hholds⟩
  exact (hprogram.mirrors.mono fun _ hx => ⟨hx.carries, hx.holds.status⟩).symm

end

/-- If the status of the shell and those of the external commands are bytes, then in every order
of turns and whatever the replies are the statuses of statements and of jobs, those that
interruptions carry and that shells are left with are bytes.  A listener who is told these
all the way changes nothing by acting on others.  So reducing a status modulo 256 changes it
neither after scripts nor after a session. -/
theorem statuses_stay_bytes (executor : Executor) (hexecutor : executor.ReturnsBytes)
    (shell : Shell) (hdialect : shell.dialect = .embedded) (hstatus : IsByte shell.state.status) :
    (∀ node, (execute executor node shell).StaysInBytes (EndsInBytes IsByte)) ∧
    (∀ program, (Action.runProgram executor program shell).StaysInBytes (EndsInBytes anything)) ∧
    (∀ (tell : Int → Proc Unit) exhausted program,
      (∀ status, IsByte status → tell status = .done ()) →
      (Action.runHooked (.telling tell exhausted) executor program shell).RunsLike
        (Outcome.Keeps IsByte) (EndsInBytes anything)
        (Action.runProgram executor program shell)) ∧
    (∀ scripts : List String,
      ((scripts.mapM (Shell.exec executor) : StateT Shell Proc (List Completion))
        shell).StaysInBytes fun x => (∀ completion ∈ x.1, IsByte completion.status ∧
          (CommandLine.processStatus completion.status : Int) = completion.status) ∧
          IsByte x.2.state.status) ∧
    (Console.converse executor shell).StaysInBytes fun status =>
      IsByte status ∧ (CommandLine.processStatus status : Int) = status := by
  have hholds := Shell.holds_byte hdialect hstatus
  have hsupports := hexecutor.supports
  refine ⟨execute_staysInBytes hexecutor hholds, runProgram_staysInBytes hexecutor hholds,
    fun tell exhausted program hsilent => ?_, fun scripts => ?_, ?_⟩
  · exact (runTelling_mirrors hexecutor hholds hsilent exhausted program).runsLike
  · exact (execAll_keeps hsupports scripts hholds).staysInBytes fun x hx => ⟨fun completion hmem =>
      ⟨hx.1 completion hmem, CommandLine.processStatus_eq (hx.1 completion hmem)⟩, hx.2.status⟩
  · exact (Console.converse_keeps hsupports hholds).staysInBytes fun status hstatus =>
      ⟨hstatus, CommandLine.processStatus_eq hstatus⟩

/-! A shell that is left with a negative status, in which external commands would fail. -/

def Executor.failing : Executor := fun _ _ => .done (.ok 255)

def Syntax.Node.exitNegative : Node :=
  .command [.word [.literal "exit"], .word [.literal "-1"]] false

/-- Asks for something when it is told a status that is no byte. -/
def loudListener (status : Int) : Proc Unit :=
  if IsByte status then .done () else .request .command

theorem exitNegative_stays_byte :
    Executor.failing.ReturnsBytes ∧ Shell.selfCalling.dialect = .embedded ∧
      IsByte Shell.selfCalling.state.status ∧
      (∃ log final, Acts (execute .failing .exitNegative) .selfCalling log
        (.error (.leaveShell 255), final)) ∧
      (execute .failing .exitNegative .selfCalling).StaysInBytes (EndsInBytes IsByte) ∧
      (Action.runHooked (.telling loudListener (evaluator .failing (fun _ => pure 0) 0)) .failing
        [.exitNegative] .selfCalling).RunsLike (Outcome.Keeps IsByte) (EndsInBytes anything)
        (Action.runProgram .failing [.exitNegative] .selfCalling) := by
  have hfailing : Executor.failing.ReturnsBytes := by
    refine fun command streams => Proc.Mirrors.done ?_
    rintro _ ⟨⟩
    decide
  have hzero : IsByte Shell.selfCalling.state.status := by decide
  obtain ⟨hexecute, _, htelling, _⟩ :=
    statuses_stay_bytes .failing hfailing .selfCalling rfl hzero
  refine ⟨hfailing, rfl, hzero, exists_interrupted (show isInterrupted
    (execute .failing .exitNegative) .selfCalling (.leaveShell 255) = true by decide +kernel),
    hexecute _, htelling loudListener _ _ fun status hstatus => if_pos hstatus⟩

end Conch
