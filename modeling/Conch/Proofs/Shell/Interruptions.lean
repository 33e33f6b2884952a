import Conch.Proofs.Agreement.Termination
import Conch.Shell.Script

/-!
# What may interrupt a statement

A statement reports the failures of its commands, and it is left by `return` only inside
a function.  Control flow ends with the copy of the shell that it was raised in: none
leaves a subshell, a stage of a pipeline, a substitution or a job.  So a program stops
early only when the shell is left, at a limit, or when a stream fails
(`execute_interruptions`).
-/

namespace Conch

open Syntax (Node Program)

/-- What a program may stop with before its end. -/
inductive Interruption.EndsRun : Interruption → Prop where
  | leaveShell (status : Int) : EndsRun (.leaveShell status)
  | limit (reached : LimitReached) : EndsRun (.limit reached)
  | stream (e : StreamError) : EndsRun (.stream e)

/-- The statement hands its parts to copies of the shell. -/
def Syntax.Node.runsOnCopies : Node → Bool
  | .subshell _ => true
  | .binary .pipe _ _ => true
  | .command _ background => background
  | _ => false

namespace Contract

theorem quiet_recording {body : Action Int} (h : quiet.Holds body) :
    quiet.Holds (Action.recording body) := by
  have hrecord : ∀ status, quiet.Holds
      (Action.modifyState fun state => { state with status := status }) := fun status =>
    quiet_modify fun _ => ⟨rfl, rfl, rfl, rfl, rfl, rfl⟩
  intro shell hready
  refine .attempt_bind (h shell hready) fun result next log last final hmeets hacts => ?_
  cases result with
  | ok status =>
      have hrest := (hrecord status).bind fun _ => Holds.pure status
      exact (hrest next trivial _ _ _ hacts).after hmeets.keeps_ok
  | error interruption =>
      dsimp only at hacts
      split at hacts
      · rename_i hlocal
        have hkeeps := hmeets.kept fun heq => by
          cases heq
          cases hlocal
        have hrest := (quiet_report interruption).bind fun status =>
          (hrecord status).bind fun _ => Holds.pure status
        exact (hrest next trivial _ _ _ hacts).after hkeeps
      · exact hmeets.rethrow id id (hmeets.allowed _ rfl) hacts

/-- No control flow leaves a statement that hands its parts to copies. -/
theorem quiet_execute (executor : Executor) {node : Node} (h : node.runsOnCopies = true) :
    quiet.Holds (execute executor node) := by
  rw [execute_eq]
  refine quiet_recording ?_
  cases node with
  | subshell body => exact quiet_inSubshell _ _
  | binary op left right =>
      cases op with
      | pipe => exact quiet_runPipe _ _ _
      | _ => cases h
  | command args background =>
      cases background with
      | true => exact quiet_countCommand.bind fun _ => quiet_startJob _ _ _ _
      | false => cases h
  | _ => cases h

/-- Nor does any leave a word. -/
theorem quiet_expand (executor : Executor) (isQuoted : Bool) (part : Node) (fields : Fields) :
    quiet.Holds (expand executor isQuoted part fields) := by
  refine .get_bind fun shell => (evaluator_tidy False [] executor ?_ part.height).expand _ _ _
  exact fun isCalm body hbody =>
    (executeWithin_tidy False [] executor _ isCalm hbody).weaken (reported_implies _)

/-- Ends as a program may end, and crashes only if an external command can. -/
def stopping (executor : Executor) : Contract where
  ready _ := True
  keeps _ _ := True
  allows _ interruption := interruption.EndsRun ∨ interruption = .crash ∧ ¬executor.IsSafe
  refl _ := trivial
  trans _ _ := trivial
  stays _ _ := trivial
  inherits _ h := h

end Contract

section

variable {executor : Executor} {node : Node} {shell final : Shell} {log : List Exchange}
variable {interruption : Interruption}

theorem execute_interrupted
    (hacts : Acts (execute executor node) shell log (.error interruption, final)) :
    interruption.isLocal = false ∧
      ∀ status, interruption = .leaveFunction status → 0 < shell.state.callDepth := by
  obtain ⟨hallows, hlocal⟩ := Contract.Holds.interrupted hacts (fun h => h.elim)
    (execute_tidy False [] executor false fun h => h.elim)
  refine ⟨hlocal, ?_⟩
  rintro status rfl
  exact hallows

/-- What is left over when a program drops the control flow that no construct took up. -/
theorem endsRun_of_execute
    (hacts : Acts (execute executor node) shell log (.error interruption, final))
    (hscope : interruption.leavesScope = false) :
    interruption.EndsRun ∨ interruption = .crash ∧ ¬executor.IsSafe := by
  obtain ⟨hlocal, _⟩ := execute_interrupted hacts
  cases interruption with
  | leaveShell status => exact .inl (.leaveShell status)
  | limit reached => exact .inl (.limit reached)
  | stream e => exact .inl (.stream e)
  | crash => exact .inr ⟨rfl, fun hsafe => execute_ne_crash hsafe hacts rfl⟩
  | breakLoops levels => cases hscope
  | continueLoop levels => cases hscope
  | leaveFunction status => cases hscope
  | command fault => cases hlocal
  | arithmetic text fault => cases hlocal
  | substitution text fault => cases hlocal

end

theorem Contract.stopping_runProgram (executor : Executor) (program : Program) :
    (stopping executor).Holds (Action.runProgram executor program) := by
  refine .forM program fun node _ shell _ log last final hacts => ?_
  obtain ⟨result, next, first, later, rfl, hfirst, hlater⟩ := acts_attempt_bind.mp hacts
  refine ⟨fun _ => trivial, ?_⟩
  rintro raised rfl
  split at hlater
  · obtain ⟨_, hx⟩ := acts_pure.mp hlater
    cases hx
  · rename_i status
    rw [Action.modifyState, acts_modify_bind] at hlater
    obtain ⟨_, hx⟩ := acts_throw.mp hlater
    cases hx
    exact endsRun_of_execute hfirst rfl
  · rename_i interruption _
    split at hlater
    · obtain ⟨_, hx⟩ := acts_pure.mp hlater
      cases hx
    · rename_i hscope
      obtain ⟨_, hx⟩ := acts_throw.mp hlater
      cases hx
      exact endsRun_of_execute hfirst (Bool.eq_false_iff.mpr hscope)

/-- A statement is never left by a failure of a command, and by `return` only inside a function;
by no control flow at all, if its parts run on copies of the shell.  The words of a
statement, with the substitutions in them, and the end of a job raise none in the shell
either.  So a program that stops early was told to, reached a limit or lost a stream. -/
theorem execute_interruptions (executor : Executor) :
    (∀ node shell log interruption final,
      Acts (execute executor node) shell log (.error interruption, final) →
        interruption.isLocal = false ∧
        (∀ status, interruption = .leaveFunction status → 0 < shell.state.callDepth) ∧
        (node.runsOnCopies = true → interruption.isControl = false)) ∧
    (∀ isQuoted part fields shell log interruption final,
      Acts (expand executor isQuoted part fields) shell log (.error interruption, final) →
        interruption.isControl = false) ∧
    (∀ args shell log interruption final,
      Acts (Builtin.wait.run args) shell log (.error interruption, final) →
        interruption.isControl = false) ∧
    (∀ program shell log interruption final,
      Acts (Action.runProgram executor program) shell log (.error interruption, final) →
        interruption.EndsRun ∨ interruption = .crash ∧ ¬executor.IsSafe) := by
  refine ⟨fun node shell log interruption final hacts => ?_, ?_, ?_, ?_⟩
  · obtain ⟨hlocal, hreturn⟩ := execute_interrupted hacts
    exact ⟨hlocal, hreturn, fun hcopies =>
      Contract.Holds.interrupted hacts trivial (Contract.quiet_execute executor hcopies)⟩
  · intro isQuoted part fields shell log interruption final hacts
    exact Contract.Holds.interrupted hacts trivial
      (Contract.quiet_expand executor isQuoted part fields)
  · intro args shell log interruption final hacts
    exact Contract.Holds.interrupted hacts trivial (Contract.quiet_runWait args)
  · intro program shell log interruption final hacts
    exact Contract.Holds.interrupted hacts trivial (Contract.stopping_runProgram executor program)

/-- A command of bare words. -/
def Syntax.Node.calling (words : List String) : Node :=
  .command (words.map fun text => .word [.literal text]) false

/-- Inside a function, where one more command may start. -/
def Shell.lastCommand : Shell := .new { State.initial "/" 1 with callDepth := 1 } ⟨9, 1, 9⟩

/-- In a subshell the second command is one too many. -/
theorem return_and_exit :
    (∃ log final, Acts (execute .idle (.calling ["return", "3"])) .lastCommand log
        (.error (.leaveFunction 3), final) ∧ 0 < Shell.lastCommand.state.callDepth) ∧
    (∃ log interruption final, Acts (execute .idle (.subshell [.calling [":"], .calling ["exit"]]))
        .lastCommand log (.error interruption, final) ∧ interruption.isControl = false) ∧
    ∃ log interruption final, Acts (Action.runProgram .idle [.calling ["exit", "7"]]) .lastCommand log
        (.error interruption, final) ∧ interruption.EndsRun := by
  obtain ⟨hstatements, _, _, hprograms⟩ := execute_interruptions .idle
  refine ⟨?_, ?_, ?_⟩
  · obtain ⟨log, final, hacts⟩ := exists_interrupted
      (show isInterrupted (execute .idle (.calling ["return", "3"])) .lastCommand
        (.leaveFunction 3) = true by decide +kernel)
    exact ⟨log, final, hacts, (hstatements _ _ log _ final hacts).2.1 3 rfl⟩
  · obtain ⟨log, final, hacts⟩ := exists_interrupted
      (show isInterrupted (execute .idle (.subshell [.calling [":"], .calling ["exit"]])) .lastCommand
        (.limit (.commands 1)) = true by decide +kernel)
    exact ⟨log, _, final, hacts, (hstatements _ _ log _ final hacts).2.2 rfl⟩
  · obtain ⟨log, final, hacts⟩ := exists_interrupted
      (show isInterrupted (Action.runProgram .idle [.calling ["exit", "7"]]) .lastCommand
        (.leaveShell 7) = true by decide +kernel)
    exact ⟨log, _, final, hacts, (hprograms _ _ log _ final hacts).resolve_right (by simp)⟩

end Conch
