import Conch.Proofs.Agreement.Probes

/-!
# Scopes are released

However a statement ends, what was set up for its parts has been taken back
(`execute_releases`), and on the way calls never nest deeper than the limit allows.
-/

namespace Conch

open Syntax (Node)

/-- The scopes that were entered were left again; of the parameters some may have been shifted
away. -/
structure Shell.Released (shell final : Shell) : Prop where
  streams : final.streams = shell.streams
  loopDepth : final.state.loopDepth = shell.state.loopDepth
  callDepth : final.state.callDepth = shell.state.callDepth
  positional : final.state.positional <:+ shell.state.positional

/-- The external commands never crash. -/
def Executor.IsSafe (executor : Executor) : Prop :=
  ∀ command streams log, ¬(executor command streams).Runs log (.error .crash)

section

variable {executor : Executor} {node : Node} {shell final : Shell} {log : List Exchange}
variable {result : Except Interruption Int}

theorem execute_ne_crash (hexecutor : executor.IsSafe)
    (hacts : Acts (execute executor node) shell log (result, final)) : result ≠ .error .crash := by
  rintro rfl
  have hsupports : executor.Supports (.any shell.dialect False False) :=
    .of_any hexecutor False.elim False.elim
  have hagree := executeSilent_alike hsupports (evaluator executor (fun _ => pure 0) 0) node shell
    (shell.meets_any _ _)
  exact hagree.crash log final hacts

theorem execute_released (hresult : result ≠ .error .crash)
    (hacts : Acts (execute executor node) shell log (result, final)) : shell.Released final := by
  have hmeets := execute_tidy False [] executor false (fun h => h.elim) shell (fun h => h.elim)
    log result final hacts
  obtain ⟨hstreams, _, hscope⟩ := hmeets.kept hresult
  exact ⟨hstreams, hscope.loopDepth, hscope.callDepth, hscope.positional⟩

/-- Calls are no deeper than the limit allows. -/
def Level.IsWithin (level : Level) : Prop := level.callDepth ≤ level.limits.callDepth

/-- A watch that only has something to say where calls nest too deep says nothing. -/
theorem executeProbed_within {probe : Probe}
    (hwatch : ∀ shell : Shell, shell.level.IsWithin → probe.watch shell = .done ())
    (hshell : shell.level.IsWithin) :
    executeProbed probe executor node shell = execute executor node shell := by
  have hdeeper : ∀ level : Level, level.IsWithin → level.callDepth < level.limits.callDepth →
      level.deeper.IsWithin := fun _ _ hdepth => hdepth
  exact (executeProbed_alike (executor.supports_any _) Level.IsWithin
    hwatch hdeeper hshell node shell (shell.meets_any _ _)).same.symm

end

/-- Whatever way a statement ends, the streams, the depths of loops and calls and the parameters
are as before, apart from parameters that were shifted away.  If calls were not too deep at
first, a watch for calls that are too deep has nothing to report. -/
theorem execute_releases (executor : Executor) (hexecutor : executor.IsSafe) (node : Node)
    (shell : Shell) :
    (∀ log result final, Acts (execute executor node) shell log (result, final) →
      result ≠ .error .crash ∧ shell.Released final) ∧
    (shell.state.callDepth ≤ shell.limits.callDepth → ∀ probe : Probe,
      (∀ inner : Shell, inner.state.callDepth ≤ inner.limits.callDepth →
        probe.watch inner = .done ()) →
      executeProbed probe executor node shell = execute executor node shell) := by
  refine ⟨fun log result final hacts => ?_, fun hshell probe hwatch => ?_⟩
  · have hresult := execute_ne_crash hexecutor hacts
    exact ⟨hresult, execute_released hresult hacts⟩
  · exact executeProbed_within hwatch hshell

/-! A function that calls itself, in a shell that allows one call. -/

/-- Every external command succeeds at once. -/
def Executor.idle : Executor := fun _ _ => .done (.ok 0)

def Syntax.Node.selfCall : Node := .command [.word [.literal "f"]] false

def Shell.selfCalling : Shell :=
  .new { State.initial "/" 1 with functions := (∅ : Bindings Node).insert "f" .selfCall } ⟨1, 9, 9⟩

/-- Asks for something where calls nest too deep. -/
def Probe.deepCalls : Probe where
  watch shell :=
    if shell.state.callDepth ≤ shell.limits.callDepth then .done () else .request .command
  exhausted := evaluator .idle (fun _ => pure 0) 0

theorem selfCall_released :
    (∃ log final, Acts (execute .idle .selfCall) .selfCalling log
        (.error (.limit (.calls "f" 1)), final) ∧ Shell.selfCalling.Released final) ∧
      executeProbed .deepCalls .idle .selfCall .selfCalling =
        execute .idle .selfCall .selfCalling := by
  have hidle : Executor.idle.IsSafe := by
    rintro command streams log ⟨_, hx⟩
    cases hx
  obtain ⟨hreleased, hprobed⟩ := execute_releases .idle hidle .selfCall .selfCalling
  refine ⟨?_, hprobed (by decide) .deepCalls fun inner hinner => if_pos hinner⟩
  obtain ⟨log, final, hacts⟩ := exists_interrupted
    (show isInterrupted (execute .idle .selfCall) .selfCalling (.limit (.calls "f" 1)) = true by
      decide +kernel)
  exact ⟨log, final, hacts, (hreleased log _ final hacts).2⟩

end Conch
