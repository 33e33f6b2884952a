import Conch.Proofs.Agreement.Release
import Conch.Proofs.Session.Program

/-!
# The status after a run

A captured script always leaves the status that it reports, that of a limit included
(`capture_status`).  A session stores no status of its own: after a program the shell
has the status of the last statement that ended (`Performs.status`), also if a limit
stopped the program.  So the two leave different statuses after the same program
(`limit_statuses_differ`).
-/

namespace Conch

open Syntax (Program)

/-! ## Captured scripts -/

/-- A script that is stopped by a limit has a status of its own. -/
theorem Shell.runStatus_limit (reached : LimitReached) (shell : Shell) :
    (Shell.runStatus (.error (.limit reached)) shell).Returns fun x => x.1 = limitStatus :=
  (Proc.Returns.trivial (Shell.complain reached.message shell)).bind fun _ _ => rfl

/-- Whatever a script ends with, the shell has the status that was reported. -/
theorem Shell.capture_status (executor : Executor) (program : Program) (shell : Shell) :
    (Shell.capture executor program shell).Returns fun x => x.2.state.status = x.1.status := by
  intro output errors
  change (((do Action.reset; Action.runProgram executor program : Action Unit) _).bind _).Returns _
  refine (Proc.Returns.trivial _).bind fun run _ => ?_
  refine (Proc.Returns.trivial (Shell.runStatus run.1 run.2)).bind fun ended _ => ?_
  exact fun written complaints => rfl

/-! ## Sessions -/

namespace Contract

/-- Leaves the status of the last statement, and is never interrupted. -/
def steady : Contract where
  ready _ := True
  keeps shell final := final.state.status = shell.state.status
  allows _ _ := False
  refl _ := rfl
  trans h h' := h'.trans h
  stays _ _ := trivial
  inherits _ h := h

theorem steady_reset : steady.Holds Action.reset := by
  have hstates : steady.Holds Action.jobStates :=
    .get_bind fun _ => .mapM _ fun _ _ => (Holds.request _).bind fun _ => .pure _
  refine Holds.bind (.modify fun _ _ => rfl) fun _ => hstates.bind fun _ => ?_
  exact .modify fun _ _ => rfl

end Contract

namespace Session

/-- A session leaves the status that the program left. -/
theorem Performs.status {executor : Executor} {program : Program} {session : Session}
    {events : List Event} {x : Except Interruption Bool × Session}
    (h : Performs executor program session events x) :
    ∃ log result shell, Acts (Action.runProgram executor program) session.shell log (result, shell) ∧
      x.2.shell.state.status = shell.state.status := by
  cases h with
  | crashed hrun => exact ⟨_, _, _, hrun, rfl⟩
  | @ended _ _ _ shell _ tidied _ _ hrun _ htidy _ =>
      have hmeets := Contract.steady_reset shell trivial _ _ _ htidy
      have hkept := hmeets.kept fun hcrash => hmeets.allowed _ hcrash
      exact ⟨_, _, shell, hrun, hkept⟩

/-! A loop that only the limit on iterations ends. -/

def endless : String := "while :; do :; done\n"

def scarce : Shell := .new (.initial "/" 1) ⟨9, 9, 1⟩

/-- Writes succeed, and nothing else is asked. -/
def writtenReply? : (r : Request) → Option r.Reply
  | .newBuffer => some 0
  | .contents _ => some []
  | .command => some ()
  | .write .. => some (.ok ())
  | _ => none

/-- What a session does with a program. -/
def performed (program : Program) : Action (Except Interruption Unit) := do
  let result ← (Action.runProgram .idle program).attempt
  Action.reset
  return result

theorem acts_performed {program : Program} {shell final : Shell} {log : List Exchange}
    {result : Except Interruption Unit}
    (h : Acts (performed program) shell log (.ok result, final)) :
    ∃ first next later, Acts (Action.runProgram .idle program) shell first (result, next) ∧
      Acts Action.reset next later (.ok (), final) := by
  obtain ⟨_, next, first, rest, rfl, hrun, hrest⟩ := acts_attempt_bind.mp h
  rcases acts_bind.mp hrest with ⟨_, _, hx, _⟩ | ⟨_, _, later, _, _, htidy, _, hx⟩
  · cases hx
  · cases hx
    exact ⟨first, next, later, hrun, htidy⟩

/-- The limit was reached, and the status is that of the program before. -/
def isStopped (x : List Exchange × Except Interruption (Except Interruption Unit) × Shell) : Bool :=
  match x.2.1 with
  | .ok (.error (.limit _)) => x.2.2.state.status = 0
  | _ => false

/-- Where nothing else is in the way of the loop, the status after it is that of the limit, or the
one before. -/
theorem limit_statuses_differ :
    ∃ program, Syntax.parse endless = .ok program ∧
      (∃ log completion final, (Shell.exec .idle endless scarce).Runs log (completion, final) ∧
        final.state.status = limitStatus) ∧
      ∃ events final, (run .idle ⟨0, 1⟩ scarce).Runs
          (exchanges ⟨0, 1⟩ events ++ [.asked (.closePipe 1) ()]) (.ok (), final) ∧
        heard events = [Text.encode endless, []] ∧ (∀ event ∈ events, event.Smooth) ∧
        ran events = program ∧ final.state.status = 0 := by
  let shell : Shell := { scarce with streams := ⟨none, .pipe 1, .pipe 1⟩ }
  obtain ⟨program, hparse, hcheck⟩ := Syntax.exists_parse endless (fun program =>
    ((performed program shell).replay writtenReply?).any isStopped) (by decide +kernel)
  refine ⟨program, hparse, ?_, ?_⟩
  · obtain ⟨log, ⟨completion, final⟩, hruns, hstatus⟩ := Proc.exists_runs writtenReply?
      (Shell.exec .idle endless scarce) (fun x => x.2.2.state.status = limitStatus)
      (by decide +kernel)
    exact ⟨log, completion, final, hruns, of_decide_eq_true hstatus⟩
  · have hattempt : Syntax.Attempt.ofText ("" ++ endless) = .complete program := by
      rw [String.empty_append, Syntax.Attempt.ofText, hparse]
      rfl
    have hhears : Hears [] [Text.encode endless] (some endless, []) := by
      have hdecode : Text.decodeLossy (Text.encode endless) = endless :=
        Text.decodeLossy_encode endless
      have hsplit : splitLine? ([] ++ Text.encode endless) = some (Text.encode endless, []) := by
        decide +kernel
      have hnonempty : Text.encode endless ≠ [] := by decide +kernel
      have hline := Hears.more rfl hnonempty (.line hsplit)
      rwa [hdecode] at hline
    obtain ⟨log, ⟨result, final⟩, hacts, hstopped⟩ := Proc.exists_runs _ _ _ hcheck
    unfold isStopped at hstopped
    split at hstopped
    · rename_i reached hresult
      obtain rfl : result = .ok (.error (.limit reached)) := hresult
      obtain ⟨first, next, later, hrun, htidy⟩ := acts_performed hacts
      have htakes : Takes .idle ⟨shell, "", []⟩ endless _ (.ok true, ⟨final, "", []⟩) :=
        .completed hattempt (.ended hrun (by simp) htidy (.limited reached (.ok 0)))
      have htook : Round .idle ⟨shell, "", []⟩ (.said primaryPrompt (.ok 0) ::
          [Text.encode endless].map .heard ++ _) (.ok true, ⟨final, "", []⟩) := .took hhears htakes
      have hclosed : Round .idle ⟨final, "", []⟩ (.said primaryPrompt (.ok 0) ::
          [[]].map .heard) (.ok false, ⟨final, "", []⟩) := .closed .nothing rfl
      have hconverse : (converse .idle ⟨0, 1⟩ ⟨shell, "", []⟩).Runs _ (.ok (), final) :=
        runs_converse.mpr ⟨_, _, _, rfl, .wentOn htook (.ended hclosed), rfl⟩
      refine ⟨_, final, Proc.runs_bind.mpr ⟨_, _, _, rfl, hconverse, (), [], rfl, rfl, rfl⟩,
        rfl, ?_, List.append_nil _, of_decide_eq_true hstopped⟩
      simp [Event.Smooth, Harmless]
    · cases hstopped

end Session

end Conch
