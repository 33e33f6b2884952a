import Conch.Proofs.Course.Statements
import Conch.Proofs.Effect.Trees
import Conch.Shell.Session

/-!
# The books of a shell

All that a shell does is on its books: statements and words, scripts and sessions.  Jobs are
touched by `wait` and `jobs`, where a background job is started and where the finished ones
are forgotten; whatever else happens is done beside them, and what a copy of the shell does
with its jobs stays with the copy.
-/

namespace Conch

/-- The jobs of a shell follow their ledger. -/
def Course.ofJobs : Course where
  leads shell log final := JobTable.Ledger shell.jobs log final.jobs
  trans := .trans
  adjusts log h := by
    rw [h.jobs]
    exact .aside ..
  works := .entry
  calls h := h
  returns h := h

namespace Booked

theorem of_course {α : Type} {body : Action α} (h : Course.ofJobs.Holds body) :
    Booked Shell.jobs body := h

theorem runProgram (executor : Executor) (program : Syntax.Program) :
    Booked Shell.jobs (Action.runProgram executor program) :=
  of_course (.runProgram executor program)

theorem reset : Booked Shell.jobs Action.reset :=
  Booked.bind (.modify fun _ => rfl) fun _ => of_course .reapJobs

end Booked

/-! ## Scripts and sessions -/

section

open JobTable (Ledger)

variable {executor : Executor} {shell final : Shell} {log : List Exchange}
  {completion : Completion}

theorem ledger_of_capture {program : Syntax.Program}
    (hruns : (Shell.capture executor program shell).Runs log (completion, final)) :
    Ledger shell.jobs log final.jobs := by
  obtain ⟨_, _, _, _, _, _, _, _, rfl, hacts, _, _, rfl⟩ := Shell.runs_capture.mp hruns
  have hprogram := (Booked.reset.bind fun _ => .runProgram executor program) _ _ _ _ hacts
  exact (Ledger.aside _ [_, _]).trans (hprogram.trans (.aside ..))

theorem ledger_of_exec {script : String}
    (hruns : (Shell.exec executor script shell).Runs log (completion, final)) :
    Ledger shell.jobs log final.jobs := by
  rw [Shell.exec] at hruns
  cases hparse : Syntax.parse script with
  | error e =>
      rw [hparse] at hruns
      obtain ⟨rfl, hx⟩ := hruns
      cases hx
      exact .aside ..
  | ok program =>
      rw [hparse] at hruns
      exact ledger_of_capture hruns

end

namespace Session

/-- The jobs of a session are those of its shell. -/
def jobs (session : Session) : JobTable TaskId := session.shell.jobs

variable (executor : Executor) (pipes : SessionPipes)

theorem booked_say (text : String) : Booked jobs (say pipes text) := by
  intro session log result final hacts
  obtain ⟨reply, _, rfl, rfl, hx⟩ := hacts
  cases hx
  exact .aside ..

theorem booked_nextLine : Booked jobs (nextLine pipes) := by
  intro session log result final hacts
  obtain ⟨⟨line, pending⟩, _, _, rfl, _, rfl, hx⟩ := Proc.runs_bind.mp hacts
  cases hx
  exact .aside ..

theorem booked_onShell {α : Type} {body : Action α} (h : Booked Shell.jobs body) :
    Booked jobs (onShell body) := by
  intro session log result final hacts
  obtain ⟨⟨inner, shell⟩, first, _, rfl, hfirst, rfl, hx⟩ := Proc.runs_bind.mp hacts
  cases hx
  rw [List.append_nil]
  exact h _ _ _ _ hfirst

theorem booked_conclude (result : Except Interruption Unit) :
    Booked jobs (conclude pipes result) := by
  cases result with
  | ok _ => exact .pure true
  | error interruption =>
      cases interruption with
      | leaveShell status => exact .pure false
      | limit reached => exact (booked_say pipes _).bind fun _ => .pure true
      | _ => exact .throw _

theorem booked_runProgram (program : Syntax.Program) :
    Booked jobs (runProgram executor pipes program) := by
  refine (booked_onShell (.runProgram executor program)).bind fun result => ?_
  split
  · exact .throw _
  · exact (booked_onShell .reset).discard.bind fun _ => booked_conclude pipes _

theorem booked_takeUp (line : String) : Booked jobs (takeUp executor pipes line) := by
  refine .get_bind fun session => ?_
  dsimp only
  split
  · exact Booked.bind (.modify fun _ => rfl) fun _ => .pure true
  · exact Booked.bind (.modify fun _ => rfl) fun _ => (booked_say pipes _).bind fun _ => .pure true
  · exact Booked.bind (.modify fun _ => rfl) fun _ => booked_runProgram executor pipes _

theorem booked_round : Booked jobs (round executor pipes) := by
  refine .get_bind fun session => (booked_say pipes _).bind fun _ =>
    (booked_nextLine pipes).bind fun line => ?_
  cases line with
  | some line => exact booked_takeUp executor pipes line
  | none =>
      refine .get_bind fun session => ?_
      split
      · exact .pure false
      · exact (booked_say pipes _).bind fun _ => .pure false

end Session

end Conch
