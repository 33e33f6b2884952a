import Conch.Shell.Basic

/-!
# Background jobs of a shell

Asking for, waiting for and forgetting the jobs of a shell.  A job that crashed
counts as failed.
-/

namespace Conch

def Outcome.status : Outcome → Int
  | .shell (.ok status) _ => status
  | _ => 1

namespace Action

/-- Waits for a task and gives its status. -/
def joinStatus (task : TaskId) : Action Int := do
  return (← request (.join task)).status

/-- Waits for the job of a number, which leaves the table. -/
def waitFor (id : Nat) : Action (Option Int) := do
  match (← get).jobs.take? id with
  | none => return none
  | some (job, jobs) =>
      modify fun shell => { shell with jobs := jobs }
      return some (← joinStatus job.handle)

/-- Waits for all jobs. -/
def waitForAll : Action Unit := do
  let (jobs, table) := (← get).jobs.takeAll
  modify fun shell => { shell with jobs := table }
  jobs.forM fun job => discard (joinStatus job.handle)

/-- The jobs with whether they are finished. -/
def jobStates : Action (List (Job TaskId × Bool)) := do
  (← get).jobs.jobs.mapM fun job => do return (job, ← request (.isFinished job.handle))

/-- Forgets the finished jobs. -/
def reapJobs : Action Unit := do
  let finished := ((← jobStates).filter Prod.snd).map (fun entry => entry.1.handle)
  modify fun shell => { shell with jobs := (shell.jobs.reap finished.contains).2 }

end Action

/-- A line of the job listing. -/
def jobLine (entry : Job TaskId × Bool) : String :=
  let status := if entry.2 then "Done    " else "Running "
  "[" ++ toString entry.1.id ++ "]  " ++ status ++ entry.1.command ++ "\n"

end Conch
