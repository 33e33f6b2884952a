import Conch.Shell.Expansion

/-!
# Lists, pipelines and subshells

The stages of a pipeline run side by side on copies of the shell with a pipe between
them, which either stage closes when it ends.  The status is that of the right stage.
-/

namespace Conch

open Syntax (Node)

section

variable (parts : Evaluator)

def runSubshell (body : List Node) : Action Int := Action.inSubshell id (executeAll parts body)

/-- The left stage as a task of its own; it closes the pipe unless it crashes. -/
def leftStage (left : Node) (pipe : PipeId) (shell : Shell) : Proc Outcome := do
  let (result, shell) ← parts.execute left shell
  match result with
  | .error .crash => return .shell result shell.state
  | _ =>
      Proc.request (.closePipe pipe)
      return .shell result shell.state

/-- What the end of the left stage means for the pipeline: that nobody reads any more is no
failure, and neither is control flow. -/
def leftInterruption : Outcome → Option Interruption
  | .shell (.error .crash) _ => some (.stream (.other "pipeline stage panicked"))
  | .shell (.error (.stream e)) _ => if e.isBroken then none else some (.stream e)
  | .shell (.error (.limit reached)) _ => some (.limit reached)
  | _ => none

/-- The right stage, run to its end together with the left one. -/
def rightStage (right : Node) (pipe : PipeId) (left : TaskId) : Action (Int × Outcome) := do
  match ← (parts.execute right).attempt with
  | .error .crash =>
      discard (Action.request (.join left))
      throw .crash
  | result =>
      Action.request (.closePipe pipe)
      let outcome ← Action.request (.join left)
      return (← Action.endWith result, outcome)

def runPipe (left right : Node) : Action Int := do
  let pipe ← Action.request (.newPipe Pipe.defaultSlots)
  let input ← Action.request (.newInput (.pipe pipe))
  let shell := (← get).fork
  let producer := { shell with streams := { shell.streams with output := .pipe pipe } }
  let task ← (Proc.start false (leftStage parts left pipe producer) : Proc TaskId)
  let (status, outcome) ← Action.onCopy
    (fun shell =>
      let consumer := shell.fork
      { consumer with streams := { consumer.streams with input := some input } })
    (rightStage parts right pipe task)
  match leftInterruption outcome with
  | some interruption => throw interruption
  | none => return status

def runBinary (op : Syntax.Token) (left right : Node) : Action Int := do
  match op with
  | .andAnd =>
      let status ← parts.execute left
      if status ≠ 0 then return status else parts.execute right
  | .orOr =>
      let status ← parts.execute left
      if status = 0 then return status else parts.execute right
  | .pipe => runPipe parts left right
  | op => throw (.command (.notOperator op))

end

end Conch
