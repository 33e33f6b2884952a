import Conch.Shell.Command
import Conch.Shell.ControlFlow
import Conch.Shell.Pipeline

/-!
# Execution

Ties the rules for the constructs together.  A tree is executed with an allowance for
its height, and a function body with one call less, so every execution comes to an
end: the limit on nested calls is reached before the calls allowed here are used up.
-/

namespace Conch

open Syntax (Node)

section

variable (executor : Executor) (call : Node → Action Int)

/-- The rule for a statement in terms of an evaluator for its parts. -/
def executeNode (parts : Evaluator) (node : Node) : Action Int :=
  Action.recording <|
    match node with
    | .command args background => runCommand executor call parts args background
    | .subshell body => runSubshell parts body
    | .group body => executeAll parts body
    | .conditional test body elifs otherwise => runConditional parts test body elifs otherwise
    | .whileLoop test body => runWhile parts test body
    | .forLoop name words body => runFor parts name words body
    | .choice subject arms => runChoice parts subject arms
    | .binary op left right => runBinary parts op left right
    | .function name body => do
        Action.modifyState fun state =>
          { state with functions := state.functions.insert name body }
        return 0
    | other => throw (.command (.notStatement other.render))

/-- The evaluator for trees of a height. -/
def evaluator : Nat → Evaluator
  | 0 => ⟨fun _ => return 0, fun _ _ fields => return fields⟩
  | height + 1 =>
      ⟨fun node => executeNode executor call (evaluator height) node,
        fun isQuoted node fields => expandFragment (evaluator height) isQuoted node fields⟩

end

/-- Executes a statement in which calls may nest so deep. -/
def executeWithin (executor : Executor) : Nat → Node → Action Int
  | 0, _ => return 0
  | calls + 1, node =>
      (evaluator executor (executeWithin executor calls) node.height).execute node

/-- Executes a statement. -/
def execute (executor : Executor) (node : Node) : Action Int := do
  let shell ← get
  executeWithin executor (shell.limits.callDepth - shell.state.callDepth + 1) node

end Conch
