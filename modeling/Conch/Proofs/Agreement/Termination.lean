import Conch.Proofs.Agreement.Release

/-!
# Execution comes to an end

The allowances for heights and calls are never used up: without them the rules call each
other in the same way (`execute_eq`), so they bound nothing but how deep the trees and
the calls are.  Whatever the replies are, a statement comes to an end if the external
commands do (`execute_terminates`).
-/

namespace Conch

open Syntax (Node)

section

variable (executor : Executor)

/-- Expands a part of a word, with the allowances of a statement. -/
def expand (isQuoted : Bool) (node : Node) (fields : Fields) : Action Fields := do
  let shell ← get
  (evaluator executor (executeWithin executor (shell.limits.callDepth - shell.state.callDepth))
    node.height).expand isQuoted node fields

/-- Evaluates the parts like any others. -/
def evaluation : Evaluator := ⟨execute executor, expand executor⟩

end

section

variable {terms : Terms} {level : Level} {executor : Executor}
  (hexecutor : executor.Supports terms)

include hexecutor

/-- A call is allowed as many further calls as anything else at its depth. -/
theorem alike_call (hdepth : level.callDepth < level.limits.callDepth) (body : Node) :
    Alike terms.settled level.deeper terms.statuses
      (executeWithin executor (level.limits.callDepth - level.callDepth) body)
      (execute executor body) := by
  intro shell hshell
  have hcalls : level.limits.callDepth - level.callDepth =
      shell.limits.callDepth - shell.state.callDepth + 1 := by
    have hlimits : shell.limits = level.limits := congrArg Level.limits hshell.level
    have hcallDepth : shell.state.callDepth = level.callDepth + 1 :=
      congrArg Level.callDepth hshell.level
    rw [hlimits, hcallDepth]
    omega
  rw [hcalls]
  have hinner : executor.Supports terms.settled := hexecutor.settled
  exact (executeSilent_alike hinner (evaluation executor) body shell hshell).left

/-- The allowance for heights is enough for every tree of that height. -/
theorem evaluator_agrees_evaluation (height : Nat) :
    (evaluator executor (executeWithin executor (level.limits.callDepth - level.callDepth))
      height).Agrees terms level height (evaluation executor) := by
  have hcall : level.callDepth < level.limits.callDepth → ∀ body,
      Alike terms.settled level.deeper terms.statuses
        (executeWithin executor (level.limits.callDepth - level.callDepth) body)
        (executeWithin executor (level.limits.callDepth - level.callDepth) body) :=
    fun hdepth body shell hshell => (alike_call hexecutor hdepth body shell hshell).left
  have hagrees := evaluator_agrees hexecutor hcall height
  constructor
  · intro node hheight shell hshell
    obtain rfl := hshell.level
    exact (hagrees node.height).execute node (Nat.le_min.mpr ⟨hheight, Nat.le_refl _⟩) shell hshell
  · intro isQuoted node fields hheight shell hshell
    obtain rfl := hshell.level
    exact (hagrees node.height).expand isQuoted node fields
      (Nat.le_min.mpr ⟨hheight, Nat.le_refl _⟩) shell hshell

theorem alike_execute (node : Node) :
    Alike terms level terms.statuses (execute executor node)
      (executeNode executor (execute executor) (evaluation executor) node) := by
  intro shell hshell
  obtain rfl := hshell.level
  obtain ⟨height, hheight⟩ := Nat.exists_eq_succ_of_ne_zero (Nat.ne_of_gt node.height_pos)
  have hnode := alike_executeNode (evaluator_agrees_evaluation hexecutor height)
    (evaluator_agrees_evaluation hexecutor.settled height) hexecutor (alike_call hexecutor)
    (Nat.le_of_eq hheight) shell hshell
  have hrun : execute executor node shell = (evaluator executor (executeWithin executor
      (shell.limits.callDepth - shell.state.callDepth)) node.height).execute node shell := rfl
  rw [hrun, hheight]
  exact hnode

theorem alike_expand (isQuoted : Bool) (node : Node) (fields : Fields) :
    Alike terms level anything (expand executor isQuoted node fields)
      (expandFragment (evaluation executor) isQuoted node fields) := by
  intro shell hshell
  obtain rfl := hshell.level
  obtain ⟨height, hheight⟩ := Nat.exists_eq_succ_of_ne_zero (Nat.ne_of_gt node.height_pos)
  have hnode := alike_expandFragment (evaluator_agrees_evaluation hexecutor height) isQuoted
    (Nat.le_of_eq hheight) fields shell hshell
  have hrun : expand executor isQuoted node fields shell = (evaluator executor
      (executeWithin executor (shell.limits.callDepth - shell.state.callDepth))
        node.height).expand isQuoted node fields shell := rfl
  rw [hrun, hheight]
  exact hnode

end

section

variable (executor : Executor) (node : Node)

/-- Statements are executed by their rules alone. -/
theorem execute_eq :
    execute executor node =
      executeNode executor (execute executor) (evaluation executor) node :=
  funext fun shell =>
    (alike_execute (executor.supports_any _) node shell (shell.meets_any _ _)).same

/-- So are the parts of words expanded, those of texts that are parsed on the way included. -/
theorem expand_eq (isQuoted : Bool) (fields : Fields) :
    expand executor isQuoted node fields =
      expandFragment (evaluation executor) isQuoted node fields :=
  funext fun shell =>
    (alike_expand (executor.supports_any _) isQuoted node fields shell (shell.meets_any _ _)).same

/-- What is done where the allowances are used up makes no difference, since they never are: the
rules alone say how a statement is executed.  If the external commands come to an end, so
does every statement, with all that it starts. -/
theorem execute_terminates :
    (∀ exhausted, executeProbed (.silent exhausted) executor node = execute executor node) ∧
    execute executor node = executeNode executor (execute executor) (evaluation executor) node ∧
    (∀ isQuoted fields, expand executor isQuoted node fields =
      expandFragment (evaluation executor) isQuoted node fields) ∧
    ((∀ command streams, (executor command streams).Terminates) →
      ∀ shell : Shell, shell.dialect = .embedded → (execute executor node shell).Terminates) := by
  refine ⟨fun exhausted => ?_, execute_eq executor node, expand_eq executor node,
    fun hterminates shell hembedded => ?_⟩
  · funext shell
    exact (executeSilent_alike (executor.supports_any _) exhausted node shell
      (shell.meets_any _ _)).same.symm
  · have hsupports : executor.Supports (.any shell.dialect True True) :=
      .of_any (fun _ _ _ _ => trivial) (fun _ => hterminates) fun _ => hembedded
    exact (alike_execute hsupports node shell (shell.meets_any _ _)).ends trivial

end

/-- A loop whose test always succeeds, around a function that calls itself. -/
def Syntax.Node.endlessLoop : Node :=
  .whileLoop (.command [.word [.literal ":"]] false) [.selfCall]

theorem endlessLoop_terminates : (∀ command streams, (Executor.idle command streams).Terminates) ∧
    Shell.selfCalling.dialect = .embedded ∧
    (execute .idle .endlessLoop .selfCalling).Terminates := by
  have hidle : ∀ command streams, (Executor.idle command streams).Terminates :=
    fun _ _ => Proc.Terminates.done (Except.ok 0)
  obtain ⟨_, _, _, hterminates⟩ := execute_terminates .idle .endlessLoop
  exact ⟨hidle, rfl, hterminates hidle .selfCalling rfl⟩

end Conch
