import Conch.Proofs.Agreement.Hooks

/-!
# Observed executions

An interpreter that does the same as `execute` and is observed on the way: a watch looks
at the shell before and after every statement, expansion and function body, and something
else is done where the allowance for heights or for calls is used up.  A watch that has
nothing to say changes nothing, and neither does what is done without an allowance: no
execution comes to that (`executeProbed_alike`).
-/

namespace Conch

open Syntax (Node)

/-- Looks at the shell before and after an action, unless the action crashes. -/
def Action.watched {α : Type} (watch : Shell → Proc Unit) (body : Action α) : Action α :=
  fun shell => do
    watch shell
    match ← body shell with
    | (.error .crash, final) => return (.error .crash, final)
    | (result, final) =>
        watch final
        return (result, final)

structure Probe where
  watch : Shell → Proc Unit
  /-- What is done where the allowances are used up. -/
  exhausted : Evaluator

/-- Says nothing. -/
def Probe.silent (exhausted : Evaluator) : Probe := ⟨fun _ => .done (), exhausted⟩

section

variable (probe : Probe) (executor : Executor)

/-- The observed evaluator for trees of a height. -/
def probedEvaluator (call : Node → Action Int) : Nat → Evaluator
  | 0 => probe.exhausted
  | height + 1 =>
      ⟨fun node => (executeNode executor call (probedEvaluator call height) node).watched probe.watch,
        fun isQuoted node fields =>
          (expandFragment (probedEvaluator call height) isQuoted node fields).watched probe.watch⟩

/-- Executes a statement in which calls may nest so deep. -/
def executeProbedWithin : Nat → Node → Action Int
  | 0, node => probe.exhausted.execute node
  | calls + 1, node =>
      (probedEvaluator probe executor (executeProbedWithin calls) node.height).execute node

/-- Executes a statement under observation. -/
def executeProbed (node : Node) : Action Int := do
  let shell ← get
  executeProbedWithin probe executor (shell.limits.callDepth - shell.state.callDepth + 1) node

end

section

variable {terms : Terms} {level : Level} {executor : Executor}

/-- A watch that says nothing on the level. -/
theorem alike_watched {α : Type} {Q : α → Prop} {watch : Shell → Proc Unit} {body other : Action α}
    (h : Alike terms level Q body other)
    (hwatch : ∀ shell, shell.Meets terms.toHolding level → watch shell = .done ()) :
    Alike terms level Q body (other.watched watch) := by
  intro shell hshell
  obtain ⟨haccord, hcrash⟩ := h shell hshell
  refine ⟨?_, hcrash⟩
  have hrun : other.watched watch shell = (watch shell).bind fun _ => (other shell).bind _ := rfl
  rw [hrun, hwatch shell hshell, Proc.bind, ← Proc.bind_done (body shell)]
  refine haccord.bind fun x hx => ?_
  obtain ⟨result, final⟩ := x
  by_cases hresult : result = .error .crash
  · subst hresult
    exact .done hx
  · have hlast : (watch final).bind (fun _ => .done (result, final)) = .done (result, final) := by
      rw [hwatch final (hx.meets hresult), Proc.bind]
    have hended : (Proc.done (result, final)).Accord terms (Ends terms.toHolding level Q)
        ((watch final).bind fun _ => .done (result, final)) := by
      rw [hlast]
      exact .done hx
    cases result with
    | ok a => exact hended
    | error interruption =>
        cases interruption with
        | crash => exact absurd rfl hresult
        | _ => exact hended

end

/-! ## Hooks that watch -/

/-- A probe is a pair of hooks. -/
def Probe.hooks (probe : Probe) : Hooks :=
  ⟨.watched probe.watch, .watched probe.watch, probe.exhausted⟩

section

variable (probe : Probe) (executor : Executor)

theorem probedEvaluator_eq (call : Node → Action Int) (height : Nat) :
    probedEvaluator probe executor call height =
      hookedEvaluator probe.hooks executor call height := by
  induction height with
  | zero => rfl
  | succ height ih =>
      rw [probedEvaluator, ih]
      rfl

theorem executeProbedWithin_eq (calls : Nat) (node : Node) :
    executeProbedWithin probe executor calls node =
      executeHookedWithin probe.hooks executor calls node := by
  induction calls generalizing node with
  | zero => rfl
  | succ calls ih =>
      rw [executeProbedWithin, executeHookedWithin, probedEvaluator_eq, funext ih]

theorem executeProbed_eq (node : Node) :
    executeProbed probe executor node = executeHooked probe.hooks executor node :=
  funext fun _ => congrFun (executeProbedWithin_eq probe executor _ node) _

end

section

variable {terms : Terms} {level : Level} {executor : Executor}

/-- Where the watch says nothing on the level, nor on the levels of nested calls, it changes
nothing. -/
theorem executeProbed_alike (hexecutor : executor.Supports terms) {probe : Probe}
    (calm : Level → Prop)
    (hwatch : ∀ shell : Shell, calm shell.level → probe.watch shell = .done ())
    (hdeeper : ∀ level, calm level → level.callDepth < level.limits.callDepth → calm level.deeper)
    (hlevel : calm level) (node : Node) :
    Alike terms level terms.statuses (execute executor node)
      (executeProbed probe executor node) := by
  have hspare : ∀ (terms : Terms) level, calm level → probe.hooks.Spare terms level :=
    fun terms level hlevel => ⟨fun h => alike_watched h fun shell hshell =>
        hwatch shell (hshell.level ▸ hlevel), fun h => alike_watched h fun shell hshell =>
        hwatch shell (hshell.level ▸ hlevel)⟩
  have hhooks : probe.hooks.SpareOn calm terms := fun level hlevel =>
    ⟨hspare terms level hlevel, hspare terms.settled level hlevel⟩
  rw [executeProbed_eq]
  exact executeHooked_alike hexecutor hhooks hdeeper hlevel node

theorem executeSilent_alike (hexecutor : executor.Supports terms)
    (exhausted : Evaluator) (node : Node) :
    Alike terms level terms.statuses (execute executor node)
      (executeProbed (.silent exhausted) executor node) :=
  executeProbed_alike hexecutor (fun _ => True) (fun _ _ => rfl) (fun _ _ _ => trivial) trivial node

end

end Conch
