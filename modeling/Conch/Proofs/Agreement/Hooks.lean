import Conch.Proofs.Agreement.Statements
import Conch.Shell.Execution

/-!
# Interpreters with hooks

An interpreter that goes by the same rules as `execute` and does something more around
every statement, expansion and function body, and something else where the allowance for
heights or for calls is used up.  Hooks that change nothing on a level change nothing of
the whole, and neither does what is done without an allowance: no execution comes to that
(`executeHooked_alike`).
-/

namespace Conch

open Syntax (Node)

structure Hooks where
  execute : Action Int → Action Int
  expand : Action Fields → Action Fields
  /-- What is done where the allowances are used up. -/
  exhausted : Evaluator

section

variable (hooks : Hooks) (executor : Executor)

/-- The evaluator with hooks for trees of a height. -/
def hookedEvaluator (call : Node → Action Int) : Nat → Evaluator
  | 0 => hooks.exhausted
  | height + 1 =>
      ⟨fun node => hooks.execute (executeNode executor call (hookedEvaluator call height) node),
        fun isQuoted node fields =>
          hooks.expand (expandFragment (hookedEvaluator call height) isQuoted node fields)⟩

/-- Executes a statement in which calls may nest so deep. -/
def executeHookedWithin : Nat → Node → Action Int
  | 0, node => hooks.exhausted.execute node
  | calls + 1, node =>
      (hookedEvaluator hooks executor (executeHookedWithin calls) node.height).execute node

/-- Executes a statement with hooks. -/
def executeHooked (node : Node) : Action Int := do
  let shell ← get
  executeHookedWithin hooks executor (shell.limits.callDepth - shell.state.callDepth + 1) node

end

section

variable {terms : Terms} {level : Level} {executor : Executor} {hooks : Hooks}

/-! ## Allowances -/

/-- No tree is too low for an allowance to be used up. -/
theorem Evaluator.agrees_zero (parts others : Evaluator) :
    parts.Agrees terms level 0 others where
  execute node h := absurd node.height_pos (Nat.not_lt.mpr h)
  expand _ node _ h := absurd node.height_pos (Nat.not_lt.mpr h)

/-- How much more height is allowed for makes no difference. -/
theorem evaluator_agrees {terms : Terms} (hexecutor : executor.Supports terms)
    {call call' : Node → Action Int}
    (hcall : level.callDepth < level.limits.callDepth → ∀ body,
      Alike terms.settled level.deeper terms.statuses (call body) (call' body))
    (height height' : Nat) :
    (evaluator executor call height).Agrees terms level (min height height')
      (evaluator executor call' height') := by
  induction height generalizing terms height' with
  | zero =>
      rw [Nat.zero_min]
      exact Evaluator.agrees_zero _ _
  | succ height ih =>
      cases height' with
      | zero => exact Evaluator.agrees_zero _ _
      | succ height' =>
          rw [Nat.add_min_add_right]
          have hparts := ih hexecutor hcall height'
          have hsettled := ih hexecutor.settled hcall height'
          exact ⟨fun node h => alike_executeNode hparts hsettled hexecutor hcall h,
            fun isQuoted node fields h => alike_expandFragment hparts isQuoted h fields⟩

/-! ## Hooks -/

/-- The hooks change nothing on the level. -/
structure Hooks.Spare (terms : Terms) (level : Level) (hooks : Hooks) : Prop where
  execute : ∀ {body other : Action Int}, Alike terms level terms.statuses body other →
    Alike terms level terms.statuses body (hooks.execute other)
  expand : ∀ {body other : Action Fields}, Alike terms level anything body other →
    Alike terms level anything body (hooks.expand other)

theorem hookedEvaluator_agrees {terms : Terms} (hexecutor : executor.Supports terms)
    (hhooks : hooks.Spare terms level) (hsettled : hooks.Spare terms.settled level)
    {call call' : Node → Action Int}
    (hcall : level.callDepth < level.limits.callDepth → ∀ body,
      Alike terms.settled level.deeper terms.statuses (call body) (call' body)) (height : Nat) :
    (evaluator executor call height).Agrees terms level height
      (hookedEvaluator hooks executor call' height) := by
  induction height generalizing terms with
  | zero => exact Evaluator.agrees_zero _ _
  | succ height ih =>
      have hparts := ih hexecutor hhooks hsettled hcall
      have hlater := ih hexecutor.settled hsettled hsettled hcall
      exact ⟨fun node h => hhooks.execute (alike_executeNode hparts hlater hexecutor hcall h),
        fun isQuoted node fields h => hhooks.expand (alike_expandFragment hparts isQuoted h fields)⟩

/-- The hooks change nothing on these levels, be the statuses of substitutions settled or not. -/
def Hooks.SpareOn (calm : Level → Prop) (terms : Terms) (hooks : Hooks) : Prop :=
  ∀ level, calm level → hooks.Spare terms level ∧ hooks.Spare terms.settled level

theorem executeHookedWithin_alike {calm : Level → Prop}
    (hexecutor : executor.Supports terms) (hhooks : hooks.SpareOn calm terms)
    (hdeeper : ∀ level, calm level → level.callDepth < level.limits.callDepth → calm level.deeper)
    (hlevel : calm level) (calls : Nat) (hcalls : level.limits.callDepth - level.callDepth = calls)
    (node : Node) :
    Alike terms level terms.statuses (executeWithin executor (calls + 1) node)
      (executeHookedWithin hooks executor (calls + 1) node) := by
  obtain ⟨hspare, hsettled⟩ := hhooks level hlevel
  induction calls generalizing terms level node with
  | zero =>
      have hcall : level.callDepth < level.limits.callDepth → ∀ body,
          Alike terms.settled level.deeper terms.statuses (executeWithin executor 0 body)
            (executeHookedWithin hooks executor 0 body) :=
        fun hdepth => absurd hdepth (by omega)
      exact (hookedEvaluator_agrees hexecutor hspare hsettled hcall node.height).execute node
        (Nat.le_refl _)
  | succ calls ih =>
      have hcall : level.callDepth < level.limits.callDepth → ∀ body,
          Alike terms.settled level.deeper terms.statuses (executeWithin executor (calls + 1) body)
            (executeHookedWithin hooks executor (calls + 1) body) := by
        intro hdepth body
        have hrest : level.deeper.limits.callDepth - level.deeper.callDepth = calls := by
          change level.limits.callDepth - (level.callDepth + 1) = calls
          omega
        have hinner : executor.Supports terms.settled := hexecutor.settled
        have hlater := hdeeper level hlevel hdepth
        exact ih hinner (fun level hlevel => ⟨(hhooks level hlevel).2, (hhooks level hlevel).2⟩)
          hlater hrest body (hhooks _ hlater).2 (hhooks _ hlater).2
      exact (hookedEvaluator_agrees hexecutor hspare hsettled hcall node.height).execute node
        (Nat.le_refl _)

/-- Hooks that change nothing on the level, nor on the levels of nested calls, change nothing. -/
theorem executeHooked_alike {calm : Level → Prop}
    (hexecutor : executor.Supports terms) (hhooks : hooks.SpareOn calm terms)
    (hdeeper : ∀ level, calm level → level.callDepth < level.limits.callDepth → calm level.deeper)
    (hlevel : calm level) (node : Node) :
    Alike terms level terms.statuses (execute executor node)
      (executeHooked hooks executor node) := by
  intro shell hshell
  obtain rfl := hshell.level
  exact executeHookedWithin_alike hexecutor hhooks hdeeper hlevel _ rfl node shell hshell

end

end Conch
