import Conch.Arithmetic.Machine
import Conch.Proofs.Arithmetic.Variables

/-!
# Termination

Evaluation on a machine ends for every expression, whatever the variables hold, and leaves the
counter as it was (`evaluation_terminates`): when enough calls may be nested there is a result, and
it stays the same when more may be.  An evaluation may call for others: for those of
the parts of its expression, and for those of the expressions that variables hold, which come
from outside and may be of any size.  But the first leave the counter alone and the others raise
it, so the levels that are left decrease, or the size of the expression does
(`Calls.descends`); and an evaluation ends when all those that it calls for do (`ends_of_calls`).
-/

namespace Conch.Arithmetic

/-- How many nodes the tree has. -/
def Expression.size : Expression → Nat
  | .number _ => 1
  | .variable _ => 1
  | .unary _ operand => operand.size + 1
  | .binary _ left right => left.size + right.size + 1
  | .conditional test consequent alternative =>
      test.size + consequent.size + alternative.size + 1
  | .assign _ _ value => value.size + 1

namespace Calculation

variable {α β : Type}

theorem run_bind_of_ok {body : Calculation α} {machine machine' : Machine} {a : α}
    (h : body.run machine = some (.ok a, machine')) (next : α → Calculation β) :
    (body >>= next).run machine = (next a).run machine' := by
  change (body.run machine).bind _ = _
  rw [h]
  rfl

theorem run_bind_of_error {body : Calculation α} {machine machine' : Machine} {fault : Fault}
    (h : body.run machine = some (.error fault, machine')) (next : α → Calculation β) :
    (body >>= next).run machine = some (.error fault, machine') := by
  change (body.run machine).bind _ = _
  rw [h]
  rfl

/-- With enough calls nested there is a result, the same for every number of calls. -/
def Gives (body : Nat → Calculation α) (machine : Machine) (last : Except Fault α × Machine) :
    Prop :=
  ∃ enough, ∀ calls, enough ≤ calls → (body calls).run machine = some last

section

variable {body : Nat → Calculation α} {machine machine' : Machine}

theorem Gives.unique {last other : Except Fault α × Machine} (h : Gives body machine last)
    (hother : Gives body machine other) : last = other := by
  obtain ⟨enough, hrun⟩ := h
  obtain ⟨enough', hrun'⟩ := hother
  have hlast := hrun _ (Nat.le_max_left enough enough')
  rw [hrun' _ (Nat.le_max_right enough enough')] at hlast
  exact (Option.some.inj hlast).symm

/-- A function that calls another one has a result when that has one. -/
theorem Gives.of_succ {outer : Nat → Calculation β} {last : Except Fault α × Machine}
    {final : Except Fault β × Machine} (h : Gives body machine last)
    (houter : ∀ calls, (body calls).run machine = some last →
      (outer (calls + 1)).run machine' = some final) :
    Gives outer machine' final := by
  obtain ⟨enough, hrun⟩ := h
  refine ⟨enough + 1, fun calls hcalls => ?_⟩
  obtain ⟨calls, rfl⟩ := Nat.exists_eq_succ_of_ne_zero (Nat.ne_zero_of_lt hcalls)
  exact houter calls (hrun calls (Nat.le_of_succ_le_succ hcalls))

/-- A function that calls no other one has a result as soon as it may be called itself. -/
theorem gives_of_run {last : Except Fault α × Machine}
    (h : ∀ calls, (body (calls + 1)).run machine = some last) : Gives body machine last := by
  refine ⟨1, fun calls hcalls => ?_⟩
  obtain ⟨calls, rfl⟩ := Nat.exists_eq_succ_of_ne_zero (Nat.ne_zero_of_lt hcalls)
  exact h calls

theorem Gives.bind_ok {next : α → Nat → Calculation β} {a : α} {last : Except Fault β × Machine}
    (hbody : Gives body machine (.ok a, machine')) (hnext : Gives (next a) machine' last) :
    Gives (fun calls => body calls >>= fun a => next a calls) machine last := by
  obtain ⟨enough, hrun⟩ := hbody
  obtain ⟨enough', hrun'⟩ := hnext
  refine ⟨max enough enough', fun calls hcalls => ?_⟩
  rw [run_bind_of_ok (hrun calls ((Nat.le_max_left _ _).trans hcalls)),
    hrun' calls ((Nat.le_max_right _ _).trans hcalls)]

theorem Gives.bind_error {next : α → Nat → Calculation β} {fault : Fault}
    (hbody : Gives body machine (.error fault, machine')) :
    Gives (fun calls => body calls >>= fun a => next a calls) machine (.error fault, machine') := by
  obtain ⟨enough, hrun⟩ := hbody
  exact ⟨enough, fun calls hcalls => run_bind_of_error (hrun calls hcalls) _⟩

end

/-- The calculation ends with the result and the variables of the evaluation, and with the counter
as it was. -/
def Ends (body : Nat → Calculation α) (spec : Evaluation α) (machine : Machine) : Prop :=
  ∃ result bindings, Gives body machine (result, { machine with bindings := bindings }) ∧
    spec.run machine.bindings = (result, bindings)

section

variable {body : Nat → Calculation α} {spec : Evaluation α} {machine : Machine}

theorem ends_pure (a : α) : Ends (fun _ => pure a) (pure a) machine :=
  ⟨_, _, gives_of_run fun _ => rfl, rfl⟩

theorem ends_throw (fault : Fault) :
    Ends (fun _ => throw fault : Nat → Calculation α) (throw fault) machine :=
  ⟨_, _, gives_of_run fun _ => rfl, rfl⟩

theorem ends_liftExcept (result : Except Fault Int64) :
    Ends (fun _ => liftExcept result) (Expression.evaluate.liftExcept result) machine := by
  cases result with
  | error fault => exact ends_throw fault
  | ok value => exact ends_pure value

theorem Ends.of_succ {outer : Nat → Calculation α} (h : Ends body spec machine)
    (houter : ∀ calls, outer (calls + 1) = body calls) : Ends outer spec machine := by
  obtain ⟨result, bindings, hgives, hspec⟩ := h
  refine ⟨result, bindings, hgives.of_succ fun calls hrun => ?_, hspec⟩
  rw [houter, hrun]

theorem Ends.bind {next : α → Nat → Calculation β} {after : α → Evaluation β}
    (hbody : Ends body spec machine)
    (hnext : ∀ a bindings, Gives body machine (.ok a, { machine with bindings := bindings }) →
      Ends (next a) (after a) { machine with bindings := bindings }) :
    Ends (fun calls => body calls >>= fun a => next a calls) (spec >>= after) machine := by
  obtain ⟨result, bindings, hgives, hspec⟩ := hbody
  cases result with
  | error fault =>
      exact ⟨_, _, hgives.bind_error, Arithmetic.run_bind_of_error hspec after⟩
  | ok a =>
      obtain ⟨result, final, hfinal, hafter⟩ := hnext a bindings hgives
      exact ⟨result, final, hgives.bind_ok hfinal,
        (Arithmetic.run_bind_of_ok hspec after).trans hafter⟩

end

end Calculation

namespace Machine

open Calculation (Gives Ends gives_of_run ends_pure ends_throw ends_liftExcept)

/-- How many more values of variables may be evaluated one inside the other. -/
def spare (machine : Machine) : Nat := maxResolveDepth - machine.depth

/-- The variable holds an expression that may be evaluated. -/
structure Holds (machine : Machine) (name : String) (inner : Expression) : Prop where
  notEmpty : ¬(machine.held name).isEmpty = true
  notNumeral : Text.signed64? (machine.held name) = none
  parsed : Expression.ofText (machine.held name) = .ok inner
  withinDepth : machine.depth < maxResolveDepth

/-- The evaluations that one evaluation calls for, each in the state of the machine at the call. -/
inductive Calls : Machine × Expression → Machine × Expression → Prop where
  | operand {machine : Machine} {op : UnaryOperator} {operand : Expression} :
      Calls (machine, .unary op operand) (machine, operand)
  | left {machine : Machine} {op : BinaryOperator} {left right : Expression} :
      Calls (machine, .binary op left right) (machine, left)
  | right {machine machine' : Machine} {op : BinaryOperator} {left right : Expression}
      {value : Int64} (h : Gives (evaluate · left) machine (.ok value, machine')) :
      Calls (machine, .binary op left right) (machine', right)
  | test {machine : Machine} {test consequent alternative : Expression} :
      Calls (machine, .conditional test consequent alternative) (machine, test)
  | consequent {machine machine' : Machine} {test consequent alternative : Expression}
      {value : Int64} (h : Gives (evaluate · test) machine (.ok value, machine')) :
      Calls (machine, .conditional test consequent alternative) (machine', consequent)
  | alternative {machine machine' : Machine} {test consequent alternative : Expression}
      {value : Int64} (h : Gives (evaluate · test) machine (.ok value, machine')) :
      Calls (machine, .conditional test consequent alternative) (machine', alternative)
  | value {machine : Machine} {name : String} {op : Option BinaryOperator} {value : Expression} :
      Calls (machine, .assign name op value) (machine, value)
  | held {machine : Machine} {name : String} {inner : Expression}
      (h : machine.Holds name inner) : Calls (machine, .variable name) (machine.raised, inner)
  | heldBefore {machine machine' : Machine} {name : String} {op : BinaryOperator}
      {value inner : Expression} {operand : Int64}
      (h : Gives (evaluate · value) machine (.ok operand, machine'))
      (hheld : machine'.Holds name inner) :
      Calls (machine, .assign name (some op) value) (machine'.raised, inner)

/-- The levels that are left, and then the size of the expression. -/
def measure (call : Machine × Expression) : Nat × Nat := (call.1.spare, call.2.size)

/-- Evaluation ends as the one by levels does. -/
def EndsOn (call : Machine × Expression) : Prop :=
  Ends (evaluate · call.2) (call.2.evaluate (Arithmetic.resolve call.1.spare)) call.1

theorem depth_of_ends {machine machine' : Machine} {e : Expression} {result : Except Fault Int64}
    (hends : EndsOn (machine, e)) (h : Gives (evaluate · e) machine (result, machine')) :
    machine'.depth = machine.depth := by
  obtain ⟨_, bindings, hgives, -⟩ := hends
  obtain ⟨-, rfl⟩ := Prod.mk.inj (h.unique hgives)
  rfl

theorem Holds.spare_raised {machine : Machine} {name : String} {inner : Expression}
    (h : machine.Holds name inner) : machine.raised.spare + 1 = machine.spare := by
  have := h.withinDepth
  simp only [spare, raised]
  omega

theorem spare_of_depth {machine machine' : Machine} (h : machine'.depth = machine.depth) :
    machine'.spare = machine.spare := by
  rw [spare, h, spare]

/-- A call has fewer levels left, or as many and a smaller expression. -/
theorem Calls.descends {call next : Machine × Expression} (h : Calls call next)
    (hparts : ∀ e : Expression, e.size < call.2.size → EndsOn (call.1, e)) :
    Prod.Lex (· < ·) (· < ·) (measure next) (measure call) := by
  -- what the parts called before leave behind has the same counter
  have hsame : ∀ {machine machine' : Machine} {e part whole : Expression} {value : Int64},
      (∀ e : Expression, e.size < whole.size → EndsOn (machine, e)) →
      Gives (evaluate · e) machine (.ok value, machine') → e.size < whole.size →
      part.size < whole.size →
      Prod.Lex (· < ·) (· < ·) (measure (machine', part)) (measure (machine, whole)) := by
    intro machine machine' e part whole value hparts hrun he hpart
    rw [measure, spare_of_depth (depth_of_ends (hparts e he) hrun)]
    exact .right _ hpart
  cases h with
  | operand => exact .right _ (Nat.lt_succ_self _)
  | left => exact .right _ (by simp only [Expression.size]; omega)
  | right hrun =>
      exact hsame hparts hrun (by simp only [Expression.size]; omega)
        (by simp only [Expression.size]; omega)
  | test => exact .right _ (by simp only [Expression.size]; omega)
  | consequent hrun | alternative hrun =>
      exact hsame hparts hrun (by simp only [Expression.size]; omega)
        (by simp only [Expression.size]; omega)
  | value => exact .right _ (Nat.lt_succ_self _)
  | held hheld => exact .left _ _ (Nat.lt_of_succ_le (Nat.le_of_eq hheld.spare_raised))
  | heldBefore hrun hheld =>
      refine .left _ _ ?_
      rw [← spare_of_depth (depth_of_ends (hparts _ (Nat.lt_succ_self _)) hrun)]
      exact Nat.lt_of_succ_le (Nat.le_of_eq hheld.spare_raised)

theorem run_resolve (calls : Nat) (name : String) (machine : Machine) :
    (resolve (calls + 1) name).run machine =
      if (machine.held name).isEmpty then some (.ok 0, machine)
      else
        match Text.signed64? (machine.held name) with
        | some value => some (.ok (Int64.ofInt value), machine)
        | none =>
            if maxResolveDepth ≤ machine.depth then some (.error (.tooDeep name), machine)
            else
              match Expression.ofText (machine.held name) with
              | .error fault => some (.error fault, machine)
              | .ok inner =>
                  ((evaluate calls inner).run machine.raised).map fun last =>
                    (last.1, last.2.lowered) := by
  have hget : (get : Calculation Machine).run machine = some (.ok machine, machine) := rfl
  rw [resolve]
  refine (Calculation.run_bind_of_ok hget _).trans ?_
  by_cases hempty : (machine.held name).isEmpty = true
  · rw [if_pos hempty, if_pos hempty]
    rfl
  rw [if_neg hempty, if_neg hempty]
  cases Text.signed64? (machine.held name) with
  | some value => rfl
  | none =>
      by_cases hdepth : maxResolveDepth ≤ machine.depth
      · simp only [if_pos hdepth]
        rfl
      simp only [if_neg hdepth]
      change (match Expression.ofText (machine.held name) with
        | .error fault => some (Except.error fault, machine)
        | .ok inner => ((evaluate calls inner).run machine.raised).bind fun last =>
            some (last.1, last.2.lowered)) = _
      cases Expression.ofText (machine.held name) with
      | error fault => rfl
      | ok inner => exact Option.map_eq_bind.symm

/-- The value of a text that a variable holds, by the levels that are left. -/
def valueHeld (levels : Nat) (name held : String) : Evaluation Int64 :=
  match levels with
  | 0 => throw (.tooDeep name)
  | levels + 1 =>
      match Expression.ofText held with
      | .error fault => throw fault
      | .ok inner => inner.evaluate (Arithmetic.resolve levels)

theorem resolve_eq (levels : Nat) (name : String) :
    Arithmetic.resolve levels name = resolveWith (valueHeld levels) name := by
  cases levels <;> rfl

/-- A variable is resolved when the expression in it can be evaluated. -/
theorem ends_resolve {machine : Machine} {name : String}
    (h : ∀ inner, machine.Holds name inner → EndsOn (machine.raised, inner)) :
    Ends (resolve · name) (Arithmetic.resolve machine.spare name) machine := by
  have hheld : Text.trim ((machine.bindings.get? name).getD "") = machine.held name := rfl
  rw [Ends, resolve_eq, run_resolveWith, hheld]
  have hrun := fun calls => run_resolve calls name machine
  by_cases hempty : (machine.held name).isEmpty = true
  · simp only [if_pos hempty] at hrun ⊢
    exact ⟨_, _, gives_of_run hrun, rfl⟩
  simp only [if_neg hempty] at hrun ⊢
  cases hnumeral : Text.signed64? (machine.held name) with
  | some value =>
      simp only [hnumeral] at hrun
      exact ⟨_, _, gives_of_run hrun, rfl⟩
  | none =>
      simp only [hnumeral] at hrun ⊢
      by_cases hdepth : maxResolveDepth ≤ machine.depth
      · simp only [if_pos hdepth] at hrun
        rw [spare, Nat.sub_eq_zero_of_le hdepth]
        exact ⟨_, _, gives_of_run hrun, rfl⟩
      simp only [if_neg hdepth] at hrun
      cases hparsed : Expression.ofText (machine.held name) with
      | error fault =>
          simp only [hparsed] at hrun
          refine ⟨_, _, gives_of_run hrun, ?_⟩
          cases hspare : machine.spare with
          | zero => exact absurd (Nat.sub_eq_zero_iff_le.mp hspare) hdepth
          | succ levels =>
              rw [valueHeld, hparsed]
              rfl
      | ok inner =>
          simp only [hparsed] at hrun
          have hholds : machine.Holds name inner :=
            ⟨hempty, hnumeral, hparsed, Nat.lt_of_not_le hdepth⟩
          obtain ⟨result, bindings, hgives, hvalue⟩ := h inner hholds
          refine ⟨result, bindings, hgives.of_succ fun calls hinner => ?_, ?_⟩
          · rw [hrun]
            dsimp only at hinner
            rw [hinner]
            rfl
          · rw [← hholds.spare_raised, valueHeld, hparsed]
            exact hvalue

theorem evaluate_binary {op : BinaryOperator} (hand : op ≠ .and) (hor : op ≠ .or) (calls : Nat)
    (left right : Expression) :
    evaluate (calls + 1) (.binary op left right) =
      evaluate calls left >>= fun first =>
        evaluate calls right >>= fun second => liftExcept (op.apply first second) := by
  rw [evaluate]
  · exact hand
  · exact hor

theorem ends_binary {machine : Machine} {op : BinaryOperator} {left right : Expression}
    (h : ∀ next, Calls (machine, .binary op left right) next → EndsOn next) :
    EndsOn (machine, .binary op left right) := by
  have hleft : EndsOn (machine, left) := h _ .left
  by_cases hand : op = .and
  · subst hand
    rw [EndsOn, Expression.evaluate]
    refine Ends.of_succ (hleft.bind fun first bindings hfirst => ?_) fun calls => by rw [evaluate]
    by_cases hzero : first = 0
    · simp only [if_pos hzero]
      exact ends_pure 0
    · simp only [if_neg hzero]
      exact (h _ (.right hfirst)).bind fun second _ _ => ends_pure (ofBool (second != 0))
  by_cases hor : op = .or
  · subst hor
    rw [EndsOn, Expression.evaluate]
    refine Ends.of_succ (hleft.bind fun first bindings hfirst => ?_) fun calls => by rw [evaluate]
    by_cases hzero : first ≠ 0
    · simp only [if_pos hzero]
      exact ends_pure 1
    · simp only [if_neg hzero]
      exact (h _ (.right hfirst)).bind fun second _ _ => ends_pure (ofBool (second != 0))
  rw [EndsOn, Expression.evaluate_binary hand hor]
  refine Ends.of_succ (hleft.bind fun first _ hfirst => ?_) fun calls =>
    evaluate_binary hand hor calls left right
  exact (h _ (.right hfirst)).bind fun second _ _ => ends_liftExcept (op.apply first second)

theorem ends_assigned {machine : Machine} (name : String) (value : Int64) :
    Ends (fun _ => do
        modify (·.assigned name (numeral value))
        return value : Nat → Calculation Int64)
      (do modify (fun bindings => bindings.insert name (numeral value)); return value) machine :=
  ⟨_, _, gives_of_run fun _ => rfl, rfl⟩

theorem ends_assign {machine : Machine} {name : String} {op : Option BinaryOperator}
    {value : Expression} (h : ∀ next, Calls (machine, .assign name op value) next → EndsOn next) :
    EndsOn (machine, .assign name op value) := by
  rw [EndsOn, Expression.evaluate]
  by_cases hname : (!Syntax.isName name) = true
  · rw [if_pos hname]
    refine (ends_throw (.notVariable name)).of_succ fun calls => ?_
    rw [evaluate, if_pos hname]
    rfl
  rw [if_neg hname]
  refine Ends.of_succ ((h _ .value).bind fun operand bindings hoperand => ?_) fun calls => by
    rw [evaluate, if_neg hname]
  cases op with
  | none => exact ends_assigned name operand
  | some op =>
      have hresolve : Ends (resolve · name) (Arithmetic.resolve machine.spare name)
          { machine with bindings := bindings } :=
        ends_resolve fun inner hinner => h _ (.heldBefore hoperand hinner)
      refine hresolve.bind fun old _ _ => ?_
      exact (ends_liftExcept (op.apply old operand)).bind fun result _ _ =>
        ends_assigned name result

/-- An evaluation ends when those that it calls for end. -/
theorem ends_of_calls {machine : Machine} {e : Expression}
    (h : ∀ next, Calls (machine, e) next → EndsOn next) : EndsOn (machine, e) := by
  cases e with
  | number value => exact (ends_pure value).of_succ fun calls => by rw [evaluate]
  | «variable» name =>
      exact (ends_resolve fun inner hinner => h _ (.held hinner)).of_succ fun calls => by
        rw [evaluate]
  | unary op operand =>
      rw [EndsOn, Expression.evaluate]
      refine Ends.of_succ ((h _ .operand).bind fun value _ _ => ends_pure (op.apply value))
        fun calls => by rw [evaluate]
  | binary op left right => exact ends_binary h
  | conditional test consequent alternative =>
      rw [EndsOn, Expression.evaluate]
      refine Ends.of_succ ((h _ .test).bind fun value bindings hvalue => ?_) fun calls => by
        rw [evaluate]
      by_cases hzero : value ≠ 0
      · simp only [if_pos hzero]
        exact h _ (.consequent hvalue)
      · simp only [if_neg hzero]
        exact h _ (.alternative hvalue)
  | assign name op value => exact ends_assign h

/-- Every evaluation ends, by induction on the levels that are left and the size. -/
theorem endsOn (machine : Machine) (e : Expression) : EndsOn (machine, e) :=
  ends_of_calls fun next hnext =>
    have _hless := hnext.descends fun part _hpart => endsOn machine part
    endsOn next.1 next.2
termination_by (machine.spare, e.size)
decreasing_by
  · exact .right _ _hpart
  · exact _hless

end Machine

/-- The value of a text is what its evaluation comes to on a machine that starts. -/
theorem gives_value {text : String} {e : Expression} (h : Expression.ofText text = .ok e)
    (bindings : Bindings String) :
    Calculation.Gives (Machine.evaluate · e) ⟨bindings, 0⟩
      ((value text bindings).1, ⟨(value text bindings).2, 0⟩) := by
  obtain ⟨result, after, hgives, hvalue⟩ := Machine.endsOn ⟨bindings, 0⟩ e
  have hwhole : value text bindings = (result, after) := by
    rw [value, h]
    exact hvalue
  rw [hwhole]
  exact hgives

/-- Two variables that stand for each other are resolved until no level is left. -/
example : (value "a" ⟨[("a", "b"), ("b", "a")]⟩).1 = .error (.tooDeep "a") := by cbv

/-- Every evaluation ends, in success and in failure with the counter where it was, as the
evaluation by levels does.  The evaluations that it calls for have fewer levels left, or as many
and a smaller expression.  From a machine that starts it comes to the value of the text. -/
theorem evaluation_terminates (e : Expression) (machine : Machine) :
    (∃ result bindings,
      (∃ enough, ∀ calls, enough ≤ calls →
        (Machine.evaluate calls e).run machine = some (result, ⟨bindings, machine.depth⟩)) ∧
      (e.evaluate (resolve machine.spare)).run machine.bindings = (result, bindings)) ∧
    (∀ next, Machine.Calls (machine, e) next →
      Prod.Lex (· < ·) (· < ·) (Machine.measure next) (Machine.measure (machine, e))) ∧
    ∀ text, Expression.ofText text = .ok e → ∃ enough, ∀ calls, enough ≤ calls →
      (Machine.evaluate calls e).run ⟨machine.bindings, 0⟩ =
        some ((value text machine.bindings).1, ⟨(value text machine.bindings).2, 0⟩) :=
  ⟨Machine.endsOn machine e,
    fun _ hnext => hnext.descends fun part _ => Machine.endsOn machine part,
    fun _ htext => gives_value htext machine.bindings⟩

end Conch.Arithmetic
