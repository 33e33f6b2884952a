import Conch.Arithmetic.Evaluation

/-!
# Evaluation on a machine

The evaluation of expressions with a counter in its state.  The counter says how many values of
variables are being evaluated one inside the other; it is raised before such a value is evaluated
and lowered after it, whether or not that failed.  The functions call each other, and the counter
does not bound how deep: that is a number of its own, and where more calls would have to be
nested there is no result.  `resolve` and `Expression.evaluate` go down by the levels that are
left instead, and are what such an evaluation comes to once enough calls may be nested.
-/

namespace Conch.Arithmetic

structure Machine where
  bindings : Bindings String
  /-- How many values of variables are being evaluated. -/
  depth : Nat
  deriving DecidableEq, Repr

/-- A computation that may assign to variables, may fail, and may have no result. -/
abbrev Calculation := ExceptT Fault (StateT Machine Option)

namespace Machine

/-- What the variable holds, without the blanks around it. -/
def held (machine : Machine) (name : String) : String :=
  Text.trim ((machine.bindings.get? name).getD "")

def raised (machine : Machine) : Machine := { machine with depth := machine.depth + 1 }

def lowered (machine : Machine) : Machine := { machine with depth := machine.depth - 1 }

def assigned (machine : Machine) (name value : String) : Machine :=
  { machine with bindings := machine.bindings.insert name value }

mutual

/-- The value of a variable, with so many calls nested. -/
def resolve : Nat → String → Calculation Int64
  | 0, _ => fun _ => none
  | calls + 1, name => do
      let machine ← get
      if (machine.held name).isEmpty then return 0
      match Text.signed64? (machine.held name) with
      | some value => return Int64.ofInt value
      | none =>
          if maxResolveDepth ≤ machine.depth then throw (.tooDeep name)
          fun machine => do
            let (result, machine) ←
              match Expression.ofText (machine.held name) with
              | .error fault => some (.error fault, machine.raised)
              | .ok inner => evaluate calls inner machine.raised
            return (result, machine.lowered)

/-- The value of an expression, with so many calls nested. -/
def evaluate : Nat → Expression → Calculation Int64
  | 0, _ => fun _ => none
  | _ + 1, .number value => pure value
  | calls + 1, .variable name => resolve calls name
  | calls + 1, .unary op operand => do return op.apply (← evaluate calls operand)
  | calls + 1, .binary .and left right => do
      if (← evaluate calls left) = 0 then return 0
      return ofBool ((← evaluate calls right) != 0)
  | calls + 1, .binary .or left right => do
      if (← evaluate calls left) ≠ 0 then return 1
      return ofBool ((← evaluate calls right) != 0)
  | calls + 1, .binary op left right => do
      let first ← evaluate calls left
      let second ← evaluate calls right
      liftExcept (op.apply first second)
  | calls + 1, .conditional test consequent alternative => do
      if (← evaluate calls test) ≠ 0 then evaluate calls consequent
      else evaluate calls alternative
  | calls + 1, .assign name op value => do
      if !Syntax.isName name then throw (.notVariable name)
      let operand ← evaluate calls value
      let result ←
        match op with
        | some op => do liftExcept (op.apply (← resolve calls name) operand)
        | none => pure operand
      modify (·.assigned name (numeral result))
      return result

end

end Machine

end Conch.Arithmetic
