import Conch.Arithmetic.Grammar
import Conch.Bindings

/-!
# The value of an expression

Words wrap around, comparisons give one or zero, and the logical operators leave
out their second operand when the first one decides.  A variable whose value is no
number stands for the expression in its value, down to a fixed depth.  Assignments
made before a fault stay made.
-/

namespace Conch.Arithmetic

/-- How deep the values of variables may refer to each other. -/
def maxResolveDepth : Nat := 16

/-- Powers of a word by repeated squaring. -/
def power (base : Int64) (exponent : Nat) : Int64 :=
  if exponent = 0 then 1
  else
    let rest := power (base * base) (exponent / 2)
    if exponent % 2 = 1 then base * rest else rest
termination_by exponent

/-- Exponents count as no more than this. -/
def maxExponent : Nat := 0xFFFFFFFF

def ofBool (b : Bool) : Int64 := if b then 1 else 0

def BinaryOperator.apply (op : BinaryOperator) (left right : Int64) : Except Fault Int64 :=
  match op with
  | .add => .ok (left + right)
  | .sub => .ok (left - right)
  | .mul => .ok (left * right)
  | .div => if right = 0 then .error .divisionByZero else .ok (left / right)
  | .mod => if right = 0 then .error .divisionByZero else .ok (left % right)
  | .pow =>
      if right < 0 then .error .negativeExponent
      else .ok (power left (min right.toInt.toNat maxExponent))
  | .shiftLeft => .ok (left <<< right)
  | .shiftRight => .ok (left >>> right)
  | .less => .ok (ofBool (left < right))
  | .lessEq => .ok (ofBool (left ≤ right))
  | .greater => .ok (ofBool (right < left))
  | .greaterEq => .ok (ofBool (right ≤ left))
  | .equal => .ok (ofBool (left == right))
  | .notEqual => .ok (ofBool (left != right))
  | .bitAnd => .ok (left &&& right)
  | .bitOr => .ok (left ||| right)
  | .bitXor => .ok (left ^^^ right)
  | .and => .ok (ofBool (left != 0 && right != 0))
  | .or => .ok (ofBool (left != 0 || right != 0))

def UnaryOperator.apply (op : UnaryOperator) (operand : Int64) : Int64 :=
  match op with
  | .negate => -operand
  | .plus => operand
  | .not => ofBool (operand == 0)
  | .complement => ~~~operand

/-- A computation that may assign to variables and may fail. -/
abbrev Evaluation := ExceptT Fault (StateM (Bindings String))

def numeral (value : Int64) : String := toString value.toInt

def Expression.evaluate (resolve : String → Evaluation Int64) : Expression → Evaluation Int64
  | .number value => pure value
  | .variable name => resolve name
  | .unary op operand => do return op.apply (← operand.evaluate resolve)
  | .binary .and left right => do
      if (← left.evaluate resolve) = 0 then return 0
      return ofBool ((← right.evaluate resolve) != 0)
  | .binary .or left right => do
      if (← left.evaluate resolve) ≠ 0 then return 1
      return ofBool ((← right.evaluate resolve) != 0)
  | .binary op left right => do
      let first ← left.evaluate resolve
      let second ← right.evaluate resolve
      liftExcept (op.apply first second)
  | .conditional test consequent alternative => do
      if (← test.evaluate resolve) ≠ 0 then consequent.evaluate resolve
      else alternative.evaluate resolve
  | .assign name op value => do
      if !Syntax.isName name then throw (.notVariable name)
      let operand ← value.evaluate resolve
      let result ←
        match op with
        | some op => do liftExcept (op.apply (← resolve name) operand)
        | none => pure operand
      modify (fun bindings => bindings.insert name (numeral result))
      return result
where
  liftExcept : Except Fault Int64 → Evaluation Int64
    | .ok value => pure value
    | .error fault => throw fault

/-- The value of a variable, given the value of the expressions that variables hold. -/
def resolveWith (evaluateText : String → String → Evaluation Int64) (name : String) :
    Evaluation Int64 := do
  let held := Text.trim (((← get).get? name).getD "")
  if held.isEmpty then return 0
  match Text.signed64? held with
  | some value => return Int64.ofInt value
  | none => evaluateText name held

/-- The value of a variable when its value may refer to others to this depth. -/
def resolve : Nat → String → Evaluation Int64
  | 0 => resolveWith (fun name _ => throw (.tooDeep name))
  | depth + 1 =>
      resolveWith (fun _ held =>
        match Expression.ofText held with
        | .error fault => throw fault
        | .ok inner => inner.evaluate (resolve depth))

/-- The value of an expression, and the variables after its assignments. -/
def value (text : String) (bindings : Bindings String) :
    Except Fault Int64 × Bindings String :=
  match Expression.ofText text with
  | .error fault => (.error fault, bindings)
  | .ok parsed => (parsed.evaluate (resolve maxResolveDepth)).run bindings

end Conch.Arithmetic
