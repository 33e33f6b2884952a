import Conch.Shell.State
import Conch.Syntax.Token
import Conch.Syntax.Word
import Conch.Text.Numeral

/-!
# Parameters

The values of parameters, and the forms that may stand between the braces of a
parameter expansion.
-/

namespace Conch

/-- The value of a parameter: a variable, a positional parameter or one of the special ones. -/
def State.parameter? (state : State) (name : String) : Option String :=
  match name with
  | "?" => some (toString state.status)
  | "#" => some (toString state.positional.length)
  | "@" | "*" => some (" ".intercalate state.positional)
  | "$" => some (toString state.pid)
  | "!" => state.lastJob.map toString
  | "-" => some ""
  | "0" => some state.scriptName
  | _ =>
      if name.toList.all Char.isDigit then
        match Text.word64? name with
        | some (n + 1) => state.positional[n]?
        | _ => none
      else state.get? name

inductive ParameterOperator where
  /-- The operand in place of a missing value. -/
  | useDefault
  /-- The same, and the operand is assigned. -/
  | assignDefault
  /-- A missing value is an error. -/
  | required
  /-- The operand in place of a value that is there. -/
  | alternative
  deriving DecidableEq, Repr

inductive ParameterForm where
  /-- The number of positional parameters. -/
  | count
  /-- The number of characters of a value. -/
  | length (name : String)
  | value (name : String)
  /-- With `orEmpty` an empty value counts as missing. -/
  | operation (name : String) (orEmpty : Bool) (op : ParameterOperator) (operand : String)
  deriving DecidableEq, Repr

namespace ParameterForm

/-- The name of a parameter at the head of a text, and the text after it. -/
def splitName (text : List Char) : List Char × List Char :=
  match text with
  | [] => ([], [])
  | c :: rest =>
      if Syntax.isNameStart c then
        (c :: rest.takeWhile Syntax.isNameChar, rest.dropWhile Syntax.isNameChar)
      else if c.isDigit then (c :: rest.takeWhile Char.isDigit, rest.dropWhile Char.isDigit)
      else if Syntax.Word.isSpecialParameter c then ([c], rest)
      else ([], text)

def operator? : Char → Option ParameterOperator
  | '-' => some .useDefault
  | '=' => some .assignDefault
  | '?' => some .required
  | '+' => some .alternative
  | _ => none

/-- The operation that follows the name of a parameter. -/
def operation? (name : String) (orEmpty : Bool) : List Char → Option ParameterForm
  | [] => none
  | c :: operand => (operator? c).map (operation name orEmpty · (String.ofList operand))

/-- The form that a text between braces has, if it has one. -/
def ofText? (text : String) : Option ParameterForm :=
  match text.toList with
  | '#' :: rest =>
      if rest = [] || rest = ['@'] || rest = ['*'] then some count
      else
        match splitName rest with
        | (name, []) => some (length (String.ofList name))
        | _ => none
  | letters =>
      match splitName letters with
      | ([], _) => none
      | (name, []) => some (value (String.ofList name))
      | (name, ':' :: rest) => operation? (String.ofList name) true rest
      | (name, rest) => operation? (String.ofList name) false rest

end ParameterForm

end Conch
