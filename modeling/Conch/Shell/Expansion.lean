import Conch.Arithmetic.Evaluation
import Conch.Files.Glob
import Conch.Shell.Basic
import Conch.Shell.Field
import Conch.Shell.Parameter
import Conch.Syntax.Parser
import Conch.Syntax.Rendering

/-!
# Word expansion

What the fragments of a word stand for.  Literals lose their quotes, parameters,
substitutions and arithmetic give their values, and unquoted values are split.  A word
becomes a list of fields, whose wildcards stand for file names, or one text.
-/

namespace Conch

open Syntax (Node Position parseWord)

/-- How the parts of a tree are executed and expanded: the rules for each construct are written in
terms of an evaluator for its parts, so that they can be read one by one. -/
structure Evaluator where
  /-- Executes a statement; the result is its status. -/
  execute : Node → Action Int
  /-- Expands a fragment of a word onto fields; inside double quotes nothing is split. -/
  expand : (isQuoted : Bool) → Node → Fields → Action Fields

/-- The blanks at which values are split unless the script says otherwise. -/
def standardSeparators : String := " \t\n"

namespace Fields

/-- Adds a literal that stands outside double quotes; `run` holds plain characters, backwards. -/
def addLiteral (fields : Fields) (run : List Char) (text : List Char) : Fields :=
  match text with
  | [] => fields.addUnquoted (String.ofList run.reverse)
  | '\'' :: rest =>
      let fields := fields.addUnquoted (String.ofList run.reverse)
      let fields := fields.addQuoted (String.ofList (rest.takeWhile (· ≠ '\'')))
      fields.addLiteral [] (rest.dropWhile (· ≠ '\'')).tail
  | ['\\'] => (fields.addUnquoted (String.ofList run.reverse)).addQuoted "\\"
  | '\\' :: '\n' :: rest => (fields.addUnquoted (String.ofList run.reverse)).addLiteral [] rest
  | '\\' :: c :: rest =>
      ((fields.addUnquoted (String.ofList run.reverse)).addQuoted (String.singleton c)).addLiteral
        [] rest
  | c :: rest => fields.addLiteral (c :: run) rest
termination_by text.length
decreasing_by
  all_goals simp only [List.length_cons, List.length_tail]
  all_goals (try have := (List.dropWhile_sublist (l := rest) (· ≠ '\'')).length_le)
  all_goals omega

end Fields

/-- Removes the backslashes that have a meaning inside double quotes; `seen` holds the result
so far, backwards. -/
def unescapeOnto (seen : List Char) : List Char → List Char
  | '\\' :: '\n' :: rest => unescapeOnto seen rest
  | '\\' :: c :: rest =>
      if c = '$' || c = '"' || c = '\\' || c = '\x60' then unescapeOnto (c :: seen) rest
      else unescapeOnto ('\\' :: seen) (c :: rest)
  | c :: rest => unescapeOnto (c :: seen) rest
  | [] => seen.reverse

def unescapeQuoted (text : String) : String := String.ofList (unescapeOnto [] text.toList)

section

variable (parts : Evaluator)

/-- Executes statements in order; the status is that of the last one. -/
def executeAll (statements : List Node) : Action Int :=
  statements.foldlM (fun _ statement => parts.execute statement) 0

def expandAll (isQuoted : Bool) (fragments : List Node) (fields : Fields) : Action Fields :=
  fragments.foldlM (fun fields fragment => parts.expand isQuoted fragment fields) fields

/-- The expansion of a leading tilde, quoted, and the text after it. -/
def homeOf (state : State) : List Char → Option (String × List Char)
  | '~' :: rest =>
      if rest.head?.all (· == '/') then (state.get? "HOME").map (fun home => (home, rest)) else none
  | _ => none

/-- Expands a word to fields. -/
def expandWord (splits : Bool) (word : Node) : Action Fields := do
  let state ← Action.state
  let fields := Fields.new splits ((state.get? "IFS").getD standardSeparators)
  match word.fragments with
  | .literal text :: rest =>
      match homeOf state text.toList with
      | some (home, after) =>
          expandAll parts false rest ((fields.addQuoted home).addLiteral [] after)
      | none => expandAll parts false (.literal text :: rest) fields
  | fragments => expandAll parts false fragments fields

/-- Expands a word to one text; nothing is split and wildcards mean nothing. -/
def expandSingle (word : Node) : Action String := do
  return (← expandWord parts false word).joined

/-- Expands a word to the text of a pattern, in which quoted characters stand for themselves. -/
def expandPattern (word : Node) : Action String := do
  return (← expandWord parts false word).joinedPattern

/-- The file names that a field stands for, or its own text. -/
def fieldNames (field : Field) : Action (List String) := do
  if !field.isWild then return [field.text]
  let directory := (← Action.state).directory
  let found ← Action.ofProc (do return .ok (← Glob.expand field.pattern directory))
  return if found.isEmpty then [field.text] else found

/-- Expands words to the arguments of a command. -/
def expandWords (words : List Node) : Action (List String) :=
  words.flatMapM fun word => do
    (← expandWord parts true word).toList.flatMapM fieldNames

/-! ## Values -/

/-- The value of the word after the operator of a parameter expansion. -/
def operandValue (operand : String) : Action String :=
  match parseWord operand ⟨0, 0⟩ 1 with
  | .error e => throw (.substitution operand (.operand e.cause))
  | .ok fragments => expandSingle parts (.word fragments)

def noValue : String := "parameter null or not set"

def operationValue (name : String) (orEmpty : Bool) (op : ParameterOperator) (operand : String) :
    Action String := do
  let value := (← Action.state).parameter? name
  let missing := value.all (fun text => orEmpty && text.isEmpty)
  match op with
  | .alternative => if missing then return "" else operandValue parts operand
  | .useDefault => if missing then operandValue parts operand else return value.getD ""
  | .assignDefault =>
      if !missing then return value.getD ""
      if !Syntax.isName name then throw (.command (.notAssignable name))
      let text ← operandValue parts operand
      Action.modifyState (·.set name text)
      return text
  | .required =>
      if !missing then return value.getD ""
      let message ← if operand.isEmpty then pure noValue else operandValue parts operand
      throw (.command (.parameterUnset name message))

def parameterValue (short : Bool) (text : String) : Action String := do
  let state ← Action.state
  if short then return (state.parameter? text).getD ""
  match ParameterForm.ofText? text with
  | none => throw (.substitution text .form)
  | some .count => return toString state.positional.length
  | some (.length name) => return toString ((state.parameter? name).getD "").length
  | some (.value name) => return (state.parameter? name).getD ""
  | some (.operation name orEmpty op operand) => operationValue parts name orEmpty op operand

/-- What statements write, without the newlines at its end. -/
def substitutionValue (body : List Node) : Action String := do
  let buffer ← Action.request .newBuffer
  let status ← Action.inSubshell
    (fun shell => { shell with streams := { shell.streams with output := .buffer buffer } })
    (executeAll parts body)
  modify fun shell =>
    { shell with state := { shell.state with status := status }, substitutionStatus := some status }
  let bytes ← Action.request (.contents buffer)
  return String.ofList (Text.dropLastWhile (· == '\n') (Text.decodeLossy bytes).toList)

/-- The value of an arithmetic text after the expansions in it. -/
def arithmeticValue (text : String) : Action String :=
  match parseWord text ⟨0, 0⟩ 1 with
  | .error e => throw (.arithmetic (Text.trim text) (.word e.cause))
  | .ok fragments => do
      let expanded ← expandSingle parts (.word fragments)
      let (result, bindings) := Arithmetic.value expanded (← Action.state).bindings
      Action.modifyState fun state => { state with bindings := bindings }
      match result with
      | .ok value => return Arithmetic.numeral value
      | .error fault => throw (.arithmetic (Text.trim expanded) (.expression fault))

/-! ## Fragments -/

/-- Only the list of all positional parameters. -/
def isAllParameters : List Node → Bool
  | [.parameter _ text] => text == "@"
  | _ => false

/-- Adds the positional parameters as fields of their own. -/
def Fields.addEach (fields : Fields) : List String → Fields
  | [] => fields
  | first :: rest =>
      rest.foldl (fun fields text => fields.finish.addQuoted text) (fields.addQuoted first)

/-- The start of a double-quoted stretch; it makes a field unless it is only a list of
parameters that is empty. -/
def Fields.startQuoted (fields : Fields) (inside : List Node) (positional : List String) :
    Fields :=
  let fields := fields.addQuoted ""
  if isAllParameters inside && positional.isEmpty then
    { fields with started := !fields.current.text.isEmpty }
  else fields

def expandFragment (isQuoted : Bool) (fragment : Node) (fields : Fields) : Action Fields :=
  match fragment with
  | .literal text =>
      if isQuoted then return fields.addQuoted (unescapeQuoted text)
      else return fields.addLiteral [] text.toList
  | .quoted inside => do
      expandAll parts true inside (fields.startQuoted inside (← Action.state).positional)
  | .parameter short text => do
      if isQuoted && text = "@" then return fields.addEach (← Action.state).positional
      return fields.addValue isQuoted (← parameterValue parts short text)
  | .substitution body => do return fields.addValue isQuoted (← substitutionValue parts body)
  | .arithmetic text => do return fields.addValue isQuoted (← arithmeticValue parts text)
  | .word inside => expandAll parts isQuoted inside fields
  | other => return fields.addQuoted other.render

end

end Conch
