import Conch.Builtin.Name
import Conch.Shell.State
import Conch.Text.Numeral

/-!
# Variables and parameters

`export`, `unset` and `shift`.  The listing of exported variables is written for the shell
to read it back; a dollar sign in a value is not escaped there.
-/

namespace Conch.Builtin

/-- A value as it is listed between double quotes. -/
def escapeListed (value : String) : String :=
  String.ofList (value.toList.flatMap fun c => if c = '\\' || c = '"' then ['\\', c] else [c])

def listExported (state : State) : String :=
  String.join (state.environment.map fun (name, value) =>
    "export " ++ name ++ "=\"" ++ escapeListed value ++ "\"\n")

/-- Divides `NAME=value` at its first equals sign. -/
def splitAssignment (text : String) : String × Option String :=
  let letters := text.toList
  match letters.dropWhile (· ≠ '=') with
  | [] => (text, none)
  | _ :: value => (String.ofList (letters.takeWhile (· ≠ '=')), some (String.ofList value))

def notIdentifier (builtin : Builtin) (text : String) : String :=
  "treesh: " ++ builtin.name ++ ": `" ++ text ++ "': not a valid identifier\n"

/-- The completion of a builtin that complains about some of its arguments. -/
def completionOf (errors : String) : Completion :=
  if errors.isEmpty then .ok else .failure errors

/-- Exports one argument, or takes its export mark away; complaints are collected. -/
def exportOne (unexport : Bool) (reached : State × String) (arg : String) : State × String :=
  let (state, errors) := reached
  let (name, value) := splitAssignment arg
  if !Syntax.isName name then (state, errors ++ notIdentifier .exportNames arg)
  else
    let state :=
      match value with
      | some value => state.set name value
      | none => state
    (if unexport then state.unexportName name else state.exportName name, errors)

def runExport (state : State) (args : List String) : Completion × State :=
  let unexport := args.contains "-n"
  let names := args.filter (fun arg => arg != "-n" && arg != "-p" && arg != "--")
  if names.isEmpty then (.success (listExported state), state)
  else
    let (state, errors) := names.foldl (exportOne unexport) (state, "")
    (completionOf errors, state)

/-- What `unset` is to remove. -/
inductive UnsetMode where
  | bindings | functions
  /-- A variable, or a function if there is no such variable. -/
  | either
  deriving DecidableEq, Repr

def removeFunction (state : State) (name : String) : State :=
  { state with functions := state.functions.erase name }

def unsetOne (mode : UnsetMode) (state : State) (errors arg : String) : State × String :=
  if mode = .functions then (removeFunction state arg, errors)
  else if !Syntax.isName arg then (state, errors ++ notIdentifier .unset arg)
  else if mode = .either && (state.get? arg).isNone then
    (removeFunction (state.unset arg) arg, errors)
  else (state.unset arg, errors)

def unsetFrom (mode : UnsetMode) (state : State) (errors : String) : List String → State × String
  | [] => (state, errors)
  | "-v" :: args => unsetFrom .bindings state errors args
  | "-f" :: args => unsetFrom .functions state errors args
  | arg :: args =>
      let (state, errors) := unsetOne mode state errors arg
      unsetFrom mode state errors args

def runUnset (state : State) (args : List String) : Completion × State :=
  let (state, errors) := unsetFrom .either state "" args
  (completionOf errors, state)

def runShift (state : State) (args : List String) : Completion × State :=
  let count? : Except String Nat :=
    match args with
    | [] => .ok 1
    | arg :: _ =>
        match Text.word64? arg with
        | some count => .ok count
        | none => .error arg
  match count? with
  | .error arg => (.failure ("treesh: shift: " ++ arg ++ ": numeric argument required\n"), state)
  | .ok count =>
      if state.positional.length < count then
        (.failure "treesh: shift: shift count out of range\n", state)
      else (.ok, { state with positional := state.positional.drop count })

end Conch.Builtin
