import Conch.Shell.Script
import Conch.Stream.Transfer
import Conch.Text.Numeral
import Conch.Toml.Document

/-!
# Configuration files

A configuration file gives variables, a working directory and limits for a shell.  It
has no other entries on its first level; limits that it does not know are passed over.
-/

namespace Conch

open Toml (Entries Value)

structure Config where
  /-- Exported variables, sorted by name. -/
  environment : List (String × String)
  directory : Option String
  limits : Limits
  deriving DecidableEq, Repr

inductive ConfigError where
  | unreadable (path : String) (e : FileError)
  | malformed (path : String)
  deriving DecidableEq, Repr

def ConfigError.message : ConfigError → String
  | unreadable path e => "cannot read config " ++ path ++ ": " ++ e.message
  | malformed path => "invalid config " ++ path ++ ": malformed"

namespace Config

/-- The text that a value is. -/
def text? : Value → Option String
  | .text s => some s
  | _ => none

/-- The number up to a limit that a value is. -/
def bounded? (limit : Nat) : Value → Option Nat
  | .integer n => if 0 ≤ n ∧ n ≤ limit then some n.toNat else none
  | _ => none

def environment? : Option Value → Option (List (String × String))
  | none => some []
  | some value => do
      let entries ← value.entries?
      let bindings ← entries.mapM fun (name, value) => do return (name, ← text? value)
      return bindings.mergeSort (fun a b => a.1 ≤ b.1)

def directory? : Option Value → Option (Option String)
  | none => some none
  | some value => (text? value).map some

/-- The limits in a table by name, or in an array by position. -/
def limits? : Option Value → Option Limits
  | none => some .standard
  | some (.array items) => limitsOf items[0]? items[1]? items[2]?
  | some value => do
      let entries ← value.entries?
      limitsOf (entries.lookup "max_recursion_depth") (entries.lookup "max_command_count")
        (entries.lookup "max_iterations")
where
  limitOf (greatest otherwise : Nat) : Option Value → Option Nat
    | none => some otherwise
    | some value => bounded? greatest value
  limitsOf (callDepth commands iterations : Option Value) : Option Limits := do
    return ⟨← limitOf Text.maxWord32 Limits.standard.callDepth callDepth,
      ← limitOf Text.maxWord64 Limits.standard.commands commands,
      ← limitOf Text.maxWord64 Limits.standard.iterations iterations⟩

def ofEntries? (entries : Entries) : Option Config := do
  guard (entries.all fun entry => ["env", "cwd", "limits"].contains entry.1)
  return ⟨← environment? (entries.lookup "env"), ← directory? (entries.lookup "cwd"),
    ← limits? (entries.lookup "limits")⟩

/-- The configuration that a document describes. -/
def ofText? (text : String) : Option Config := (Entries.ofText? text).bind ofEntries?

def load (path : String) : Proc (Except ConfigError Config) := do
  match ← File.readText path with
  | .error e => return .error (.unreadable path e)
  | .ok text =>
      match ofText? text with
      | some config => return .ok config
      | none => return .error (.malformed path)

def options (config : Config) : ShellOptions :=
  ⟨config.environment, config.directory, config.limits⟩

end Config

end Conch
