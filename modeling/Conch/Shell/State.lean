import Conch.Bindings
import Conch.Syntax.Node

/-!
# The state of a shell

Everything that a script can observe or change.  A subshell works on a copy of it.
-/

namespace Conch

open Syntax (Node)

structure State where
  bindings : Bindings String
  /-- The names of the variables that commands are given, each once. -/
  exported : List String
  functions : Bindings Node
  positional : List String
  scriptName : String
  directory : String
  previousDirectory : String
  /-- The status of the last command. -/
  status : Int
  /-- The number of the last background job. -/
  lastJob : Option Nat
  /-- The number of the process. -/
  pid : Nat
  loopDepth : Nat
  callDepth : Nat
  /-- How many simple commands were started. -/
  commands : Nat
  deriving BEq, Repr, Inhabited

namespace State

/-- No variables, and the given directory as the current and the previous one. -/
def initial (directory : String) (pid : Nat) : State where
  bindings := ∅
  exported := []
  functions := ∅
  positional := []
  scriptName := "treesh"
  directory := directory
  previousDirectory := directory
  status := 0
  lastJob := none
  pid := pid
  loopDepth := 0
  callDepth := 0
  commands := 0

def get? (state : State) (name : String) : Option String := state.bindings.get? name

def set (state : State) (name value : String) : State :=
  { state with bindings := state.bindings.insert name value }

def isExported (state : State) (name : String) : Bool := state.exported.contains name

def exportName (state : State) (name : String) : State :=
  if state.isExported name then state else { state with exported := state.exported ++ [name] }

def unexportName (state : State) (name : String) : State :=
  { state with exported := state.exported.filter (· ≠ name) }

/-- Removes a variable and its export mark. -/
def unset (state : State) (name : String) : State :=
  { state.unexportName name with bindings := state.bindings.erase name }

/-- The exported variables that have a value, sorted by name. -/
def environment (state : State) : List (String × String) :=
  (state.exported.mergeSort (fun a b => a ≤ b)).filterMap fun name =>
    (state.get? name).map (fun value => (name, value))

end State

/-- Bounds on what a script may do. -/
structure Limits where
  /-- How deep function calls may nest. -/
  callDepth : Nat
  /-- How many simple commands one run may start. -/
  commands : Nat
  /-- How often one loop may repeat. -/
  iterations : Nat
  deriving DecidableEq, Repr

def Limits.standard : Limits := ⟨1000, 100000, 1000000⟩

end Conch
