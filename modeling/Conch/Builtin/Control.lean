import Conch.Builtin.Name
import Conch.Shell.Interruption
import Conch.Text.Numeral

/-!
# Leaving loops, functions and the shell

`break`, `continue`, `return` and `exit`.  Outside of a loop the first two do
nothing, outside of a function the third fails.  Statuses count modulo 256.
`kill` can send signals only to the shell itself, and a shell that a signal ends has
a status of its own for each signal.
-/

namespace Conch.Builtin

/-- The number of loops that `break` and `continue` are for. -/
def loopLevels (name : String) (args : List String) : Except Completion Nat :=
  match args with
  | [] => .ok 1
  | [arg] =>
      match Text.word32? arg with
      | some (n + 1) => .ok (n + 1)
      | _ =>
          .error (.failure ("treesh: " ++ name ++ ": " ++ arg ++ ": loop count out of range\n"))
  | _ => .error (.failure ("treesh: " ++ name ++ ": too many arguments\n"))

/-- The completion of a builtin, or the interruption that it asks for. -/
abbrev Effect := Except Interruption Completion

def leaveLoops (builtin : Builtin) (interruption : Nat → Interruption) (state : State)
    (args : List String) : Effect :=
  if state.loopDepth = 0 then .ok .ok
  else
    match loopLevels builtin.name args with
    | .ok levels => .error (interruption (min levels state.loopDepth))
    | .error completion => .ok completion

def runBreak (state : State) (args : List String) : Effect :=
  leaveLoops .breakLoop .breakLoops state args

def runContinue (state : State) (args : List String) : Effect :=
  leaveLoops .continueLoop .continueLoop state args

/-- A status written as an argument. -/
def statusOf? (arg : String) : Option Int :=
  if arg.isEmpty || !arg.toList.all (fun c => c.isDigit || c == '-') then none
  else (Text.signed64? arg).map (fun n => n % 256)

def runReturn (state : State) (args : List String) : Effect :=
  if state.callDepth = 0 then
    .ok (.failure "treesh: return: can only `return' from a function\n")
  else
    match args with
    | [] => .error (.leaveFunction state.status)
    | arg :: _ =>
        match statusOf? arg with
        | some status => .error (.leaveFunction status)
        | none => .ok ⟨"", "treesh: return: " ++ arg ++ ": numeric argument required\n", 2⟩

/-- The status to exit with, and a complaint about the argument. -/
def exitStatus (state : State) (args : List String) : Int × String :=
  match args with
  | [] => (state.status, "")
  | arg :: _ =>
      match statusOf? arg with
      | some status => (status, "")
      | none => (2, "treesh: exit: " ++ arg ++ ": numeric argument required\n")

/-! ## Signals -/

def signalNames : List (String × Nat) :=
  [("HUP", 1), ("INT", 2), ("QUIT", 3), ("ABRT", 6), ("KILL", 9), ("USR1", 10), ("SEGV", 11),
    ("USR2", 12), ("PIPE", 13), ("ALRM", 14), ("TERM", 15)]

/-- A signal by its name or number. -/
def signal? (text : String) : Option Nat :=
  match signalNames.lookup text with
  | some number => some number
  | none => Text.word32? text

/-- The signal that the arguments ask for, and the numbers of the targets. -/
def signalTargets : List String → Option (Nat × List String)
  | "-s" :: name :: rest => (signal? name).map (fun signal => (signal, rest))
  | [] => none
  | first :: rest =>
      match first.toList with
      | '-' :: name => (signal? (String.ofList name)).map (fun signal => (signal, rest))
      | _ => some (15, first :: rest)

/-- The status of a shell that a signal ended. -/
def signalStatus (signal : Nat) : Int := 128 + signal

def runKill (state : State) (args : List String) : Effect :=
  match signalTargets args with
  | none => .ok ⟨"", "kill: usage error\n", 2⟩
  | some (signal, targets) =>
      if !targets.contains (toString state.pid) then .ok (.failure "kill: No such process\n")
      else if signal = 0 then .ok .ok
      else .error (.leaveShell (signalStatus signal))

end Conch.Builtin
