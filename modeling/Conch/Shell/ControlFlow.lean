import Conch.Shell.Expansion

/-!
# Conditionals, loops and choices

Each loop takes one level off a `break` or `continue` that leaves its body and passes
the rest on.
-/

namespace Conch

open Syntax (Node Branch Arm)

section

variable (parts : Evaluator)

/-- The first branch whose test succeeds.  Without one the status is that of the last test. -/
def runBranches (otherwise : List Node) (status : Int) : List Branch → Action Int
  | [] => if otherwise.isEmpty then return status else executeAll parts otherwise
  | .mk test body :: rest => do
      let status ← parts.execute test
      if status = 0 then executeAll parts body else runBranches otherwise status rest

def runConditional (test : Node) (body : List Node) (elifs : List Branch) (otherwise : List Node) :
    Action Int :=
  runBranches parts otherwise 0 (.mk test body :: elifs)

/-- What a loop does after its body was interrupted. -/
inductive LoopAction where
  | leave
  | next
  | pass (interruption : Interruption)

def loopAction : Interruption → LoopAction
  | .breakLoops levels => if levels ≤ 1 then .leave else .pass (.breakLoops (levels - 1))
  | .continueLoop levels => if levels ≤ 1 then .next else .pass (.continueLoop (levels - 1))
  | other => .pass other

/-- Runs the body one loop deeper. -/
def inLoop (body : Action Int) : Action Int := do
  Action.modifyState fun state => { state with loopDepth := state.loopDepth + 1 }
  Action.ensuring
    (fun shell =>
      { shell with state := { shell.state with loopDepth := shell.state.loopDepth - 1 } }) body

/-- The status of a loop whose test failed. -/
def endedStatus (dialect : Dialect) (test body : Int) : Int :=
  match dialect with
  | .embedded => test
  | .standalone => body

/-- The rounds of a `while` loop, of which so many are allowed.  `last` is the status of the last
body. -/
def whileRounds (test : Node) (body : List Node) (limit : Nat) : Nat → Int → Action Int
  | 0, last => do
      let status ← parts.execute test
      if status ≠ 0 then return endedStatus (← get).dialect status last
      throw (.limit (.iterations "while" limit))
  | rounds + 1, last => do
      let status ← parts.execute test
      if status ≠ 0 then return endedStatus (← get).dialect status last
      match ← (executeAll parts body).attempt with
      | .ok last => whileRounds test body limit rounds last
      | .error interruption =>
          match loopAction interruption with
          | .leave => return 0
          | .next => whileRounds test body limit rounds last
          | .pass interruption => throw interruption

def runWhile (test : Node) (body : List Node) : Action Int :=
  inLoop do
    let limit := (← get).limits.iterations
    whileRounds parts test body limit limit 0

/-- The rounds of a `for` loop, of which so many are allowed. -/
def forRounds (name : String) (body : List Node) (limit : Nat) :
    Nat → Int → List String → Action Int
  | _, status, [] => return status
  | 0, _, _ :: _ => throw (.limit (.iterations "for" limit))
  | rounds + 1, _, value :: rest => do
      Action.modifyState (·.set name value)
      match ← (executeAll parts body).attempt with
      | .ok status => forRounds name body limit rounds status rest
      | .error interruption =>
          match loopAction interruption with
          | .leave => return 0
          | .next => do forRounds name body limit rounds (← Action.state).status rest
          | .pass interruption => throw interruption

def runFor (name : String) (words body : List Node) : Action Int := do
  if !Syntax.isName name then throw (.command (.notIdentifier name))
  let values ← expandWords parts words
  inLoop do
    let limit := (← get).limits.iterations
    forRounds parts name body limit limit 0 values

/-- The first pattern of an arm that matches decides. -/
def anyMatches (subject : String) : List Node → Action Bool
  | [] => return false
  | word :: rest => do
      let pattern ← expandPattern parts word
      if Pattern.matchesText pattern subject then return true else anyMatches subject rest

def runArms (subject : String) : List Arm → Action Int
  | [] => return 0
  | .mk patterns body :: rest => do
      if ← anyMatches parts subject patterns then executeAll parts body else runArms subject rest

def runChoice (subject : Node) (arms : List Arm) : Action Int := do
  runArms parts (← expandSingle parts subject) arms

end

end Conch
