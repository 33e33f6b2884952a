import Conch.Shell.Expansion

/-!
# Redirections

Redirections change a copy of the streams, one after the other.  A file is opened
even if the descriptor then turns out to be a bad one.
-/

namespace Conch

open Syntax (Node Token)

structure Redirection where
  descriptor : Option Nat
  op : Token
  target : Node

/-- An argument of a command that is a redirection. -/
def Redirection.ofNode? : Node → Option Redirection
  | .redirection descriptor op target => some ⟨descriptor, op, target⟩
  | _ => none

namespace Streams

/-- Installs an output as descriptor one or two. -/
def setOutput (streams : Streams) (descriptor : Nat) (output : Output) :
    Except CommandFault Streams :=
  match descriptor with
  | 1 => .ok { streams with output := output }
  | 2 => .ok { streams with errors := output }
  | _ => .error (.badDescriptor descriptor)

/-- Closes a descriptor or makes it a copy of another. -/
def duplicate (streams : Streams) (descriptor : Nat) (target : String) :
    Except CommandFault Streams :=
  if target = "-" then
    if descriptor = 0 then .ok { streams with input := none }
    else streams.setOutput descriptor .discard
  else
    match Text.word32? target with
    | none => .error (.ambiguousTarget target)
    | some source =>
        match descriptor, source with
        | 0, 0 => .ok streams
        | 0, _ => .error (.badDescriptor source)
        | _, 1 => streams.setOutput descriptor streams.output
        | _, 2 => streams.setOutput descriptor streams.errors
        | _, _ => .error (.badDescriptor source)

end Streams

/-- The action that a fault of the command interrupts. -/
def Action.ofFault {α : Type} : Except CommandFault α → Action α
  | .ok a => return a
  | .error fault => throw (.command fault)

/-- Opens the target of a redirection. -/
def openTarget (target : String) (mode : OpenMode) : Action Descriptor := do
  let path := Path.under (← Action.state).directory target
  match ← Action.call (.openFile path mode) with
  | .ok descriptor => return descriptor
  | .error e => throw (.command (.file target e))

def redirect (parts : Evaluator) (streams : Streams) (redirection : Redirection) :
    Action Streams := do
  let target ← expandSingle parts redirection.target
  match redirection.op with
  | .great =>
      let file ← openTarget target .truncate
      Action.ofFault (streams.setOutput (redirection.descriptor.getD 1) (.file file))
  | .greatGreat =>
      let file ← openTarget target .append
      Action.ofFault (streams.setOutput (redirection.descriptor.getD 1) (.file file))
  | .less =>
      let descriptor := redirection.descriptor.getD 0
      if descriptor ≠ 0 then throw (.command (.badDescriptor descriptor))
      let file ← openTarget target .read
      let input ← Action.request (.newInput (.file file))
      return { streams with input := some input }
  | .greatAnd => Action.ofFault (streams.duplicate (redirection.descriptor.getD 1) target)
  | .lessAnd => Action.ofFault (streams.duplicate (redirection.descriptor.getD 0) target)
  | op => throw (.command (.notRedirection op))

/-- The streams of the shell after the redirections of a command. -/
def redirectAll (parts : Evaluator) (redirections : List Redirection) : Action Streams := do
  redirections.foldlM (redirect parts) (← get).streams

end Conch
