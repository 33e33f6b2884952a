import Conch.Arithmetic.Expression
import Conch.Shell.State
import Conch.Stream.Pipe
import Conch.Syntax.ParseError

/-!
# Interruptions

What ends the execution of a statement early: control flow on its way to the
construct that it belongs to, a failure of one command, a limit, a failed stream, or
the crash of an external command.
-/

namespace Conch

open Syntax (ParseError Token)

/-- A failure of one command; it becomes the status of that command. -/
inductive CommandFault where
  /-- A tree that is no statement. -/
  | notStatement (text : String)
  | notIdentifier (name : String)
  /-- A default value for a parameter that is no variable. -/
  | notAssignable (name : String)
  | parameterUnset (name : String) (message : String)
  | badDescriptor (number : Nat)
  | ambiguousTarget (target : String)
  | notRedirection (op : Token)
  | notOperator (op : Token)
  | file (path : String) (e : FileError)
  deriving DecidableEq, Repr

def CommandFault.message : CommandFault → String
  | notStatement text => "cannot execute `" ++ text ++ "'"
  | notIdentifier name => "`" ++ name ++ "': not a valid identifier"
  | notAssignable name => "$" ++ name ++ ": cannot assign in this way"
  | parameterUnset name message => name ++ ": " ++ message
  | badDescriptor number => toString number ++ ": bad file descriptor"
  | ambiguousTarget target => target ++ ": ambiguous redirect"
  | notRedirection op => "unsupported redirection `" ++ op.text ++ "'"
  | notOperator op => "unsupported operator `" ++ op.text ++ "'"
  | file path e => path ++ ": " ++ e.brief

/-- What is wrong with an arithmetic expansion. -/
inductive ArithmeticFault where
  | word (e : ParseError.Cause)
  | expression (e : Arithmetic.Fault)
  deriving DecidableEq, Repr

/-- What is wrong with a parameter expansion. -/
inductive SubstitutionFault where
  | form
  /-- The operand is no word. -/
  | operand (e : ParseError.Cause)
  deriving DecidableEq, Repr

/-- A limit that was exceeded. -/
inductive LimitReached where
  | calls (function : String) (limit : Nat)
  | commands (limit : Nat)
  | iterations (loop : String) (limit : Nat)
  deriving DecidableEq, Repr

def LimitReached.message : LimitReached → String
  | calls function limit =>
      function ++ ": maximum recursion depth (" ++ toString limit ++ ") exceeded"
  | commands limit =>
      "maximum command count (" ++ toString limit ++ ") exceeded (possible infinite loop)"
  | iterations loop limit =>
      loop ++ ": too many iterations (" ++ toString limit ++ "), increase max_iterations"

/-- What an external command can fail with, apart from its status. -/
inductive ExternalFault where
  /-- Its streams failed. -/
  | stream (e : StreamError)
  | crash
  deriving DecidableEq, Repr

inductive Interruption where
  /-- Leave this many enclosing loops. -/
  | breakLoops (levels : Nat)
  /-- Go on with the next round of the loop so many levels out. -/
  | continueLoop (levels : Nat)
  | leaveFunction (status : Int)
  | leaveShell (status : Int)
  | command (fault : CommandFault)
  | arithmetic (text : String) (fault : ArithmeticFault)
  | substitution (text : String) (fault : SubstitutionFault)
  | limit (reached : LimitReached)
  | stream (e : StreamError)
  /-- An external command crashed; nothing is cleaned up on the way out. -/
  | crash
  deriving DecidableEq, Repr

namespace Interruption

def ofExternal : ExternalFault → Interruption
  | .stream e => .stream e
  | .crash => .crash

def message : Interruption → String
  | breakLoops _ => "break"
  | continueLoop _ => "continue"
  | leaveFunction _ => "return"
  | leaveShell status => "exit " ++ toString status
  | command fault => fault.message
  | arithmetic text (.word e) => text ++ ": " ++ e.message
  | arithmetic text (.expression e) => text ++ ": " ++ e.message
  | substitution text .form => "$\x7b" ++ text ++ "\x7d: bad substitution"
  | substitution text (.operand e) => text ++ ": " ++ e.message ++ ": bad substitution"
  | limit reached => reached.message
  | stream e => e.message
  | crash => "runner panicked"

/-- Failures of one command, which are reported and become its status. -/
def isLocal : Interruption → Bool
  | command _ | arithmetic .. | substitution .. => true
  | _ => false

/-- Interruptions by which a scope is left. -/
def leavesScope : Interruption → Bool
  | breakLoops _ | continueLoop _ | leaveFunction _ => true
  | _ => false

end Interruption

/-- The status of a run that a limit stopped. -/
def limitStatus : Int := 126

end Conch
