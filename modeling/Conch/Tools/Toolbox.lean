import Conch.Shell.Invocation
import Conch.Stream.Transfer

/-!
# A toolbox of external commands

Small commands with fixed behaviour: they show what a command is given, copy their
input, fail in every way a command can fail, and wait for each other.
-/

namespace Conch.Toolbox

open Text (Bytes)

/-- The result of a command, which a failed stream or a crash interrupts. -/
abbrev Run := ExceptT ExternalFault Proc

def write (output : Output) (bytes : Bytes) : Run Unit :=
  ExceptT.mk do return (← output.writeBytes bytes).mapError .stream

def writeText (output : Output) (text : String) : Run Unit := write output (Text.encode text)

def joined (args : List String) : String := " ".intercalate args

/-- Upper case for the letters of ASCII. -/
def upperByte (b : UInt8) : UInt8 := if 97 ≤ b && b ≤ 122 then b - 32 else b

/-- Hands the whole input to a function and writes the result; status three without an input. -/
def filter (streams : Streams) (f : Bytes → Bytes) : Run Int := do
  match streams.input with
  | none =>
      writeText streams.output "no stdin\n"
      return 3
  | some input =>
      let bytes ← ExceptT.mk do return (← Proc.readAll input).mapError .stream
      write streams.output (f bytes)
      return 0

/-- Reads single bytes up to the end of a line. -/
def readLine (input : InputId) : Proc (Except StreamError Bytes) :=
  Proc.repeatFrom ([] : Bytes) fun seen => do
    match ← Proc.request (.read input 1) with
    | .error e => return .inr (.error e)
    | .ok [] => return .inr (.ok seen.reverse)
    | .ok (b :: _) =>
        if b = 10 then return .inr (.ok (b :: seen).reverse) else return .inl (b :: seen)

def line (streams : Streams) : Run Int := do
  match streams.input with
  | none => return 3
  | some input =>
      let bytes ← ExceptT.mk do return (← readLine input).mapError .stream
      write streams.output bytes
      return if bytes.isEmpty then 1 else 0

def unread (streams : Streams) (args : List String) : Run Int := do
  match streams.input with
  | none => return 0
  | some input =>
      let bytes := Text.encode (joined args)
      if !bytes.isEmpty then Proc.request (.unread input bytes)
      return 0

/-- The status that an argument asks for. -/
def statusOf (arg : Option String) : Int := (arg.bind Text.signed32?).getD 99

/-- How many jobs may stay unfinished. -/
def unfinishedOf (arg : Option String) : Nat := (arg.bind Text.word64?).getD 0

def run (command : ExternalCommand) (streams : Streams) : Run Int := do
  let args := command.arguments.tail
  let name := command.arguments.headD ""
  match name with
  | "args" =>
      writeText streams.output (String.join (args.map fun arg => "<" ++ arg ++ ">\n"))
      return 0
  | "env" =>
      writeText streams.output
        (String.join (command.environment.map fun (name, value) => name ++ "=" ++ value ++ "\n"))
      return 0
  | "where" =>
      writeText streams.output
        (command.directory ++ " " ++ command.searchPath.getD "-" ++ "\n")
      return 0
  | "st" => return statusOf args.head?
  | "err" =>
      writeText streams.errors (joined args ++ "\n")
      return 0
  | "cat" => filter streams id
  | "upper" => filter streams (·.map upperByte)
  | "count" => filter streams fun bytes => Text.encode (toString bytes.length ++ "\n")
  | "line" => line streams
  | "unread" => unread streams args
  | "iofail" => throw (.stream (.other "tool failed"))
  | "brokenpipe" => throw (.stream (.broken "broken pipe"))
  | "panic" => throw .crash
  | "gate" =>
      Proc.request (.awaitLatch (args.headD ""))
      return 0
  | "open" =>
      Proc.request (.openLatch (args.headD ""))
      return 0
  | "settle" =>
      Proc.request (.awaitJobs (unfinishedOf args.head?))
      return 0
  | _ =>
      writeText streams.errors (diagnostic (name ++ ": command not found"))
      return 127

/-- The toolbox as an executor. -/
def executor : Executor := fun command streams => (run command streams).run

end Conch.Toolbox
