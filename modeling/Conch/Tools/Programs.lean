import Conch.Shell.Script
import Conch.Stream.Transfer
import Conch.Tools.Feeding
import Conch.Tools.Lookup

/-!
# Installed programs

An executor that finds commands in the file system.  It knows the programs `cat`,
`true` and `sh`, and starts script files by the interpreter that their first line
names.  Each program runs on an input that is fed from that of the shell.
-/

namespace Conch.Programs

open Text (Bytes)

/-- Why a file could not be started. -/
inductive StartFault where
  | missing
  | denied
  | notExecutable
  deriving DecidableEq, Repr

def StartFault.status : StartFault → Int
  | missing => 127
  | denied | notExecutable => 126

def StartFault.ofFile : FileError → StartFault
  | .notFound => missing
  | .permissionDenied => denied
  | _ => notExecutable

/-- How a shell reports that a command was not started. -/
abbrev Report := (command : String) → StartFault → String

def report : Report := fun command fault =>
  diagnostic (command ++ ": " ++ match fault with
    | .missing => "command not found"
    | .denied => "Permission denied"
    | .notExecutable => "cannot execute")

/-- The report of an interpreter of that name. -/
def interpreterReport (interpreter : String) : Report := fun command fault =>
  interpreter ++ ": 1: " ++ command ++ ": " ++ (match fault with
    | .missing => "not found"
    | .denied => "Permission denied"
    | .notExecutable => "Exec format error") ++ "\n"

/-- What a program gets from the command that started it. -/
structure Start where
  /-- The name of the program and its arguments. -/
  arguments : List String
  environment : List (String × String)
  directory : String
  input : InputId
  output : Output
  errors : Output

/-- The result of a program, which a failed stream or a crash interrupts. -/
abbrev Run := ExceptT ExternalFault Proc

def write (output : Output) (bytes : Bytes) : Run Unit :=
  ExceptT.mk do return (← output.writeBytes bytes).mapError .stream

def writeText (output : Output) (text : String) : Run Unit := write output (Text.encode text)

/-- Copies an input to an output chunk by chunk. -/
def copyInput (input : InputId) (output : Output) : Run Unit :=
  ExceptT.mk <| Proc.repeatFrom () fun _ => do
    match ← Proc.request (.read input transferSize) with
    | .error e => return .inr (.error (.stream e))
    | .ok [] => return .inr (.ok ())
    | .ok chunk =>
        match ← output.writeBytes chunk with
        | .error e => return .inr (.error (.stream e))
        | .ok () => return .inl ()

/-- What is in a file. -/
def readFile (path : String) : Proc (Except FileError Bytes) := do
  match ← Proc.call (.openFile path .read) with
  | .error e => return .error e
  | .ok descriptor => File.readAll descriptor

/-- Copies files one after the other to the output; without any, copies the input. -/
def cat (start : Start) : Run Int := do
  let files := start.arguments.tail
  if files.isEmpty then copyInput start.input start.output
  let failed ← files.filterM fun file => do
    if file = "-" then
      copyInput start.input start.output
      return false
    match ← readFile (Path.under start.directory file) with
    | .ok bytes =>
        write start.output bytes
        return false
    | .error e =>
        writeText start.errors (start.arguments.headD "" ++ ": " ++ file ++ ": " ++ e.brief ++ "\n")
        return true
  return if failed.isEmpty then 0 else 1

/-- The script that an interpreter is to run, with its name and arguments. -/
structure Script where
  text : String
  name : String
  positional : List String

/-- Finds the script: an argument after an option `-c`, a file, or the input. -/
def findScript (start : Start) : List String → Run (Except String Script)
  | [] => do
      let bytes ← ExceptT.mk do return (← Proc.readAll start.input).mapError .stream
      return .ok ⟨Text.decodeLossy bytes, self, []⟩
  | arg :: rest => do
      if arg.toList.head? = some '-' then
        if arg.toList.contains 'c' then
          match rest with
          | [] => return .error (self ++ ": 0: -c requires an argument\n")
          | text :: names => return .ok ⟨text, names.headD self, names.tail⟩
        else findScript start rest
      else
        match ← readFile (Path.under start.directory arg) with
        | .ok bytes => return .ok ⟨Text.decodeLossy bytes, arg, rest⟩
        | .error e =>
            let reason := if e = .notFound then "No such file" else e.brief
            return .error (self ++ ": 0: cannot open " ++ arg ++ ": " ++ reason ++ "\n")
where
  self : String := start.arguments.headD ""

/-- Interpreters stop no loops. -/
def unlimited : Limits := ⟨0x100000000, 0x1000000000000, 0x1000000000000⟩

/-- The number of the process of an interpreter. -/
def interpreterPid : Nat := 4243

def interpreterShell (start : Start) (script : Script) : Shell :=
  let state := start.environment.foldl
    (fun state entry => (state.set entry.1 entry.2).exportName entry.1)
    (State.initial start.directory interpreterPid)
  let state := { state.set "PWD" start.directory with
    scriptName := script.name
    positional := script.positional }
  { Shell.new state unlimited with
    streams := ⟨some start.input, start.output, start.errors⟩
    dialect := .standalone }

/-- The status of an interpreter after its script. -/
def interpreterStatus (state : State) : Except Interruption Unit → Except ExternalFault Int
  | .ok () => .ok (state.status % 256)
  | .error (.leaveShell status) => .ok (status % 256)
  | .error (.stream e) => .error (.stream e)
  | .error .crash => .error .crash
  | .error _ => .ok 2

/-- Interprets a script. -/
def sh (executor : Report → Executor) (start : Start) : Run Int := do
  match ← findScript start start.arguments.tail with
  | .error complaint =>
      writeText start.errors complaint
      return 2
  | .ok script =>
      match Syntax.parse script.text with
      | .error e =>
          writeText start.errors (script.name ++ ": 1: Syntax error: " ++ e.message ++ "\n")
          return 2
      | .ok program =>
          let run := Action.runProgram (executor (interpreterReport script.name)) program
          ExceptT.mk do
            let (result, shell) ← run (interpreterShell start script)
            return interpreterStatus shell.state result

inductive Program where
  | cat | succeed | interpreter
  deriving DecidableEq, Repr

/-- The program that is installed at a path. -/
def Program.ofPath? (path : String) : Option Program :=
  match (Path.components path).reverse with
  | [name, "bin"] | [name, "bin", "usr"] =>
      if name = "cat" then some .cat
      else if name = "true" then some .succeed
      else if ["sh", "dash", "bash"].contains name then some .interpreter
      else none
  | _ => none

def Program.run (executor : Report → Executor) (start : Start) : Program → Run Int
  | .cat => Programs.cat start
  | .succeed => return 0
  | .interpreter => sh executor start

/-- The interpreter that the first line of a script names, with one argument for it. -/
def interpreterLine? (content : Bytes) : Option (String × List String) :=
  match content with
  | 35 :: 33 :: rest =>
      let isBlank := fun c => c == ' ' || c == '\t'
      let line := (Text.decodeLossy (rest.takeWhile (· ≠ 10))).toList.dropWhile isBlank
      let name := line.takeWhile (fun c => !isBlank c)
      let arg := Text.dropLastWhile isBlank ((line.dropWhile (fun c => !isBlank c)).dropWhile isBlank)
      if name.isEmpty then none
      else some (String.ofList name, if arg.isEmpty then [] else [String.ofList arg])
  | _ => none

/-- What starting a file comes to: a program and its arguments. -/
abbrev Launch := Except StartFault (Program × List String)

/-- How many files may stand between a command and its program, the program included. -/
def maxLaunches : Nat := 6

/-- Follows a file to the program that runs it.  The arguments are those after the name. -/
def launch (directory : String) : Nat → (path name : String) → List String → Proc Launch
  | 0, _, _, _ => return .error .notExecutable
  | launches + 1, path, name, args => do
      match ← Lookup.atPath (Path.under directory path) with
      | .missing =>
          match ← readFile (Path.under directory path) with
          | .error e => return .error (.ofFile e)
          | .ok _ => return .error .missing
      | .denied _ => return .error .denied
      | .command file =>
          match (← Proc.call (.canonical file)).bind Program.ofPath? with
          | some program => return .ok (program, name :: args)
          | none =>
              match (← readFile file).toOption.bind interpreterLine? with
              | none => return .error .notExecutable
              | some (interpreter, options) =>
                  launch directory launches interpreter interpreter (options ++ path :: args)

/-- A text that no program can be given. -/
def hasNull (text : String) : Bool := text.toList.contains (Char.ofNat 0)

/-- Programs are given no text of so many bytes. -/
def textLimit : Nat := 0x20000

/-- Finds what a command starts. -/
def resolve (command : ExternalCommand) (name : String) : Proc Launch := do
  match ← Lookup.find command.directory command.searchPath name with
  | .missing => return .error .missing
  | .denied _ => return .error .denied
  | .command path =>
      if command.texts.any hasNull then return .error .notExecutable
      match ← Proc.call (.list command.directory) with
      | .error e => return .error (.ofFile e)
      | .ok _ =>
          if command.texts.any (fun text => textLimit ≤ text.utf8ByteSize) then
            return .error .notExecutable
          launch command.directory maxLaunches path name command.arguments.tail

/-- Runs a program on an input that is fed from that of the shell, or on an empty one. -/
def runFed (executor : Report → Executor) (program : Program) (arguments : List String)
    (command : ExternalCommand) (streams : Streams) : Proc (Except ExternalFault Int) :=
  let run (input : InputId) := (program.run executor
    ⟨arguments, command.environment, command.directory, input, streams.output, streams.errors⟩).run
  match streams.input with
  | some input => Proc.feeding input run
  | none => do run (← Proc.request (.newInput (.bytes [])))

/-- The executor whose programs may start others so many levels deep. -/
def executorWithin : Nat → Report → Executor
  | 0, _, _, _ => return .ok StartFault.notExecutable.status
  | depth + 1, report, command, streams => do
      match command.arguments with
      | [] => return .ok 0
      | name :: _ =>
          match ← resolve command name with
          | .ok (program, arguments) =>
              runFed (executorWithin depth) program arguments command streams
          | .error fault =>
              match ← streams.errors.write (report name fault) with
              | .ok () => return .ok fault.status
              | .error e => return .error (.stream e)

/-- How deep programs may start each other. -/
def maxDepth : Nat := 1000

/-- The installed programs as an executor. -/
def executor : Executor := executorWithin maxDepth report

end Conch.Programs
