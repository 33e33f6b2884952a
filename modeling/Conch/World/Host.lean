import Conch.World.Run

/-!
# Running on the host

Answers the calls of programs by the files and the console of the running process.
-/

namespace Conch.Host

/-- The files that were opened. -/
abbrev OpenFiles := StateT (Array IO.FS.Handle) IO

/-- The file error that a system error stands for. -/
def fileError (e : IO.Error) : FileError :=
  match e with
  | .noFileOrDirectory .. | .noSuchThing .. => .notFound
  | .permissionDenied .. => .permissionDenied
  | .inappropriateType _ 20 _ => .notDirectory
  | .inappropriateType .. => .isDirectory
  | .invalidArgument _ 36 _ => .nameTooLong
  | .otherError number text => .other number.toNat text
  | e => .other 5 (toString e)

def attempt {α : Type} (action : IO α) : OpenFiles (Except FileError α) := do
  match ← (action.toBaseIO : BaseIO _) with
  | .ok a => return .ok a
  | .error e => return .error (fileError e)

def metadata (known : IO.FS.Metadata) : Metadata :=
  match known.type with
  | .dir => ⟨true, 0o40755⟩
  | _ => ⟨false, 0o100755⟩

def mode : OpenMode → IO.FS.Mode
  | .read => .read
  | .truncate => .write
  | .append => .append

def openFile (path : String) (openMode : OpenMode) : OpenFiles (Except FileError Descriptor) := do
  match ← attempt (IO.FS.Handle.mk path (mode openMode)) with
  | .error e => return .error e
  | .ok handle =>
      let opened ← get
      set (opened.push handle)
      return .ok (opened.size + 3)

def read (file : Descriptor) (limit : Nat) : OpenFiles (Except FileError Text.Bytes) := do
  let some handle := (← get)[file - 3]? | return .ok []
  let result ← attempt (handle.read limit.toUSize)
  return result.map ByteArray.toList

/-- A line of the console, which is not cut to any limit. -/
def readConsole : OpenFiles (Except FileError Text.Bytes) := do
  let result ← attempt do (← IO.getStdin).getLine
  return result.map Text.encode

def writeTo (stream : IO.FS.Stream) (bytes : Text.Bytes) : IO Unit := do
  stream.write ⟨bytes.toArray⟩
  stream.flush

def write (file : Descriptor) (bytes : Text.Bytes) : OpenFiles (Except FileError Unit) := do
  match file with
  | 1 => attempt do writeTo (← IO.getStdout) bytes
  | 2 => attempt do writeTo (← IO.getStderr) bytes
  | file =>
      let some handle := (← get)[file - 3]? | return .ok ()
      attempt do writeTo (.ofHandle handle) bytes

/-- Answers a call.  Modes are not known here: every file counts as executable. -/
def perform : (c : Call) → OpenFiles c.Reply
  | .describe path => do
      let result ← attempt do ((← IO.currentDir) / path).metadata
      return result.toOption.map metadata
  | .exists path => return (← attempt do ((← IO.currentDir) / path).symlinkMetadata).isOk
  | .list path => do
      let result ← attempt do ((← IO.currentDir) / path).readDir
      return result.map fun entries => (entries.map (·.fileName)).toList
  | .canonical path => do
      let result ← attempt (IO.FS.realPath path)
      return result.toOption.map toString
  | .openFile path openMode => openFile path openMode
  | .read 0 _ => readConsole
  | .read file limit => read file limit
  | .write file bytes => write file bytes

/-- Runs a program on the host; there is no result if the program waits for ever. -/
def run {α : Type} (main : Proc α) : IO (Option α) := (Proc.run perform main).run' #[]

end Conch.Host
