import Conch.Tools.Feeding
import Conch.World.Kernel

/-!
# A program and its feeder

A program outside the shell has its input fed to it through a pipe of the system, which
carries bytes and not chunks.  The feeder reads a chunk ahead and writes it part by part,
and looks between its reads whether it is to stop.  Once the program has exited, the shell
tells the feeder to stop and drains the pipe until the feeder has ended; what is left of the
input is put back in front of it.  The steps of the program, of its feeder and of the shell
come in any order.
-/

namespace Conch

open Text (Bytes)

/-- The inputs of the shell, with what is left of each open file. -/
structure Supply where
  kernel : Kernel
  files : Descriptor → Bytes

namespace Supply

/-- The bytes that a source still has. -/
def behind (supply : Supply) : Source → Bytes
  | .bytes bytes => bytes
  | .pipe pipe => (supply.kernel.pipe pipe).contents
  | .file file => supply.files file

/-- Everything that an input still supplies. -/
def rest (supply : Supply) (input : InputId) : Bytes :=
  (supply.kernel.input input).pending ++ supply.behind (supply.kernel.input input).source

/-- A read of an input; a file gives as many of its bytes as it likes. -/
inductive Reads (input : InputId) (limit : Nat) : Supply → Bytes → Supply → Prop where
  | served {kernel kernel' : Kernel} {files : Descriptor → Bytes} {bytes : Bytes}
      (h : kernel.read input limit = .served (.ok bytes) kernel') :
      Reads input limit ⟨kernel, files⟩ bytes ⟨kernel', files⟩
  | called {kernel kernel' : Kernel} {files : Descriptor → Bytes} {file : Descriptor}
      {resume : Except FileError Bytes → Except StreamError Bytes × Kernel}
      {given later bytes : Bytes}
      (h : kernel.read input limit = .outside (.read file limit) resume)
      (hfile : files file = given ++ later) (hresume : resume (.ok given) = (.ok bytes, kernel')) :
      Reads input limit ⟨kernel, files⟩ bytes
        ⟨kernel', fun other => if other = file then later else files other⟩

/-- What reads of an input get one after the other. -/
inductive Serves (input : InputId) : Supply → Bytes → Supply → Prop where
  | nothing {supply : Supply} : Serves input supply [] supply
  | more {supply middle after : Supply} {limit : Nat} {bytes later : Bytes}
      (h : Reads input limit supply bytes middle) (hmore : Serves input middle later after) :
      Serves input supply (bytes ++ later) after

end Supply

/-- Where a feeder is. -/
inductive Feeder where
  /-- It is to look whether it has been told to stop. -/
  | checking
  | reading
  /-- It has read a chunk and is to look once more. -/
  | holding (chunk : Bytes)
  | writing (left : Bytes)
  /-- It has ended, with what it has not written. -/
  | ended (unsent : Bytes)
  deriving DecidableEq, Repr

/-- What it has read and not written. -/
def Feeder.held : Feeder → Bytes
  | holding bytes | writing bytes | ended bytes => bytes
  | _ => []

/-- How far the shell is with a program. -/
inductive Keeper where
  /-- The program runs. -/
  | running
  | exited
  /-- The feeder has been told to stop; this was left in the pipe so far. -/
  | draining (drained : Bytes)
  | drained (drained : Bytes)
  /-- The feeder is gone; this is to be put back. -/
  | joined (leftover : Bytes)
  | returned
  deriving DecidableEq, Repr

namespace Keeper

/-- The feeder has been told to stop. -/
def hasTold : Keeper → Bool
  | running | exited => false
  | _ => true

/-- What the shell has taken out of the pipe. -/
def held : Keeper → Bytes
  | draining bytes | drained bytes | joined bytes => bytes
  | _ => []

end Keeper

/-- A program with its feeder and the shell that runs it. -/
structure Feeding where
  supply : Supply
  /-- The bytes in the pipe. -/
  pipe : Bytes
  feeder : Feeder
  keeper : Keeper
  /-- What the program has read. -/
  taken : Bytes

namespace Feeding

def start (supply : Supply) : Feeding := ⟨supply, [], .checking, .running, []⟩

/-- What the program, the feeder or the shell can do next. -/
inductive Step (input : InputId) (feeding : Feeding) : Feeding → Prop where
  | goOn (hfeeder : feeding.feeder = .checking) (h : feeding.keeper.hasTold = false) :
      Step input feeding { feeding with feeder := .reading }
  | stop (hfeeder : feeding.feeder = .checking) (h : feeding.keeper.hasTold = true) :
      Step input feeding { feeding with feeder := .ended [] }
  | read {limit : Nat} {chunk : Bytes} {after : Supply} (hfeeder : feeding.feeder = .reading)
      (hlimit : limit ≤ feedSize) (hchunk : chunk ≠ [])
      (h : feeding.supply.Reads input limit chunk after) :
      Step input feeding { feeding with supply := after, feeder := .holding chunk }
  | finish {limit : Nat} {after : Supply} (hfeeder : feeding.feeder = .reading)
      (h : feeding.supply.Reads input limit [] after) :
      Step input feeding { feeding with supply := after, feeder := .ended [] }
  /-- A read that fails ends the input as well. -/
  | fail (hfeeder : feeding.feeder = .reading) :
      Step input feeding { feeding with feeder := .ended [] }
  | write {chunk : Bytes} (hfeeder : feeding.feeder = .holding chunk)
      (h : feeding.keeper.hasTold = false) :
      Step input feeding { feeding with feeder := .writing chunk }
  | keep {chunk : Bytes} (hfeeder : feeding.feeder = .holding chunk)
      (h : feeding.keeper.hasTold = true) :
      Step input feeding { feeding with feeder := .ended chunk }
  | put {part left : Bytes} (hfeeder : feeding.feeder = .writing (part ++ left)) (hpart : part ≠ []) :
      Step input feeding { feeding with pipe := feeding.pipe ++ part, feeder := .writing left }
  | written (hfeeder : feeding.feeder = .writing []) :
      Step input feeding { feeding with feeder := .checking }
  /-- A write that fails ends the feeder. -/
  | giveUp {left : Bytes} (hfeeder : feeding.feeder = .writing left) (hleft : left ≠ []) :
      Step input feeding { feeding with feeder := .ended left }
  | take {part left : Bytes} (hkeeper : feeding.keeper = .running)
      (hpipe : feeding.pipe = part ++ left) :
      Step input feeding { feeding with pipe := left, taken := feeding.taken ++ part }
  | exit (hkeeper : feeding.keeper = .running) : Step input feeding { feeding with keeper := .exited }
  | tell (hkeeper : feeding.keeper = .exited) :
      Step input feeding { feeding with keeper := .draining [] }
  | drain {drained part left : Bytes} (hkeeper : feeding.keeper = .draining drained)
      (hpipe : feeding.pipe = part ++ left) :
      Step input feeding { feeding with pipe := left, keeper := .draining (drained ++ part) }
  /-- The pipe is at its end once its feeder has ended. -/
  | atEnd {drained unsent : Bytes} (hkeeper : feeding.keeper = .draining drained)
      (hpipe : feeding.pipe = []) (hfeeder : feeding.feeder = .ended unsent) :
      Step input feeding { feeding with keeper := .drained drained }
  | join {drained unsent : Bytes} (hkeeper : feeding.keeper = .drained drained)
      (hfeeder : feeding.feeder = .ended unsent) :
      Step input feeding { feeding with feeder := .ended [], keeper := .joined (drained ++ unsent) }
  | putBack {leftover : Bytes} {tasks : Tasks} {kernel : Kernel}
      (hkeeper : feeding.keeper = .joined leftover) (hleftover : leftover ≠ [])
      (h : feeding.supply.kernel.attempt tasks (.unread input leftover) = .served () kernel) :
      Step input feeding
        { feeding with supply := { feeding.supply with kernel := kernel }, keeper := .returned }
  | putNothing (hkeeper : feeding.keeper = .joined []) :
      Step input feeding { feeding with keeper := .returned }

/-- Whatever came to pass from the start on. -/
inductive Run (input : InputId) (start : Feeding) : Feeding → Prop where
  | start : Run input start start
  | step {feeding next : Feeding} (h : Run input start feeding) (hstep : feeding.Step input next) :
      Run input start next

end Feeding

end Conch
