import Conch.Proofs.Tools.Wiring

/-!
# Feeding among the programs of a world

A program that only reads is run on a fed input.  Each turn of the main program and of its
feeder comes to steps of the machine (`Matches.main_step`, `Matches.feeder_step`), so in the
end the input has lost just the bytes that the program got (`feeding_takes_what_is_read`).
-/

namespace Conch

open Text (Bytes)

/-! ## The programs, part by part -/

namespace Proc

/-- A read whose limit the plan gives from what was read so far, if it does not say to stop. -/
def readNext (input : InputId) (plan : List Bytes → Option Nat) (chunks : List Bytes) :
    Proc (List Bytes ⊕ List Bytes) :=
  match plan chunks with
  | none => return .inr chunks
  | some limit => do
      match ← request (.read input limit) with
      | .ok chunk => return .inl (chunks ++ [chunk])
      | .error _ => return .inr chunks

/-- Reads an input as a plan says. -/
def readBy (input : InputId) (plan : List Bytes → Option Nat) : Proc (List Bytes) :=
  repeatFrom [] (readNext input plan)

def feedChunk (pipe : PipeId) (chunk : Bytes) : Proc (Unit ⊕ Bytes) := do
  match ← request (.send pipe chunk) with
  | .ok _ => return .inl ()
  | .error _ => return .inr chunk

def feedRead (input : InputId) (pipe : PipeId) : Proc (Unit ⊕ Bytes) := do
  match ← request (.read input feedSize) with
  | .error _ | .ok [] =>
      request (.closePipe pipe)
      return .inr []
  | .ok chunk => feedChunk pipe chunk

def feedRound (input : InputId) (pipe : PipeId) : Proc (Unit ⊕ Bytes) := do
  if ← request (.isClosed pipe) then return .inr []
  feedRead input pipe

/-- The task that feeds a program. -/
def feeder (input : InputId) (pipe : PipeId) : Proc Outcome := do
  return .leftover (← feed input pipe)

/-- How the feeder goes on after a round. -/
def feedAgain (input : InputId) (pipe : PipeId) : Unit ⊕ Bytes → Proc Outcome :=
  again (fun _ => feedRound input pipe) fun unsent => .done (.leftover unsent)

def drainRound (pipe : PipeId) (parts : List Bytes) : Proc (List Bytes ⊕ Bytes) := do
  match ← request (.receive pipe transferSize) with
  | [] => return .inr parts.reverse.flatten
  | part => return .inl (part :: parts)

section

variable {α : Type} (input : InputId) (pipe : PipeId) (task : TaskId) (result : α)

def putBack (leftover : Bytes) : Proc α := do
  if !leftover.isEmpty then request (.unread input leftover)
  return result

/-- What is left once the pipe is drained. -/
def collect (unread : Bytes) : Proc α := do
  let outcome ← request (.join task)
  putBack input result (unread ++ outcome.unsent)

/-- How the shell goes on after a round at the pipe. -/
def drainAgain : List Bytes ⊕ Bytes → Proc α :=
  again (drainRound pipe) (collect input task result)

/-- What is left once the program has ended. -/
def finish : Proc α := do
  request (.closePipe pipe)
  collect input task result (← receiveAll pipe)

/-- How a reader goes on after a read, up to the end of the shell that feeds it. -/
def readAgain (fed : InputId) (plan : List Bytes → Option Nat) :
    List Bytes ⊕ List Bytes → Proc (List Bytes) :=
  again (readNext fed plan) (finish input pipe task)

end

section

variable {α β : Type} {input : InputId} {pipe : PipeId} {task : TaskId}

theorem feeding_eq (program : InputId → Proc α) :
    feeding input program =
      .ask (.newPipe Pipe.defaultSlots) fun pipe =>
        .ask (.newInput (.pipe pipe)) fun fed =>
          .fork false (feeder input pipe) fun task => (program fed).bind (finish input pipe task) :=
  rfl

theorem putBack_cons {leftover : Bytes} (result : α) (h : leftover ≠ []) :
    putBack input result leftover = .ask (.unread input leftover) fun _ => .done result := by
  cases leftover with
  | nil => exact absurd rfl h
  | cons b rest => rfl

variable {fed : InputId} {plan : List Bytes → Option Nat} {chunks : List Bytes}

theorem readNext_stop (hplan : plan chunks = none) (k : List Bytes ⊕ List Bytes → Proc β) :
    (readNext fed plan chunks).bind k = k (.inr chunks) := by
  rw [readNext, hplan]
  rfl

theorem readNext_read {limit : Nat} (hplan : plan chunks = some limit)
    (k : List Bytes ⊕ List Bytes → Proc β) :
    (readNext fed plan chunks).bind k =
      .ask (.read fed limit) fun reply =>
        (match reply with
          | .ok chunk => .done (.inl (chunks ++ [chunk]))
          | .error _ => .done (.inr chunks) : Proc (List Bytes ⊕ List Bytes)).bind k := by
  rw [readNext, hplan]
  rfl

end

end Proc

namespace Feeding

variable {input fed : InputId} {pipe : PipeId} {bytes : Bytes} {kernel kernel' : Kernel}
  {files files' : Descriptor → Bytes} {tasks : Tasks}

/-! ## The feeder -/

open Proc (feedRound feedRead feedChunk feedAgain)

/-- What the feeder has not written has been collected. -/
def hasCollected : Keeper → Bool
  | .joined _ | .returned => true
  | _ => false

/-- Where the feeder of the machine is when its task has come to a given point. -/
inductive Feeds (input : InputId) (pipe : PipeId) (keeper : Keeper) (isOpen : Bool) :
    Proc Outcome → Feeder → Prop where
  | round (hopen : isOpen = !keeper.hasTold) :
      Feeds input pipe keeper isOpen (Proc.feeder input pipe) .checking
  | check (hopen : isOpen = !keeper.hasTold) :
      Feeds input pipe keeper isOpen ((feedRound input pipe).bind (feedAgain input pipe)) .checking
  | read (hopen : isOpen = !keeper.hasTold) :
      Feeds input pipe keeper isOpen ((feedRead input pipe).bind (feedAgain input pipe)) .reading
  | send {chunk : Bytes} (hopen : isOpen = !keeper.hasTold) (hchunk : chunk ≠ []) :
      Feeds input pipe keeper isOpen ((feedChunk pipe chunk).bind (feedAgain input pipe))
        (.holding chunk)
  | close (hopen : isOpen = !keeper.hasTold) :
      Feeds input pipe keeper isOpen (.ask (.closePipe pipe) fun _ => .done (.leftover []))
        (.ended [])
  | ended {unsent : Bytes} (hclosed : isOpen = false) :
      Feeds input pipe keeper isOpen (.done (.leftover unsent)) (.ended unsent)
  | collected {unsent : Bytes} (hclosed : isOpen = false) (hkeeper : hasCollected keeper = true) :
      Feeds input pipe keeper isOpen (.done (.leftover unsent)) (.ended [])

variable {keeper keeper' : Keeper} {isOpen : Bool} {proc : Proc Outcome} {feeder : Feeder}

theorem Feeds.congr (h : Feeds input pipe keeper isOpen proc feeder)
    (htold : keeper'.hasTold = keeper.hasTold)
    (hcollected : hasCollected keeper = true → hasCollected keeper' = true) :
    Feeds input pipe keeper' isOpen proc feeder := by
  cases h with
  | round hopen => exact .round (htold ▸ hopen)
  | check hopen => exact .check (htold ▸ hopen)
  | read hopen => exact .read (htold ▸ hopen)
  | send hopen hchunk => exact .send (htold ▸ hopen) hchunk
  | close hopen => exact .close (htold ▸ hopen)
  | ended hclosed => exact .ended hclosed
  | collected hclosed hkeeper => exact .collected hclosed (hcollected hkeeper)

/-- To tell the feeder to stop is to close the pipe. -/
theorem Feeds.told (h : Feeds input pipe .running isOpen proc feeder) :
    Feeds input pipe (.draining []) false proc feeder := by
  cases h with
  | round => exact .round rfl
  | check => exact .check rfl
  | read => exact .read rfl
  | send _ hchunk => exact .send rfl hchunk
  | close => exact .close rfl
  | ended => exact .ended rfl
  | collected _ hkeeper => cases hkeeper

/-- What was not written can be collected once the task is done. -/
theorem Feeds.outcome {drained : Bytes} {outcome : Outcome}
    (h : Feeds input pipe (.draining drained) isOpen proc feeder)
    (houtcome : proc.result? = some outcome) :
    ∃ unsent, proc = .done (.leftover unsent) ∧ outcome = .leftover unsent ∧
      feeder = .ended unsent ∧ isOpen = false := by
  cases h with
  | ended hclosed =>
      cases houtcome
      exact ⟨_, rfl, rfl, rfl, hclosed⟩
  | collected _ hkeeper => cases hkeeper
  | _ => cases houtcome

/-! ## The shell -/

open Proc (readNext readAgain drainRound drainAgain collect finish putBack)

variable {task : TaskId} {plan : List Bytes → Option Nat}

/-- How far the shell of the machine is, with what the program has read and what is in the pipe,
when the main program has come to a given point. -/
inductive Keeps (input fed : InputId) (pipe : PipeId) (task : TaskId)
    (plan : List Bytes → Option Nat) :
    Proc (List Bytes) → Keeper → Bytes → Bytes → Prop where
  | round {chunks : List Bytes} {bytes : Bytes} :
      Keeps input fed pipe task plan
        (.iterate (readNext fed plan) chunks (finish input pipe task)) .running chunks.flatten bytes
  | read {chunks : List Bytes} {bytes : Bytes} :
      Keeps input fed pipe task plan
        ((readNext fed plan chunks).bind (readAgain input pipe task fed plan))
        .running chunks.flatten bytes
  | drain {chunks parts : List Bytes} {bytes : Bytes} :
      Keeps input fed pipe task plan
        (.iterate (drainRound pipe) parts (collect input task chunks))
        (.draining parts.reverse.flatten) chunks.flatten bytes
  | receive {chunks parts : List Bytes} {bytes : Bytes} :
      Keeps input fed pipe task plan
        ((drainRound pipe parts).bind (drainAgain input pipe task chunks))
        (.draining parts.reverse.flatten) chunks.flatten bytes
  | join {chunks : List Bytes} {unread : Bytes} :
      Keeps input fed pipe task plan (collect input task chunks unread) (.draining unread)
        chunks.flatten []
  | putBack {chunks : List Bytes} {leftover bytes : Bytes} (hleftover : leftover ≠ []) :
      Keeps input fed pipe task plan (putBack input chunks leftover) (.joined leftover)
        chunks.flatten bytes
  | returned {chunks : List Bytes} {bytes : Bytes} :
      Keeps input fed pipe task plan (.done chunks) .returned chunks.flatten bytes

theorem Keeps.of_running {main : Proc (List Bytes)} {keeper : Keeper} {taken : Bytes}
    (h : Keeps input fed pipe task plan main keeper taken bytes) (htold : keeper.hasTold = false)
    (bytes' : Bytes) : Keeps input fed pipe task plan main keeper taken bytes' := by
  cases h with
  | round => exact .round
  | read => exact .read
  | drain => cases htold
  | receive => cases htold
  | join => cases htold
  | putBack => cases htold
  | returned => cases htold

/-! ## Steps -/

/-- The programs and objects of a world are where the machine has come to. -/
structure Matches (input fed : InputId) (pipe : PipeId) (task : TaskId)
    (plan : List Bytes → Option Nat) (start : Feeding) (kernel : Kernel)
    (files : Descriptor → Bytes) (main : Proc (List Bytes)) (proc : Proc Outcome)
    (feeding : Feeding) : Prop where
  run : Run input start feeding
  shares : Shares input pipe feeding.supply kernel files
  atPipe : Fed fed pipe kernel feeding.pipe
  feeder : Feeds input pipe feeding.keeper (kernel.pipe pipe).isOpen proc feeding.feeder
  main : Keeps input fed pipe task plan main feeding.keeper feeding.taken feeding.pipe

namespace Matches

variable {start feeding : Feeding} {main main' : Proc (List Bytes)} {proc proc' : Proc Outcome}

variable {supply : Supply} {chunks parts : List Bytes} {taken unread leftover : Bytes}

/-- A chunk is written as a whole, or kept if the pipe is closed. -/
theorem send_step {chunk : Bytes}
    (h : Matches input fed pipe task plan start kernel files main proc
      ⟨supply, bytes, .holding chunk, keeper, taken⟩)
    (hopen : (kernel.pipe pipe).isOpen = !keeper.hasTold) (hchunk : chunk ≠ [])
    (hleads : (((feedChunk pipe chunk).bind (feedAgain input pipe)).move kernel tasks).Leads files
      kernel' files' proc') :
    ∃ next, Matches input fed pipe task plan start kernel' files' main proc' next := by
  cases hwrite : (kernel.pipe pipe).write? chunk with
  | none =>
      have hwaits : kernel.attempt tasks (.send pipe chunk) = .blocked := by
        simp only [Kernel.attempt, Kernel.send, hwrite]
      exact (hleads.of_blocked hwaits).elim
  | some out =>
      obtain ⟨reply, after⟩ := out
      have hserved : kernel.attempt tasks (.send pipe chunk) =
          .served reply (kernel.setPipe pipe after) := by
        simp only [Kernel.attempt, Kernel.send, hwrite]
      obtain ⟨rfl, rfl, rfl⟩ := hleads.of_served hserved
      have hpipe := kernel.pipe_setPipe pipe after
      rcases Pipe.write?_cases hwrite hchunk with ⟨rfl, hisOpen, rfl⟩ | ⟨rfl, hclosed, rfl⟩
      · have htold : keeper.hasTold = false := by simpa [hisOpen] using hopen
        have hrun : Run input start ⟨supply, bytes ++ chunk, .checking, keeper, taken⟩ :=
          h.run |>.step (.write rfl htold)
            |>.step (.put (congrArg Feeder.writing (List.append_nil chunk).symm) hchunk)
            |>.step (.written rfl)
        refine ⟨_, hrun, h.shares.setPipe _, h.atPipe.send hchunk, ?_, h.main.of_running htold _⟩
        rw [hpipe]
        exact .round hopen
      · have htold : keeper.hasTold = true := by simpa [hclosed] using hopen
        refine ⟨_, h.run.step (.keep rfl htold), h.shares.setPipe _, h.atPipe.congr hpipe rfl, ?_,
          h.main⟩
        rw [hpipe]
        exact .ended hclosed

/-- A step of the feeder comes to steps of the machine. -/
theorem feeder_step
    (h : Matches input fed pipe task plan start kernel files main proc feeding)
    (hapart : fed ≠ input) (hleads : (proc.move kernel tasks).Leads files kernel' files' proc') :
    ∃ next, Matches input fed pipe task plan start kernel' files' main proc' next := by
  obtain ⟨supply, bytes, feeder, keeper, taken⟩ := feeding
  have hfeeds : Feeds input pipe keeper (kernel.pipe pipe).isOpen proc feeder := h.feeder
  cases hfeeds with
  | round hopen =>
      obtain ⟨rfl, rfl, hnext⟩ := hleads.of_iterate
      obtain rfl : proc' = (feedRound input pipe).bind (feedAgain input pipe) := hnext
      exact ⟨_, { h with feeder := .check hopen }⟩
  | check hopen =>
      obtain ⟨rfl, rfl, rfl⟩ := hleads.of_served rfl
      cases htold : keeper.hasTold with
      | true =>
          have hclosed : (kernel'.pipe pipe).isOpen = false := by rw [hopen, htold]; rfl
          refine ⟨_, { h with run := h.run.step (.stop rfl htold), feeder := ?_ }⟩
          simp only [hclosed, Bool.not_false]
          exact .ended rfl
      | false =>
          have hisOpen : (kernel'.pipe pipe).isOpen = true := by rw [hopen, htold]; rfl
          refine ⟨_, { h with run := h.run.step (.goOn rfl htold), feeder := ?_ }⟩
          simp only [hisOpen, Bool.not_true]
          exact .read (by rw [htold]; rfl)
  | read hopen =>
      obtain ⟨hpipe, hinputs, hread⟩ := h.shares.read hleads
      have hfed := h.atPipe.congr hpipe (hinputs fed hapart)
      rw [← hpipe] at hopen
      rcases hread with ⟨chunk, after, hreads, rfl, hshares⟩ | ⟨⟨e, rfl⟩, hshares⟩
      · cases chunk with
        | nil => exact ⟨_, h.run.step (.finish rfl hreads), hshares, hfed, .close hopen, h.main⟩
        | cons b chunk =>
            have hchunk := List.cons_ne_nil b chunk
            exact ⟨_, h.run.step (.read rfl (Nat.le_refl _) hchunk hreads), hshares, hfed,
              .send hopen hchunk, h.main⟩
      · exact ⟨_, h.run.step (.fail rfl), hshares, hfed, .close hopen, h.main⟩
  | send hopen hchunk => exact h.send_step hopen hchunk hleads
  | close hopen =>
      obtain ⟨rfl, rfl, rfl⟩ := hleads.of_served rfl
      refine ⟨_, { h with
        shares := h.shares.setPipe _
        atPipe := h.atPipe.close
        feeder := .ended ?_ }⟩
      rw [Kernel.pipe_setPipe]
      rfl
  | ended => exact hleads.of_done.elim
  | collected => exact hleads.of_done.elim

/-- Once the program has ended, the feeder is told to stop. -/
theorem finish_step
    (h : Matches input fed pipe task plan start kernel files main proc
      ⟨supply, bytes, feeder, .running, chunks.flatten⟩)
    (hleads : ((finish input pipe task chunks).move kernel tasks).Leads files kernel' files' main') :
    ∃ next, Matches input fed pipe task plan start kernel' files' main' proc next := by
  obtain ⟨rfl, rfl, rfl⟩ := hleads.of_served rfl
  have hrun := h.run |>.step (.exit rfl) |>.step (.tell rfl)
  refine ⟨_, hrun, h.shares.setPipe _, h.atPipe.close, ?_, .drain⟩
  rw [Kernel.pipe_setPipe]
  exact h.feeder.told

/-- The program takes bytes off the front of the pipe. -/
theorem take_step {limit : Nat}
    (h : Matches input fed pipe task plan start kernel files main proc
      ⟨supply, bytes, feeder, .running, chunks.flatten⟩)
    (hplan : plan chunks = some limit)
    (hleads : (((readNext fed plan chunks).bind (readAgain input pipe task fed plan)).move kernel
      tasks).Leads files kernel' files' main') :
    ∃ next, Matches input fed pipe task plan start kernel' files' main' proc next := by
  rw [Proc.readNext_read hplan] at hleads
  have hread : kernel.attempt tasks (.read fed limit) = (kernel.receive pipe limit).map .ok :=
    kernel.read_pipe limit (by rw [h.atPipe.input]) (by rw [h.atPipe.input])
  rcases kernel.receive_cases pipe limit with hwaits | ⟨got, after, hgot, hreceive⟩
  · rw [hwaits] at hread
    exact (hleads.of_blocked hread).elim
  · rw [hreceive] at hread
    obtain ⟨rfl, rfl, rfl⟩ := hleads.of_served hread
    obtain ⟨hfront, hatPipe, hopen⟩ := h.atPipe.receive hgot
    have hchunks : chunks.flatten ++ got = (chunks ++ [got]).flatten := by simp
    have hrun := h.run.step (.take rfl hfront)
    simp only [hchunks] at hrun
    refine ⟨_, hrun, h.shares.setPipe _, hatPipe, ?_, .round⟩
    rw [Kernel.pipe_setPipe, hopen]
    exact h.feeder

/-- The shell drains the pipe up to the read that gets nothing.  This can come before the feeder has
ended, which then leaves the pipe as it is. -/
theorem receive_step
    (h : Matches input fed pipe task plan start kernel files main proc
      ⟨supply, bytes, feeder, .draining parts.reverse.flatten, chunks.flatten⟩)
    (hleads : (((drainRound pipe parts).bind (drainAgain input pipe task chunks)).move kernel
      tasks).Leads files kernel' files' main') :
    ∃ next, Matches input fed pipe task plan start kernel' files' main' proc next := by
  have hserves : kernel.attempt tasks (.receive pipe transferSize) =
      kernel.receive pipe transferSize := rfl
  rcases kernel.receive_cases pipe transferSize with hwaits | ⟨part, after, hread, hreceive⟩
  · exact (hleads.of_blocked (hserves.trans hwaits)).elim
  · obtain ⟨rfl, rfl, rfl⟩ := hleads.of_served (hserves.trans hreceive)
    obtain ⟨hfront, hatPipe, hopen⟩ := h.atPipe.receive hread
    have hfeeder : Feeds input pipe (.draining parts.reverse.flatten)
        ((kernel.setPipe pipe after).pipe pipe).isOpen proc feeder := by
      rw [Kernel.pipe_setPipe, hopen]
      exact h.feeder
    cases part with
    | nil =>
        obtain ⟨_, hcontents⟩ := Pipe.read?_end hread (by decide) h.atPipe.filled
        obtain rfl : bytes = [] := h.atPipe.contents.trans hcontents
        have hafter : after.contents = [] := hfront.symm
        rw [hafter] at hatPipe
        exact ⟨_, h.run, h.shares.setPipe _, hatPipe, hfeeder, .join⟩
    | cons b part =>
        have hparts : parts.reverse.flatten ++ (b :: part) =
            ((b :: part) :: parts).reverse.flatten := by simp
        have hrun := h.run.step (.drain rfl hfront)
        simp only [hparts] at hrun
        exact ⟨_, hrun, h.shares.setPipe _, hatPipe, hfeeder.congr rfl id, .drain⟩

/-- The feeder has ended, and what it could not send follows what was drained. -/
theorem join_step
    (h : Matches input fed pipe task plan start kernel files main proc
      ⟨supply, [], feeder, .draining unread, chunks.flatten⟩)
    (htask : tasks.outcome? task = proc.result?)
    (hleads : ((collect input task chunks unread).move kernel tasks).Leads files kernel' files'
      main') :
    ∃ next, Matches input fed pipe task plan start kernel' files' main' proc next := by
  cases hresult : proc.result? with
  | none =>
      have hwaits : kernel.attempt tasks (.join task) = .blocked := by
        simp only [Kernel.attempt, htask, hresult]
      exact (hleads.of_blocked hwaits).elim
  | some outcome =>
      have hserved : kernel.attempt tasks (.join task) = .served outcome kernel := by
        simp only [Kernel.attempt, htask, hresult]
      obtain ⟨rfl, rfl, rfl⟩ := hleads.of_served hserved
      obtain ⟨unsent, rfl, rfl, rfl, hclosed⟩ := h.feeder.outcome hresult
      have hjoined : Run input start
          ⟨supply, [], .ended [], .joined (unread ++ unsent), chunks.flatten⟩ :=
        h.run |>.step (.atEnd rfl rfl rfl) |>.step (.join rfl rfl)
      change ∃ next, Matches input fed pipe task plan start _ _
        (putBack input chunks (unread ++ unsent)) _ next
      by_cases hleftover : unread ++ unsent = []
      · rw [hleftover] at hjoined ⊢
        exact ⟨_, hjoined.step (.putNothing rfl), h.shares, h.atPipe, .collected hclosed rfl,
          .returned⟩
      · exact ⟨_, hjoined, h.shares, h.atPipe, .collected hclosed rfl, .putBack hleftover⟩

theorem putBack_step
    (h : Matches input fed pipe task plan start kernel files main proc
      ⟨supply, bytes, feeder, .joined leftover, chunks.flatten⟩)
    (hapart : fed ≠ input) (hleftover : leftover ≠ [])
    (hleads : ((putBack input chunks leftover).move kernel tasks).Leads files kernel' files' main') :
    ∃ next, Matches input fed pipe task plan start kernel' files' main' proc next := by
  rw [Proc.putBack_cons chunks hleftover] at hleads
  obtain ⟨rfl, rfl, rfl⟩ := hleads.of_served rfl
  obtain ⟨mine, other⟩ := supply
  obtain rfl : other = files' := h.shares.files
  have hsame : mine.input input = kernel.input input := h.shares.same
  have hput : mine.attempt tasks (.unread input leftover) = .served () _ := rfl
  rw [hsame] at hput
  exact ⟨_, h.run.step (.putBack rfl hleftover hput), h.shares.setInput h.shares.source,
    h.atPipe.congr rfl (kernel.input_setInput_of_ne _ hapart), h.feeder.congr rfl id, .returned⟩

/-- A step of the main program comes to steps of the machine. -/
theorem main_step
    (h : Matches input fed pipe task plan start kernel files main proc feeding)
    (hapart : fed ≠ input) (htask : tasks.outcome? task = proc.result?)
    (hleads : (main.move kernel tasks).Leads files kernel' files' main') :
    ∃ next, Matches input fed pipe task plan start kernel' files' main' proc next := by
  obtain ⟨supply, bytes, feeder, keeper, taken⟩ := feeding
  have hkeeps : Keeps input fed pipe task plan main keeper taken bytes := h.main
  cases hkeeps with
  | @round chunks =>
      obtain ⟨rfl, rfl, hnext⟩ := hleads.of_iterate
      obtain rfl : main' = (readNext fed plan chunks).bind (readAgain input pipe task fed plan) :=
        hnext
      exact ⟨_, { h with main := .read }⟩
  | @read chunks =>
      cases hplan : plan chunks with
      | none =>
          rw [Proc.readNext_stop hplan] at hleads
          exact h.finish_step hleads
      | some limit => exact h.take_step hplan hleads
  | @drain chunks parts =>
      obtain ⟨rfl, rfl, hnext⟩ := hleads.of_iterate
      obtain rfl : main' = (drainRound pipe parts).bind (drainAgain input pipe task chunks) := hnext
      exact ⟨_, { h with main := .receive }⟩
  | receive => exact h.receive_step hleads
  | join => exact h.join_step htask hleads
  | putBack hleftover => exact h.putBack_step hapart hleftover hleads
  | returned => exact hleads.of_done.elim

end Matches

/-! ## Runs -/

theorem Feeds.ne_fork {isJob : Bool} {task : Proc Outcome} {k : TaskId → Proc Outcome}
    (h : Feeds input pipe keeper isOpen proc feeder) : proc ≠ .fork isJob task k := by
  cases h <;> nofun

theorem Keeps.ne_fork {main : Proc (List Bytes)} {taken : Bytes} {isJob : Bool}
    {started : Proc Outcome} {k : TaskId → Proc (List Bytes)}
    (h : Keeps input fed pipe task plan main keeper taken bytes) :
    main ≠ .fork isJob started k := by
  cases h with
  | @read chunks =>
      cases hplan : plan chunks with
      | none =>
          rw [Proc.readNext_stop hplan]
          nofun
      | some limit =>
          rw [Proc.readNext_read hplan]
          nofun
  | putBack hleftover =>
      rw [Proc.putBack_cons _ hleftover]
      nofun
  | _ => nofun

/-- The main program ends with what the program has read. -/
theorem Keeps.of_done {main : Proc (List Bytes)} {taken : Bytes} {chunks : List Bytes}
    (h : Keeps input fed pipe task plan main keeper taken bytes) (hmain : main = .done chunks) :
    keeper = .returned ∧ taken = chunks.flatten := by
  cases h with
  | returned =>
      cases hmain
      exact ⟨rfl, rfl⟩
  | @read got =>
      cases hplan : plan got with
      | none =>
          rw [Proc.readNext_stop hplan] at hmain
          cases hmain
      | some limit =>
          rw [Proc.readNext_read hplan] at hmain
          cases hmain
  | putBack hleftover =>
      rw [Proc.putBack_cons _ hleftover] at hmain
      cases hmain
  | _ => cases hmain

/-- The way of the main program up to the start of the feeder. -/
inductive Opens (input : InputId) (plan : List Bytes → Option Nat) (kernel : Kernel) :
    Kernel → Proc (List Bytes) → Prop where
  | start : Opens input plan kernel kernel (.feeding input fun fed => .readBy fed plan)
  | pipe {made : Kernel}
      (h : made = { kernel with pipes := (kernel.pipes.push (.new Pipe.defaultSlots)).2 }) :
      Opens input plan kernel made
        (.ask (.newInput (.pipe kernel.pipes.next)) fun fed =>
          .fork false (Proc.feeder input kernel.pipes.next) fun task =>
            (Proc.readBy fed plan).bind (finish input kernel.pipes.next task))
  | fed {made : Kernel}
      (h : made = { kernel with
        pipes := (kernel.pipes.push (.new Pipe.defaultSlots)).2
        inputs := (kernel.inputs.push ⟨[], .pipe kernel.pipes.next⟩).2 }) :
      Opens input plan kernel made
        (.fork false (Proc.feeder input kernel.pipes.next) fun task =>
          (Proc.readBy kernel.inputs.next plan).bind (finish input kernel.pipes.next task))

theorem Opens.ne_done {made : Kernel} {main : Proc (List Bytes)} {chunks : List Bytes}
    (h : Opens input plan kernel made main) : main ≠ .done chunks := by
  cases h <;> nofun

theorem Opens.step {made : Kernel} {main main' : Proc (List Bytes)}
    (h : Opens input plan kernel made main)
    (hleads : (main.move made tasks).Leads files kernel' files' main') :
    files' = files ∧ Opens input plan kernel kernel' main' := by
  cases h with
  | start =>
      rw [Proc.feeding_eq] at hleads
      obtain ⟨rfl, rfl, rfl⟩ := hleads.of_served rfl
      exact ⟨rfl, .pipe rfl⟩
  | pipe h =>
      subst h
      obtain ⟨rfl, rfl, rfl⟩ := hleads.of_served rfl
      exact ⟨rfl, .fed rfl⟩
  | fed =>
      cases hleads with
      | moved h => cases h
      | given h => cases h
      | failed h => cases h

/-- How far a world is with the program, since the scene at the origin. -/
inductive Tracks (input : InputId) (plan : List Bytes → Option Nat)
    (origin scene : Scene (List Bytes)) : Prop where
  | opening (hfiles : scene.files = origin.files)
      (htasks : ∀ id held, scene.world.tasks.get? id = some held →
        ∃ outcome, held.proc = .done outcome)
      (h : Opens input plan origin.world.kernel scene.world.kernel scene.world.main)
  | feeding {fed : InputId} {pipe : PipeId} {task : TaskId} {proc : Proc Outcome}
      {feeding : Feeding} (hapart : fed ≠ input)
      (htask : scene.world.tasks.get? task = some ⟨false, proc⟩)
      (hothers : ∀ id held, id ≠ task → scene.world.tasks.get? id = some held →
        ∃ outcome, held.proc = .done outcome)
      (h : Matches input fed pipe task plan (.start origin.supply) scene.world.kernel scene.files
        scene.world.main proc feeding)

theorem Opens.feeding {origin : Scene (List Bytes)} {main : Proc (List Bytes)} {isJob : Bool}
    {started : Proc Outcome} {k : TaskId → Proc (List Bytes)}
    (h : Opens input plan origin.world.kernel kernel main) (hmain : main = .fork isJob started k)
    (hinput : input ≠ origin.world.kernel.inputs.next)
    (hsource : (origin.world.kernel.input input).source ≠ .pipe origin.world.kernel.pipes.next)
    (task : TaskId) :
    isJob = false ∧ ∃ fed pipe, fed ≠ input ∧
      Matches input fed pipe task plan (.start origin.supply) kernel origin.files (k task) started
        (.start origin.supply) := by
  cases h with
  | start => cases hmain
  | pipe => cases hmain
  | fed hmade =>
      cases hmain
      refine ⟨rfl, origin.world.kernel.inputs.next, origin.world.kernel.pipes.next, hinput.symm, ?_⟩
      have hpipes (other : PipeId) (hother : other ≠ origin.world.kernel.pipes.next) :
          origin.world.kernel.pipe other = kernel.pipe other := by
        rw [hmade, Kernel.pipe, Kernel.pipe, Shelf.get?_push_of_ne _ _ hother]
      have hpipe : kernel.pipe origin.world.kernel.pipes.next = .new Pipe.defaultSlots := by
        have hget : kernel.pipes.get? origin.world.kernel.pipes.next =
            some (.new Pipe.defaultSlots) := by
          rw [hmade]
          exact Shelf.get?_push ..
        rw [Kernel.pipe, hget]
        rfl
      have hsame : origin.world.kernel.input input = kernel.input input := by
        rw [hmade, Kernel.input, Kernel.input, Shelf.get?_push_of_ne _ _ hinput]
      have hfed : kernel.input origin.world.kernel.inputs.next =
          ⟨[], .pipe origin.world.kernel.pipes.next⟩ := by
        have hget : kernel.inputs.get? origin.world.kernel.inputs.next =
            some ⟨[], .pipe origin.world.kernel.pipes.next⟩ := by
          rw [hmade]
          exact Shelf.get?_push ..
        rw [Kernel.input, hget]
        rfl
      have hfilled : ∀ chunk ∈ (Pipe.new Pipe.defaultSlots).queue, chunk ≠ [] :=
        fun _ hchunk => (List.not_mem_nil hchunk).elim
      exact {
        run := .start
        shares := ⟨hsame, hsame ▸ hsource, hpipes, rfl⟩
        atPipe := ⟨hfed, by rw [hpipe]; rfl, hpipe ▸ hfilled⟩
        feeder := .round (by rw [hpipe]; rfl)
        main := .round }

theorem Tracks.step {origin scene next : Scene (List Bytes)}
    (hinput : input ≠ origin.world.kernel.inputs.next)
    (hsource : (origin.world.kernel.input input).source ≠ .pipe origin.world.kernel.pipes.next)
    (h : Tracks input plan origin scene) (hstep : scene.Step next) :
    Tracks input plan origin next := by
  cases h with
  | opening hfiles htasks h =>
      cases hstep.turned with
      | order turns => exact .opening hfiles htasks h
      | main hleads =>
          obtain ⟨rfl, hopens⟩ := h.step hleads
          exact .opening hfiles htasks hopens
      | task htask hleads =>
          obtain ⟨outcome, hdone⟩ := htasks _ _ htask
          rw [hdone] at hleads
          exact hleads.of_done.elim
      | mainStarts hmove =>
          obtain ⟨rfl, fed, pipe, hapart, hmatches⟩ :=
            h.feeding (Move.fork_of_started hmove) hinput hsource scene.world.tasks.next
          rw [← hfiles] at hmatches
          refine .feeding hapart (Shelf.get?_push ..) (fun id held hid hheld => ?_) hmatches
          exact htasks id held ((Shelf.get?_push_of_ne _ _ hid).symm.trans hheld)
      | taskStarts htask hmove =>
          obtain ⟨outcome, hdone⟩ := htasks _ _ htask
          rw [hdone] at hmove
          cases hmove
  | @feeding fed pipe task proc feeding hapart htask hothers h =>
      have houtcome : scene.world.status.outcome? task = proc.result? := by
        simp [World.status, htask]
      cases hstep.turned with
      | order turns => exact .feeding hapart htask hothers h
      | main hleads =>
          obtain ⟨next, hnext⟩ := h.main_step hapart houtcome hleads
          exact .feeding hapart htask hothers hnext
      | @task id held kernel files after hheld hleads =>
          by_cases hid : id = task
          · subst hid
            obtain rfl : _ = held := Option.some.inj (htask.symm.trans hheld)
            obtain ⟨next, hnext⟩ := h.feeder_step hapart hleads
            refine .feeding hapart (Shelf.get?_set ..) (fun other held hother hheld => ?_) hnext
            exact hothers other held hother ((Shelf.get?_set_of_ne _ _ hother).symm.trans hheld)
          · obtain ⟨outcome, hdone⟩ := hothers _ _ hid hheld
            rw [hdone] at hleads
            exact hleads.of_done.elim
      | mainStarts hmove => exact (h.main.ne_fork (Move.fork_of_started hmove)).elim
      | @taskStarts id held isJob started k hheld hmove =>
          by_cases hid : id = task
          · subst hid
            obtain rfl : _ = held := Option.some.inj (htask.symm.trans hheld)
            exact (h.feeder.ne_fork (Move.fork_of_started hmove)).elim
          · obtain ⟨outcome, hdone⟩ := hothers _ _ hid hheld
            rw [hdone] at hmove
            cases hmove

/-- A program that only reads is run on a fed input, in whatever order it, its feeder and the shell
have their turns.  Once the shell has got what the program read, this and what is left of the input
are the input at the start. -/
theorem feeding_takes_what_is_read {origin scene : Scene (List Bytes)}
    (hmain : origin.world.main = .feeding input fun fed => .readBy fed plan)
    (htasks : ∀ id held, origin.world.tasks.get? id = some held →
      ∃ outcome, held.proc = .done outcome)
    (hinput : input ≠ origin.world.kernel.inputs.next)
    (hsource : (origin.world.kernel.input input).source ≠ .pipe origin.world.kernel.pipes.next)
    (hrun : Scene.Run origin scene) {chunks : List Bytes} (hdone : scene.world.main = .done chunks) :
    chunks.flatten ++ scene.supply.rest input = origin.supply.rest input := by
  have htracks : Tracks input plan origin scene := by
    clear hdone
    induction hrun with
    | start => exact .opening rfl htasks (hmain ▸ .start)
    | step _ hstep ih => exact ih.step hinput hsource hstep
  cases htracks with
  | opening _ _ h => exact (h.ne_done hdone).elim
  | @feeding fed pipe task proc feeding _ _ _ h =>
      obtain ⟨hreturned, htaken⟩ := h.main.of_done hdone
      rw [← htaken, ← h.run.returned hreturned, h.shares.rest]
      rfl

end Feeding

end Conch
