import Conch.Tools.Feeder

/-!
# A program takes only what it reads

Every byte of the input is in one of five places: with the program, taken out of the pipe
again, in the pipe, with the feeder, or still in the input.  Read in this order they are
the input at the start, whatever the steps (`only_read_is_consumed`).
-/

namespace Conch

open Text (Bytes)

namespace Kernel

variable {kernel : Kernel} {input : InputId} (limit : Nat)

theorem read_pending (h : (kernel.input input).pending ≠ []) :
    kernel.read input limit = .served (.ok ((kernel.input input).pending.take limit))
      (kernel.setInput input { kernel.input input with
        pending := (kernel.input input).pending.drop limit }) := by
  simp [Kernel.read, h]

theorem read_bytes {bytes : Bytes} (hpending : (kernel.input input).pending = [])
    (hsource : (kernel.input input).source = .bytes bytes) :
    kernel.read input limit = .served (.ok (bytes.take limit))
      (kernel.setInput input ⟨[], .bytes (bytes.drop limit)⟩) := by
  simp [Kernel.read, hpending, hsource]

theorem read_pipe {id : PipeId} (hpending : (kernel.input input).pending = [])
    (hsource : (kernel.input input).source = .pipe id) :
    kernel.read input limit = (kernel.receive id limit).map .ok := by
  simp [Kernel.read, hpending, hsource]

theorem read_file {file : Descriptor} (hpending : (kernel.input input).pending = [])
    (hsource : (kernel.input input).source = .file file) :
    kernel.read input limit =
      .outside (.read file limit) (fun reply => (reply.mapError .file, kernel)) := by
  simp [Kernel.read, hpending, hsource]

theorem receive_cases (kernel : Kernel) (id : PipeId) (limit : Nat) :
    kernel.receive id limit = .blocked ∨ ∃ bytes pipe,
      (kernel.pipe id).read? limit = some (bytes, pipe) ∧
        kernel.receive id limit = .served bytes (kernel.setPipe id pipe) := by
  unfold receive
  cases hread : (kernel.pipe id).read? limit with
  | none => exact .inl rfl
  | some out => exact .inr ⟨out.1, out.2, rfl, rfl⟩

end Kernel

namespace Supply

variable {input : InputId} {limit : Nat} {supply after : Supply} {bytes : Bytes}

theorem input_setInput (kernel : Kernel) (input : InputId) (stream : Input) :
    (kernel.setInput input stream).input input = stream := by
  simp [Kernel.input, Kernel.setInput]

theorem behind_setInput (kernel : Kernel) (files : Descriptor → Bytes) (stream : Input)
    (source : Source) :
    behind ⟨kernel.setInput input stream, files⟩ source = behind ⟨kernel, files⟩ source := by
  cases source <;> rfl

theorem rest_setInput (kernel : Kernel) (files : Descriptor → Bytes) (stream : Input) :
    rest ⟨kernel.setInput input stream, files⟩ input =
      stream.pending ++ behind ⟨kernel, files⟩ stream.source := by
  rw [rest, input_setInput, behind_setInput]

theorem behind_setPipe (kernel : Kernel) (files : Descriptor → Bytes) (id : PipeId) (pipe : Pipe) :
    behind ⟨kernel.setPipe id pipe, files⟩ (.pipe id) = pipe.contents := by
  simp [behind, Kernel.pipe, Kernel.setPipe]

/-- What a read gets is off the front of the rest. -/
theorem Reads.rest (h : Reads input limit supply bytes after) :
    supply.rest input = bytes ++ after.rest input := by
  obtain ⟨kernel, files⟩ := supply
  by_cases hpending : (kernel.input input).pending = []
  · cases hsource : (kernel.input input).source with
    | bytes left =>
        have hread := kernel.read_bytes limit hpending hsource
        cases h with
        | served h =>
            cases hread.symm.trans h
            rw [rest_setInput, Supply.rest, hpending, hsource]
            exact (List.take_append_drop ..).symm
        | called h => cases hread.symm.trans h
    | pipe id =>
        have hread := kernel.read_pipe limit hpending hsource
        rcases kernel.receive_cases id limit with hwaits | ⟨got, pipe, hgot, hreceive⟩
        · rw [hwaits] at hread
          cases h with
          | served h => cases hread.symm.trans h
          | called h => cases hread.symm.trans h
        · rw [hreceive] at hread
          cases h with
          | served h =>
              cases hread.symm.trans h
              have hinput : (kernel.setPipe id pipe).input input = kernel.input input := rfl
              rw [Supply.rest, Supply.rest, hinput, hpending, hsource, behind_setPipe]
              exact Pipe.contents_read? hgot
          | called h => cases hread.symm.trans h
    | file file =>
        have hread := kernel.read_file limit hpending hsource
        cases h with
        | served h => cases hread.symm.trans h
        | called h hfile hresume =>
            cases hread.symm.trans h
            cases hresume
            simp [Supply.rest, hpending, hsource, behind, hfile]
  · have hread := kernel.read_pending limit hpending
    cases h with
    | served h =>
        cases hread.symm.trans h
        rw [rest_setInput, Supply.rest, ← List.append_assoc, List.take_append_drop]
    | called h => cases hread.symm.trans h

theorem Serves.rest (h : Serves input supply bytes after) :
    supply.rest input = bytes ++ after.rest input := by
  induction h with
  | nothing => rfl
  | more h _ ih => rw [h.rest, ih, List.append_assoc]

/-- What is put back comes first. -/
theorem rest_unread {tasks : Tasks} {kernel : Kernel}
    (h : supply.kernel.attempt tasks (.unread input bytes) = .served () kernel) :
    rest { supply with kernel := kernel } input = bytes ++ supply.rest input := by
  cases h
  rw [rest_setInput, List.append_assoc]
  rfl

end Supply

namespace Feeding

variable {input : InputId} {supply : Supply} {feeding next : Feeding}

/-- All bytes of the input, in the order of the input. -/
def all (input : InputId) (feeding : Feeding) : Bytes :=
  feeding.taken ++ (feeding.keeper.held ++
    (feeding.pipe ++ (feeding.feeder.held ++ feeding.supply.rest input)))

/-- Once the shell has found the end of the pipe, the feeder is gone and nothing comes after it. -/
def Settled (feeding : Feeding) : Prop :=
  match feeding.keeper with
  | .running | .exited | .draining _ => True
  | .drained _ => feeding.pipe = [] ∧ ∃ unsent, feeding.feeder = .ended unsent
  | .joined _ | .returned => feeding.pipe = [] ∧ feeding.feeder = .ended []

/-- A feeder that has not ended is there before the end of the pipe. -/
theorem Settled.early (hsettled : Settled feeding)
    (hfeeder : ∀ unsent, feeding.feeder ≠ .ended unsent) (supply : Supply) (pipe : Bytes)
    (feeder : Feeder) : Settled ⟨supply, pipe, feeder, feeding.keeper, feeding.taken⟩ := by
  unfold Settled at hsettled ⊢
  cases hkeeper : feeding.keeper with
  | drained =>
      rw [hkeeper] at hsettled
      obtain ⟨_, unsent, hended⟩ := hsettled
      exact absurd hended (hfeeder unsent)
  | joined =>
      rw [hkeeper] at hsettled
      exact absurd hsettled.2 (hfeeder [])
  | returned =>
      rw [hkeeper] at hsettled
      exact absurd hsettled.2 (hfeeder [])
  | _ => trivial

theorem Settled.step (hsettled : Settled feeding) (h : feeding.Step input next) :
    Settled next := by
  cases h with
  | goOn hfeeder => exact hsettled.early (by simp [hfeeder]) ..
  | stop hfeeder => exact hsettled.early (by simp [hfeeder]) ..
  | read hfeeder => exact hsettled.early (by simp [hfeeder]) ..
  | finish hfeeder => exact hsettled.early (by simp [hfeeder]) ..
  | fail hfeeder => exact hsettled.early (by simp [hfeeder]) ..
  | write hfeeder => exact hsettled.early (by simp [hfeeder]) ..
  | keep hfeeder => exact hsettled.early (by simp [hfeeder]) ..
  | put hfeeder => exact hsettled.early (by simp [hfeeder]) ..
  | written hfeeder => exact hsettled.early (by simp [hfeeder]) ..
  | giveUp hfeeder => exact hsettled.early (by simp [hfeeder]) ..
  | take hkeeper =>
      rw [Settled, hkeeper]
      trivial
  | exit => trivial
  | tell => trivial
  | drain => trivial
  | atEnd _ hpipe hfeeder => exact ⟨hpipe, _, hfeeder⟩
  | join hkeeper =>
      rw [Settled, hkeeper] at hsettled
      exact ⟨hsettled.1, rfl⟩
  | putBack hkeeper =>
      rw [Settled, hkeeper] at hsettled
      exact hsettled
  | putNothing hkeeper =>
      rw [Settled, hkeeper] at hsettled
      exact hsettled

theorem Step.all (h : feeding.Step input next) (hsettled : Settled feeding) :
    next.all input = feeding.all input := by
  cases h with
  | goOn hfeeder => simp [Feeding.all, hfeeder, Feeder.held]
  | stop hfeeder => simp [Feeding.all, hfeeder, Feeder.held]
  | read hfeeder _ _ h => simp [Feeding.all, hfeeder, Feeder.held, h.rest]
  | finish hfeeder h => simp [Feeding.all, hfeeder, Feeder.held, h.rest]
  | fail hfeeder => simp [Feeding.all, hfeeder, Feeder.held]
  | write hfeeder => simp [Feeding.all, hfeeder, Feeder.held]
  | keep hfeeder => simp [Feeding.all, hfeeder, Feeder.held]
  | put hfeeder => simp [Feeding.all, hfeeder, Feeder.held]
  | written hfeeder => simp [Feeding.all, hfeeder, Feeder.held]
  | giveUp hfeeder => simp [Feeding.all, hfeeder, Feeder.held]
  | take hkeeper hpipe => simp [Feeding.all, hkeeper, Keeper.held, hpipe]
  | exit hkeeper => simp [Feeding.all, hkeeper, Keeper.held]
  | tell hkeeper => simp [Feeding.all, hkeeper, Keeper.held]
  | drain hkeeper hpipe => simp [Feeding.all, hkeeper, Keeper.held, hpipe]
  | atEnd hkeeper => simp [Feeding.all, hkeeper, Keeper.held]
  | join hkeeper hfeeder =>
      have hpipe : feeding.pipe = [] := by
        rw [Settled, hkeeper] at hsettled
        exact hsettled.1
      simp [Feeding.all, hkeeper, Keeper.held, hfeeder, Feeder.held, hpipe]
  | putBack hkeeper _ h =>
      obtain ⟨hpipe, hfeeder⟩ : feeding.pipe = [] ∧ feeding.feeder = .ended [] := by
        rw [Settled, hkeeper] at hsettled
        exact hsettled
      simp [Feeding.all, hkeeper, Keeper.held, hfeeder, Feeder.held, hpipe, Supply.rest_unread h]
  | putNothing hkeeper => simp [Feeding.all, hkeeper, Keeper.held]

theorem Run.settled (h : Run input (.start supply) feeding) : Settled feeding := by
  induction h with
  | start => trivial
  | step _ hstep ih => exact ih.step hstep

theorem Run.all (h : Run input (.start supply) feeding) :
    feeding.all input = supply.rest input := by
  induction h with
  | start => rfl
  | step hrun hstep ih => rw [hstep.all hrun.settled, ih]

theorem Run.returned (h : Run input (.start supply) feeding)
    (hreturned : feeding.keeper = .returned) :
    feeding.taken ++ feeding.supply.rest input = supply.rest input := by
  have hsettled := h.settled
  rw [Settled, hreturned] at hsettled
  obtain ⟨hpipe, hfeeder⟩ := hsettled
  rw [← h.all, Feeding.all, hreturned, hpipe, hfeeder]
  rfl

/-- In whatever order the steps come: once the shell goes on, the bytes that the program has read,
followed by those that later readers get and by those that are left after them, are the input at
the start. -/
theorem only_read_is_consumed {input : InputId} {supply : Supply} {feeding : Feeding}
    (h : Run input (.start supply) feeding) (hreturned : feeding.keeper = .returned) :
    feeding.taken ++ feeding.supply.rest input = supply.rest input ∧
      ∀ served after, feeding.supply.Serves input served after →
        feeding.taken ++ served ++ after.rest input = supply.rest input := by
  refine ⟨h.returned hreturned, fun served after hserved => ?_⟩
  rw [List.append_assoc, ← hserved.rest, h.returned hreturned]

/-- The program exits between two writes of the feeder: three of the bytes read ahead come back. -/
theorem three_bytes_come_back : ∃ supply feeding,
    supply.rest 0 = [97, 98, 99, 100, 101] ∧ Run 0 (.start supply) feeding ∧
      feeding.keeper = .returned ∧ feeding.taken = [97] ∧
      feeding.taken ++ feeding.supply.rest 0 = [97, 98, 99, 100, 101] := by
  let supply : Supply := ⟨Kernel.new.setInput 0 ⟨[], .bytes [97, 98, 99, 100, 101]⟩, fun _ => []⟩
  have hread : supply.Reads 0 4 [97, 98, 99, 100] _ := .served rfl
  have hheld : Run 0 (.start supply) ⟨_, [], .writing ([97, 98] ++ [99, 100]), .running, []⟩ :=
    Run.start |>.step (.goOn rfl rfl) |>.step (.read rfl (by decide) (by decide) hread)
      |>.step (.write rfl rfl)
  have hfed : Run 0 (.start supply) ⟨_, [97] ++ [98], .writing [99, 100], .running, []⟩ :=
    hheld |>.step (.put rfl (by decide))
  have hexited : Run 0 (.start supply) ⟨_, [98] ++ [], .ended [99, 100], .draining [], [97]⟩ :=
    hfed |>.step (.take rfl rfl) |>.step (.exit rfl) |>.step (.tell rfl)
      |>.step (.giveUp rfl (by decide))
  have hjoined : Run 0 (.start supply) ⟨_, [], .ended [], .joined ([98] ++ [99, 100]), [97]⟩ :=
    hexited |>.step (.drain rfl rfl) |>.step (.atEnd rfl rfl rfl) |>.step (.join rfl rfl)
  have hback := hjoined.step (@Step.putBack _ _ _ ⟨fun _ => none, fun _ => 0⟩ _ rfl (by decide) rfl)
  exact ⟨supply, _, rfl, hback, rfl, rfl, (only_read_is_consumed hback rfl).1⟩

end Feeding

end Conch
