import Conch.Proofs.Stream.Traffic
import Conch.Proofs.Tools.Feeder
import Conch.Proofs.World.Scene
import Conch.Proofs.World.Served

/-!
# The input and the pipe of a feeder

A feeder reads one input and writes to the pipe behind another one.  What is done at the pipe
leaves the first input as it is, and what is read from the first input leaves the pipe.
-/

namespace Conch

open Text (Bytes)

namespace Kernel

theorem pipe_setPipe_of_ne (kernel : Kernel) {id other : PipeId} (after : Pipe) (h : other ≠ id) :
    (kernel.setPipe id after).pipe other = kernel.pipe other := by
  simp [Kernel.pipe, setPipe, Shelf.get?_set_of_ne _ _ h]

theorem input_setInput_of_ne (kernel : Kernel) {id other : InputId} (stream : Input)
    (h : other ≠ id) : (kernel.setInput id stream).input other = kernel.input other := by
  simp [Kernel.input, setInput, Shelf.get?_set_of_ne _ _ h]

end Kernel

namespace Feeding

variable {input fed : InputId} {pipe : PipeId} {supply : Supply} {bytes : Bytes}
  {kernel kernel' : Kernel} {files files' : Descriptor → Bytes} {tasks : Tasks}

/-- An input and everything behind it are the same here and there; the pipe of the feeder is
not behind it. -/
structure Shares (input : InputId) (pipe : PipeId) (supply : Supply) (kernel : Kernel)
    (files : Descriptor → Bytes) : Prop where
  same : supply.kernel.input input = kernel.input input
  source : (kernel.input input).source ≠ .pipe pipe
  pipes : ∀ other, other ≠ pipe → supply.kernel.pipe other = kernel.pipe other
  files : supply.files = files

namespace Shares

theorem setPipe (h : Shares input pipe supply kernel files) (after : Pipe) :
    Shares input pipe supply (kernel.setPipe pipe after) files where
  same := h.same
  source := h.source
  pipes other hother := by rw [h.pipes other hother, kernel.pipe_setPipe_of_ne _ hother]
  files := h.files

theorem setInput (h : Shares input pipe supply kernel files) {stream : Input}
    (hstream : stream.source ≠ .pipe pipe) :
    Shares input pipe ⟨supply.kernel.setInput input stream, files⟩ (kernel.setInput input stream)
      files where
  same := by rw [Supply.input_setInput, Supply.input_setInput]
  source := by rwa [Supply.input_setInput]
  pipes := h.pipes
  files := rfl

theorem setOther (h : Shares input pipe supply kernel files) (other : PipeId) (after : Pipe) :
    Shares input pipe ⟨supply.kernel.setPipe other after, files⟩ (kernel.setPipe other after)
      files where
  same := h.same
  source := h.source
  pipes id hid := by
    by_cases hsame : id = other
    · rw [hsame, Kernel.pipe_setPipe, Kernel.pipe_setPipe]
    · rw [Kernel.pipe_setPipe_of_ne _ _ hsame, Kernel.pipe_setPipe_of_ne _ _ hsame, h.pipes id hid]
  files := rfl

theorem setFiles (h : Shares input pipe supply kernel files) (files' : Descriptor → Bytes) :
    Shares input pipe ⟨supply.kernel, files'⟩ kernel files' where
  same := h.same
  source := h.source
  pipes := h.pipes
  files := rfl

theorem rest (h : Shares input pipe supply kernel files) :
    supply.rest input = Supply.rest ⟨kernel, files⟩ input := by
  rw [Supply.rest, Supply.rest, h.same]
  cases hsource : (kernel.input input).source with
  | bytes => rfl
  | pipe other =>
      have hother : other ≠ pipe := fun heq => h.source (heq ▸ hsource)
      rw [Supply.behind, Supply.behind, h.pipes other hother]
  | file => rw [Supply.behind, Supply.behind, h.files]

/-- A read of the input gets the same here and there, or fails and leaves everything as it is. -/
theorem read {α : Type} {limit : Nat} {k : Except StreamError Bytes → Proc α} {next : Proc α}
    (h : Shares input pipe supply kernel files)
    (hleads : ((Proc.ask (.read input limit) k).move kernel tasks).Leads files kernel' files' next) :
    kernel'.pipe pipe = kernel.pipe pipe ∧
      (∀ other, other ≠ input → kernel'.input other = kernel.input other) ∧
      ((∃ bytes after, supply.Reads input limit bytes after ∧ next = k (.ok bytes) ∧
          Shares input pipe after kernel' files') ∨
        ((∃ e, next = k (.error e)) ∧ Shares input pipe supply kernel' files')) := by
  obtain ⟨mine, other⟩ := supply
  obtain rfl : other = files := h.files
  have hinput : mine.input input = kernel.input input := h.same
  have hothers (stream : Input) (other : InputId) (hother : other ≠ input) :
      (kernel.setInput input stream).input other = kernel.input other :=
    kernel.input_setInput_of_ne stream hother
  by_cases hpending : (kernel.input input).pending = []
  · have hmine : (mine.input input).pending = [] := by rw [hinput, hpending]
    cases hsource : (kernel.input input).source with
    | bytes left =>
        obtain ⟨rfl, rfl, rfl⟩ := hleads.of_served (kernel.read_bytes limit hpending hsource)
        have hread := mine.read_bytes limit hmine (hinput ▸ hsource)
        exact ⟨rfl, hothers _, .inl ⟨_, _, .served hread, rfl, h.setInput (by simp)⟩⟩
    | pipe other =>
        have hother : other ≠ pipe := fun heq => h.source (heq ▸ hsource)
        have hread := kernel.read_pipe limit hpending hsource
        have hmine := mine.read_pipe limit hmine (hinput ▸ hsource)
        rcases kernel.receive_cases other limit with hwaits | ⟨got, after, hgot, hreceive⟩
        · rw [hwaits] at hread
          exact (hleads.of_blocked hread).elim
        · rw [hreceive] at hread
          obtain ⟨rfl, rfl, rfl⟩ := hleads.of_served hread
          have hsame : mine.receive other limit = .served got (mine.setPipe other after) := by
            rw [Kernel.receive, h.pipes other hother, hgot]
          rw [hsame] at hmine
          exact ⟨kernel.pipe_setPipe_of_ne _ hother.symm, fun _ _ => rfl,
            .inl ⟨_, _, .served hmine, rfl, h.setOther other after⟩⟩
    | file file =>
        have hread := kernel.read_file limit hpending hsource
        have hmine := mine.read_file limit hmine (hinput ▸ hsource)
        rcases hleads.of_read hread with ⟨given, later, hfile, rfl, rfl, rfl⟩ | ⟨e, rfl, rfl, rfl⟩
        · exact ⟨rfl, fun _ _ => rfl, .inl ⟨_, _, .called hmine hfile rfl, rfl, h.setFiles _⟩⟩
        · exact ⟨rfl, fun _ _ => rfl, .inr ⟨⟨_, rfl⟩, h⟩⟩
  · have hread := kernel.read_pending limit hpending
    obtain ⟨rfl, rfl, rfl⟩ := hleads.of_served hread
    have hmine := mine.read_pending limit (hinput.symm ▸ hpending)
    rw [hinput] at hmine
    exact ⟨rfl, hothers _, .inl ⟨_, _, .served hmine, rfl, h.setInput h.source⟩⟩

end Shares

/-- An input leads to the pipe of the feeder, and these are the bytes in it. -/
structure Fed (fed : InputId) (pipe : PipeId) (kernel : Kernel) (bytes : Bytes) : Prop where
  input : kernel.input fed = ⟨[], .pipe pipe⟩
  contents : bytes = (kernel.pipe pipe).contents
  filled : ∀ chunk ∈ (kernel.pipe pipe).queue, chunk ≠ []

namespace Fed

theorem congr (h : Fed fed pipe kernel bytes) (hpipe : kernel'.pipe pipe = kernel.pipe pipe)
    (hinput : kernel'.input fed = kernel.input fed) : Fed fed pipe kernel' bytes where
  input := by rw [hinput, h.input]
  contents := by rw [hpipe, h.contents]
  filled := by
    rw [hpipe]
    exact h.filled

theorem setPipe (h : Fed fed pipe kernel bytes) {after : Pipe}
    (hfilled : ∀ chunk ∈ after.queue, chunk ≠ []) :
    Fed fed pipe (kernel.setPipe pipe after) after.contents where
  input := h.input
  contents := by rw [Kernel.pipe_setPipe]
  filled := by rwa [Kernel.pipe_setPipe]

theorem close (h : Fed fed pipe kernel bytes) :
    Fed fed pipe (kernel.setPipe pipe (kernel.pipe pipe).close) bytes := by
  rw [h.contents]
  exact h.setPipe h.filled

/-- What is sent comes to the end. -/
theorem send (h : Fed fed pipe kernel bytes) {chunk : Bytes} (hchunk : chunk ≠ []) :
    Fed fed pipe
      (kernel.setPipe pipe { kernel.pipe pipe with queue := (kernel.pipe pipe).queue ++ [chunk] })
      (bytes ++ chunk) := by
  have hcontents : bytes ++ chunk =
      { kernel.pipe pipe with queue := (kernel.pipe pipe).queue ++ [chunk] }.contents := by
    simp [h.contents, Pipe.contents]
  rw [hcontents]
  refine h.setPipe fun other hother => ?_
  rcases List.mem_append.mp hother with hold | hnew
  · exact h.filled other hold
  · rwa [List.mem_singleton.mp hnew]

/-- What is received comes off the front, and is empty only at the end. -/
theorem receive (h : Fed fed pipe kernel bytes) {limit : Nat} {part : Bytes} {after : Pipe}
    (hread : (kernel.pipe pipe).read? limit = some (part, after)) :
    bytes = part ++ after.contents ∧ Fed fed pipe (kernel.setPipe pipe after) after.contents ∧
      after.isOpen = (kernel.pipe pipe).isOpen := by
  obtain ⟨hopen, hqueue, _⟩ := Pipe.read?_fields hread
  refine ⟨by rw [h.contents, Pipe.contents_read? hread], h.setPipe ?_, hopen⟩
  exact fun chunk hchunk => h.filled chunk (hqueue.subset hchunk)

end Fed

end Feeding

end Conch
