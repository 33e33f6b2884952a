import Conch.Proofs.Session.Program
import Conch.Proofs.Stream.Traffic

/-!
# The input of a session

Chunks are sent to the input of a session, which is then closed; the session reads so many
bytes at a time, while the chunks still come.  The lines that it hears are those of the
bytes (`Hears.linesOf`), however the bytes are divided into chunks, and there is always a
next line to be heard or the end (`Inlet.Loaded.hears`).
-/

namespace Conch.Session

open Text (Bytes)

/-! ## Lines of bytes -/

/-- Bytes split after each newline. -/
def splitLines : Bytes → List Bytes
  | [] => []
  | b :: rest =>
      if b = 10 then [b] :: splitLines rest
      else
        match splitLines rest with
        | [] => [[b]]
        | line :: lines => (b :: line) :: lines

/-- The text of a line, with a newline also if the bytes have none. -/
def lineText (line : Bytes) : String :=
  if line.getLast? = some 10 then Text.decodeLossy line else Text.decodeLossy line ++ "\n"

def linesOf (bytes : Bytes) : List String := (splitLines bytes).map lineText

theorem flatten_splitLines (bytes : Bytes) : (splitLines bytes).flatten = bytes := by
  induction bytes with
  | nil => rfl
  | cons b rest ih =>
      rw [splitLines]
      split
      · rw [List.flatten_cons, ih]
        rfl
      · split
        · rename_i hnone
          rw [hnone] at ih
          rw [← ih]
          rfl
        · rename_i hlines
          rw [hlines] at ih
          rw [← ih]
          rfl

theorem splitLines_line {body : Bytes} (h : 10 ∉ body) (rest : Bytes) :
    splitLines (body ++ 10 :: rest) = (body ++ [10]) :: splitLines rest := by
  induction body with
  | nil => rfl
  | cons b body ih =>
      obtain ⟨hb, hbody⟩ := not_or.mp (mt List.mem_cons.mpr h)
      rw [List.cons_append, splitLines, if_neg (Ne.symm hb), ih hbody]
      rfl

theorem splitLines_unended {body : Bytes} (h : 10 ∉ body) (hne : body ≠ []) :
    splitLines body = [body] := by
  induction body with
  | nil => exact absurd rfl hne
  | cons b body ih =>
      obtain ⟨hb, hbody⟩ := not_or.mp (mt List.mem_cons.mpr h)
      rw [splitLines, if_neg (Ne.symm hb)]
      cases body with
      | nil => rfl
      | cons c body => rw [ih hbody (List.cons_ne_nil c body)]

theorem linesOf_line {bytes line rest : Bytes} (h : splitLine? bytes = some (line, rest))
    (more : Bytes) : linesOf (bytes ++ more) = Text.decodeLossy line :: linesOf (rest ++ more) := by
  obtain ⟨body, hbody, rfl, rfl⟩ := splitLine?_eq_some h
  rw [linesOf, List.append_assoc, List.cons_append, splitLines_line hbody, List.map_cons, lineText,
    if_pos (by simp)]
  rfl

theorem linesOf_unended {bytes : Bytes} (h : splitLine? bytes = none) (hne : bytes ≠ []) :
    linesOf bytes = [Text.decodeLossy bytes ++ "\n"] := by
  have hbytes := splitLine?_eq_none h
  have hlast : bytes.getLast? ≠ some 10 := fun hlast => hbytes (List.mem_of_getLast? hlast)
  rw [linesOf, splitLines_unended hbytes hne, List.map_singleton, lineText, if_neg hlast]

/-! ## Chunks that come in -/

/-- A pipe with the chunks that are still to be sent before it is closed. -/
structure Inlet where
  pipe : Pipe
  chunks : List Bytes

namespace Inlet

/-- What a session reads from a pipe while the chunks are sent. -/
inductive Gives : Inlet → List Bytes → Inlet → Prop where
  | nothing {inlet : Inlet} : Gives inlet [] inlet
  | sent {pipe after : Pipe} {chunk : Bytes} {chunks heard : List Bytes} {size : Nat} {last : Inlet}
      (h : pipe.write? chunk = some (.ok size, after)) (hmore : Gives ⟨after, chunks⟩ heard last) :
      Gives ⟨pipe, chunk :: chunks⟩ heard last
  | closed {pipe : Pipe} {heard : List Bytes} {last : Inlet}
      (hmore : Gives ⟨pipe.close, []⟩ heard last) : Gives ⟨pipe, []⟩ heard last
  | heard {pipe after : Pipe} {bytes : Bytes} {chunks later : List Bytes} {last : Inlet}
      (h : pipe.read? readSize = some (bytes, after)) (hmore : Gives ⟨after, chunks⟩ later last) :
      Gives ⟨pipe, chunks⟩ (bytes :: later) last

variable {inlet middle last : Inlet} {first later heard : List Bytes}

theorem Gives.append (h : Gives inlet first middle) (hlater : Gives middle later last) :
    Gives inlet (first ++ later) last := by
  induction h with
  | nothing => exact hlater
  | sent h _ ih => exact .sent h (ih hlater)
  | closed _ ih => exact .closed (ih hlater)
  | heard h _ ih => exact .heard h (ih hlater)

theorem Gives.split (h : Gives inlet (first ++ later) last) :
    ∃ middle, Gives inlet first middle ∧ Gives middle later last := by
  generalize hall : first ++ later = all at h
  induction h generalizing first with
  | @nothing inlet =>
      obtain ⟨rfl, rfl⟩ := List.append_eq_nil_iff.mp hall
      exact ⟨inlet, .nothing, .nothing⟩
  | sent h _ ih =>
      obtain ⟨middle, hfirst, hlater⟩ := ih hall
      exact ⟨middle, .sent h hfirst, hlater⟩
  | closed _ ih =>
      obtain ⟨middle, hfirst, hlater⟩ := ih hall
      exact ⟨middle, .closed hfirst, hlater⟩
  | heard h hmore ih =>
      cases first with
      | nil =>
          obtain rfl : later = _ := hall
          exact ⟨_, .nothing, .heard h hmore⟩
      | cons bytes first =>
          obtain ⟨rfl, hrest⟩ := List.cons.inj hall
          obtain ⟨middle, hfirst, hlater⟩ := ih hrest
          exact ⟨middle, .heard h hfirst, hlater⟩

/-- Everything that is still to be heard. -/
def rest (inlet : Inlet) : Bytes := inlet.pipe.contents ++ inlet.chunks.flatten

/-- There is room in the pipe, no chunk is empty, and the pipe is closed after the last one. -/
structure Loaded (inlet : Inlet) : Prop where
  slots : 0 < inlet.pipe.slots
  queued : ∀ chunk ∈ inlet.pipe.queue, chunk ≠ []
  coming : ∀ chunk ∈ inlet.chunks, chunk ≠ []
  isOpen : inlet.pipe.isOpen = false → inlet.chunks = []

theorem Loaded.start (slots : Nat) {chunks : List Bytes} (h : ∀ chunk ∈ chunks, chunk ≠ []) :
    Loaded ⟨.new slots, chunks⟩ where
  slots := Nat.le_max_right slots 1
  queued := by simp [Pipe.new]
  coming := h
  isOpen := by simp [Pipe.new]

theorem Loaded.sent {pipe after : Pipe} {chunk : Bytes} {chunks : List Bytes} {size : Nat}
    (h : Loaded ⟨pipe, chunk :: chunks⟩) (hwrite : pipe.write? chunk = some (.ok size, after)) :
    Loaded ⟨after, chunks⟩ := by
  obtain ⟨hslots, hqueued, hcoming, _⟩ := h
  obtain ⟨hchunk, hchunks⟩ := List.forall_mem_cons.mp hcoming
  rcases Pipe.write?_cases hwrite hchunk with ⟨_, hopen, rfl⟩ | ⟨hreply, _⟩
  · refine ⟨hslots, fun c hc => ?_, hchunks, fun hclosed => ?_⟩
    · rcases List.mem_append.mp hc with hc | hc
      · exact hqueued c hc
      · rw [List.mem_singleton.mp hc]
        exact hchunk
    · rw [hopen] at hclosed
      cases hclosed
  · cases hreply

theorem Loaded.read {pipe after : Pipe} {bytes : Bytes} {chunks : List Bytes}
    (h : Loaded ⟨pipe, chunks⟩) (hread : pipe.read? readSize = some (bytes, after)) :
    Loaded ⟨after, chunks⟩ := by
  obtain ⟨hopen, hqueue, hslots⟩ := Pipe.read?_fields hread
  refine ⟨?_, fun c hc => h.queued c (hqueue.subset hc), h.coming, fun hclosed => ?_⟩
  · exact hslots ▸ h.slots
  · exact h.isOpen (hopen ▸ hclosed)

/-- What is heard is off the front of the rest, and an empty chunk is only heard at the end. -/
theorem Gives.conserves (h : Gives inlet heard last) (hloaded : Loaded inlet) :
    Loaded last ∧ inlet.rest = heard.flatten ++ last.rest ∧ ([] ∈ heard → last.rest = []) := by
  induction h with
  | nothing => exact ⟨hloaded, rfl, by simp⟩
  | sent hwrite _ ih =>
      obtain ⟨hlast, hrest, hend⟩ := ih (hloaded.sent hwrite)
      refine ⟨hlast, ?_, hend⟩
      rw [← hrest, rest, rest, Pipe.contents_write? hwrite, List.flatten_cons, List.append_assoc]
  | closed _ ih => exact ih ⟨hloaded.slots, hloaded.queued, hloaded.coming, fun _ => rfl⟩
  | @heard pipe after bytes chunks later last hread _ ih =>
      obtain ⟨hlast, hrest, hend⟩ := ih (hloaded.read hread)
      have hbytes : rest ⟨pipe, chunks⟩ = bytes ++ (later.flatten ++ last.rest) := by
        rw [← hrest, rest, rest, Pipe.contents_read? hread, List.append_assoc]
      refine ⟨hlast, ?_, fun hmem => ?_⟩
      · rw [hbytes, List.flatten_cons, List.append_assoc]
      · rcases List.mem_cons.mp hmem with rfl | hmem
        · obtain ⟨hclosed, hempty⟩ := Pipe.read?_end hread (by decide) hloaded.queued
          obtain rfl : chunks = [] := hloaded.isOpen hclosed
          rw [rest, hempty] at hbytes
          exact (List.append_eq_nil_iff.mp (List.append_eq_nil_iff.mp hbytes.symm).2).2
        · exact hend hmem

/-- There is always something to be heard, if only the end. -/
theorem Loaded.next (h : Loaded inlet) : ∃ bytes last, Gives inlet [bytes] last := by
  obtain ⟨pipe, chunks⟩ := inlet
  cases hread : pipe.read? readSize with
  | some out => exact ⟨out.1, ⟨out.2, chunks⟩, .heard hread .nothing⟩
  | none =>
      obtain ⟨hopen, hqueue⟩ := Pipe.read?_none hread
      cases chunks with
      | nil =>
          cases hclosed : pipe.close.read? readSize with
          | some out => exact ⟨out.1, ⟨out.2, []⟩, .closed (.heard hclosed .nothing)⟩
          | none => cases (Pipe.read?_none hclosed).1
      | cons chunk chunks =>
          have hchunk := h.coming chunk (List.mem_cons_self ..)
          cases hwrite : pipe.write? chunk with
          | none =>
              have hfull := (Pipe.write?_none hwrite).2
              rw [hqueue, List.length_nil] at hfull
              exact absurd h.slots (Nat.not_lt.mpr hfull)
          | some written =>
              obtain ⟨reply, after⟩ := written
              rcases Pipe.write?_cases hwrite hchunk with ⟨rfl, _, hafter⟩ | ⟨_, hclosed, _⟩
              · cases hread : after.read? readSize with
                | some out => exact ⟨out.1, ⟨out.2, chunks⟩, .sent hwrite (.heard hread .nothing)⟩
                | none =>
                    have hempty := (Pipe.read?_none hread).2
                    rw [hafter] at hempty
                    simp at hempty
              · rw [hopen] at hclosed
                cases hclosed

end Inlet

/-! ## The next line -/

section

variable {inlet last : Inlet} {pending : Bytes} {chunks : List Bytes} {x : Option String × Bytes}

/-- The line that is heard is the first one of the bytes that are pending or still to come. -/
theorem Hears.linesOf (h : Hears pending chunks x) (hgives : inlet.Gives chunks last)
    (hloaded : inlet.Loaded) :
    linesOf (pending ++ inlet.rest) = x.1.toList ++ linesOf (x.2 ++ last.rest) ∧
      (x.1 = none → x.2 ++ last.rest = []) := by
  induction h generalizing inlet with
  | line hsplit =>
      obtain ⟨_, hrest, _⟩ := hgives.conserves hloaded
      refine ⟨?_, by simp⟩
      rw [linesOf_line hsplit, hrest]
      rfl
  | nothing =>
      obtain ⟨_, hrest, hend⟩ := hgives.conserves hloaded
      have hlast := hend (List.mem_singleton.mpr rfl)
      rw [hrest, hlast]
      exact ⟨rfl, fun _ => rfl⟩
  | lastLine hsplit hne =>
      obtain ⟨_, hrest, hend⟩ := hgives.conserves hloaded
      have hlast := hend (List.mem_singleton.mpr rfl)
      rw [hrest, hlast]
      refine ⟨?_, by simp⟩
      rw [List.append_nil, List.flatten_singleton, List.append_nil, linesOf_unended hsplit hne]
      rfl
  | @more pending chunk chunks x hsplit hne hrest ih =>
      have hparts : inlet.Gives ([chunk] ++ chunks) last := hgives
      obtain ⟨middle, hfirst, hlater⟩ := hparts.split
      obtain ⟨hmiddle, hbytes, _⟩ := hfirst.conserves hloaded
      rw [hbytes, List.flatten_singleton, ← List.append_assoc]
      exact ih hlater hmiddle

/-- After the end of the input nothing is left. -/
theorem Hears.atEnd (h : Hears pending chunks x) (hend : [] ∈ chunks) : x.2 = [] := by
  induction h with
  | line => cases hend
  | nothing => rfl
  | lastLine => rfl
  | more _ hne _ ih =>
      rcases List.mem_cons.mp hend with hend | hend
      · exact absurd hend.symm hne
      · exact ih hend

theorem Inlet.Loaded.hears (h : inlet.Loaded) (pending : Bytes) :
    ∃ chunks x last, Hears pending chunks x ∧ inlet.Gives chunks last := by
  induction hsize : inlet.rest.length using Nat.strongRecOn generalizing inlet pending with
  | ind size ih =>
      cases hsplit : splitLine? pending with
      | some found => exact ⟨[], _, inlet, .line hsplit, .nothing⟩
      | none =>
          obtain ⟨bytes, middle, hnext⟩ := h.next
          obtain ⟨hmiddle, hrest, _⟩ := hnext.conserves h
          by_cases hbytes : bytes = []
          · subst hbytes
            by_cases hpending : pending = []
            · subst hpending
              exact ⟨[[]], _, middle, .nothing, hnext⟩
            · exact ⟨[[]], _, middle, .lastLine hsplit hpending, hnext⟩
          · have hless : middle.rest.length < size := by
              have hlength := congrArg List.length hrest
              have hpos := List.length_pos_iff.mpr hbytes
              rw [List.length_append, List.flatten_singleton] at hlength
              omega
            obtain ⟨chunks, x, last, hhears, hmore⟩ := ih _ hless hmiddle (pending ++ bytes) rfl
            exact ⟨bytes :: chunks, x, last, .more hsplit hbytes hhears, hnext.append hmore⟩

end

end Conch.Session
