import Conch.Proofs.Lexing.Written
import Mathlib.Data.List.Induction

/-!
# Where lexemes stand

The places that the lexer counts are the places of the text: a lexeme is said to be at the
place that one gets to by going over all characters before it, those of blanks, comments
and continued lines included (`Lexemes.ofText_stands`).

No character is lost on the way.  A text is divided into the slices of its lexemes and what is
idle between them (`Lexemes.ofText_accounted`).
-/

namespace Conch.Syntax

namespace Position

/-- Lines are counted by the newlines before a place, columns by the characters since the last. -/
theorem start_afterAll (before : List Char) :
    start.afterAll before =
      ⟨before.count '\n' + 1, (before.reverse.takeWhile (· ≠ '\n')).length + 1⟩ := by
  induction before using List.reverseRecOn with
  | nil => rfl
  | append_singleton before c ih =>
      rw [afterAll_append, ih, afterAll_cons, afterAll_nil, after]
      by_cases hc : c = '\n'
      · simp [hc]
      · simp [hc]

end Position

namespace Cursor

/-- The cursor has gone over the beginning of a text that starts at the position. -/
def GoneFrom (cursor : Cursor) (text : List Char) (position : Position) : Prop :=
  ∃ passed, text = passed ++ cursor.rest ∧ cursor.position = position.afterAll passed

namespace GoneFrom

variable {cursor middle : Cursor} {text : List Char} {position : Position}

theorem refl (text : List Char) (position : Position) : GoneFrom ⟨text, position⟩ text position :=
  ⟨[], rfl, rfl⟩

theorem trans (hfirst : middle.GoneFrom text position)
    (hsecond : cursor.GoneFrom middle.rest middle.position) : cursor.GoneFrom text position := by
  obtain ⟨first, rfl, hmiddle⟩ := hfirst
  obtain ⟨second, hrest, hposition⟩ := hsecond
  refine ⟨first ++ second, by rw [List.append_assoc, ← hrest], ?_⟩
  rw [hposition, hmiddle, Position.afterAll_append]

end GoneFrom

/-! ## Between lexemes -/

/--
What the lexer goes over where no lexeme starts: blanks, continued lines, and comments.  A comment
goes up to a newline or the end of the text.
-/
inductive Idle : List Char → List Char → Prop
  | nil (rest : List Char) : Idle [] rest
  | blank {c : Char} {gap rest : List Char} (hc : c = ' ' ∨ c = '\t') (h : Idle gap rest) :
      Idle (c :: gap) rest
  | join {gap rest : List Char} (h : Idle gap rest) : Idle ('\\' :: '\n' :: gap) rest
  | comment {comment rest : List Char} (hcomment : '\n' ∉ comment)
      (hend : ∀ c ∈ rest.head?, c = '\n') : Idle ('#' :: comment) rest

theorem Idle.append {first second rest : List Char} (hfirst : Idle first (second ++ rest))
    (hsecond : Idle second rest) : Idle (first ++ second) rest := by
  generalize hmore : second ++ rest = more at hfirst
  induction hfirst with
  | nil => exact hsecond
  | blank hc _ ih => exact .blank hc (ih hmore)
  | join _ ih => exact .join (ih hmore)
  | comment hcomment hend =>
      -- Behind a comment only a newline could follow, and that is not idle.
      subst hmore
      cases hsecond with
      | nil => simpa using Idle.comment hcomment hend
      | blank hc => obtain rfl | rfl := hc <;> simp at hend
      | join => simp at hend
      | comment => simp at hend

variable {text : List Char} {position : Position} {cursor : Cursor}

theorem skipBlanks_idle (h : skipBlanks text position = .ok cursor) :
    ∃ gap, text = gap ++ cursor.rest ∧ cursor.position = position.afterAll gap ∧
      Idle gap cursor.rest := by
  fun_induction skipBlanks text position with
  | case1 rest position ih =>
      obtain ⟨gap, rfl, hposition, hidle⟩ := ih h
      exact ⟨' ' :: gap, rfl, hposition, .blank (.inl rfl) hidle⟩
  | case2 rest position ih =>
      obtain ⟨gap, rfl, hposition, hidle⟩ := ih h
      exact ⟨'\t' :: gap, rfl, hposition, .blank (.inr rfl) hidle⟩
  | case3 => cases h
  | case4 rest position position' hrest ih =>
      obtain ⟨gap, rfl, hposition, hidle⟩ := ih h
      exact ⟨'\\' :: '\n' :: gap, rfl, hposition, .join hidle⟩
  | case5 text position _ _ _ =>
      cases h
      exact ⟨[], rfl, rfl, .nil text⟩

theorem operator?_text {c : Char} {more : List Char} {token : Token} {size : Nat}
    (h : operator? c more.head? = some (token, size)) :
    (c :: more).take size = token.text.toList := by
  cases more with
  | nil =>
      rw [List.head?_nil] at h
      unfold operator? at h
      split at h <;> cases h <;> simp_all [Token.text]
  | cons d more =>
      rw [List.head?_cons] at h
      unfold operator? at h
      split at h <;> cases h <;> simp_all [Token.text]

end Cursor

/-! ## One lexeme -/

/--
The text of a lexeme is the slice where it stands, with `rest` behind it.  For a word it is the one
text that is written there.
-/
def Lexeme.Covers (lexeme : Lexeme) (slice rest : List Char) : Prop :=
  match lexeme.kind with
  | .word => ∀ word, Cursor.Written slice word rest ↔ word = lexeme.text.toList
  | _ => lexeme.text.toList = slice

namespace Cursor

variable {position : Position} {cursor : Cursor} {c : Char} {more : List Char}

/-- Where there is no lexeme there is a comment. -/
theorem lexeme_comment (h : lexeme c more position = .ok (none, cursor)) :
    ∃ gap, c :: more = gap ++ cursor.rest ∧ cursor.position = position.afterAll gap ∧
      Idle gap cursor.rest := by
  unfold lexeme at h
  split at h
  · rename_i hc
    subst hc
    cases h
    refine ⟨_, List.takeWhile_append_dropWhile.symm, rfl, ?_⟩
    have hcomment : '\n' ∉ more.takeWhile (· ≠ '\n') := fun hmem => by
      simpa using List.mem_takeWhile_imp hmem
    refine .comment hcomment fun c hc => ?_
    have hnext : (more.dropWhile (· ≠ '\n')).head? = some c := hc
    have hstop := List.head?_dropWhile_not (· ≠ '\n') more
    rw [hnext] at hstop
    simpa using hstop
  · repeat' (split at h)
    all_goals cases h

theorem lexeme_covers {found : Lexeme} (h : lexeme c more position = .ok (some found, cursor)) :
    ∃ slice, c :: more = slice ++ cursor.rest ∧ cursor.position = position.afterAll slice ∧
      found.position = position ∧ found.Covers slice cursor.rest := by
  unfold lexeme at h
  split at h
  · cases h
  split at h
  · rename_i hc
    cases h
    subst hc
    exact ⟨['\n'], rfl, rfl, rfl, (rfl : "\n".toList = ['\n'])⟩
  split at h
  · rename_i token size hoperator
    cases h
    exact ⟨_, (List.take_append_drop ..).symm, rfl, rfl, (operator?_text hoperator).symm⟩
  split at h
  · rename_i digits hdigits
    cases h
    obtain ⟨d, after, htext, _⟩ := descriptor?_eq_some hdigits
    exact ⟨digits, by rw [htext, List.drop_left], rfl, rfl, String.toList_ofList⟩
  split at h
  · cases h
  · rename_i word cursor' hword
    cases h
    obtain ⟨slice, htext, hposition, hwritten⟩ := readWord_iff_written.mp hword
    refine ⟨slice, htext, hposition, rfl, fun other => ?_⟩
    rw [String.toList_ofList]
    exact ⟨fun hother => hother.unique hwritten, fun hsame => hsame ▸ hwritten⟩

theorem lexeme_gone {found : Option Lexeme} (h : lexeme c more position = .ok (found, cursor)) :
    cursor.GoneFrom (c :: more) position ∧ ∀ lexeme ∈ found, lexeme.position = position := by
  cases found with
  | none =>
      obtain ⟨gap, htext, hposition, _⟩ := lexeme_comment h
      exact ⟨⟨gap, htext, hposition⟩, by simp⟩
  | some found =>
      obtain ⟨slice, htext, hposition, hfound, _⟩ := lexeme_covers h
      exact ⟨⟨slice, htext, hposition⟩, by simp [hfound]⟩

end Cursor

/-- The lexeme is what the lexer reads where it stands in the text. -/
def Lexeme.StandsIn (lexeme : Lexeme) (text : List Char) : Prop :=
  ∃ before c rest cursor, text = before ++ c :: rest ∧
    lexeme.position = Position.start.afterAll before ∧
      Cursor.lexeme c rest lexeme.position = .ok (some lexeme, cursor)

namespace Lexemes

theorem read_stands {found : List Lexeme} {text whole : List Char} {position : Position}
    {stream : Lexemes} (h : read found text position = .ok stream)
    (hgone : Cursor.GoneFrom ⟨text, position⟩ whole .start)
    (hfound : ∀ lexeme ∈ found, lexeme.StandsIn whole) :
    ∀ lexeme ∈ stream.items, lexeme.StandsIn whole := by
  fun_induction read found text position with
  | case1 => cases h
  | case2 found text position finish hskip =>
      cases h
      exact fun lexeme hlexeme => hfound lexeme (List.mem_reverse.mp hlexeme)
  | case3 => cases h
  | case4 found text position c rest position' hskip cursor hlexeme ih =>
      obtain ⟨gap, hgap, hplace, _⟩ := Cursor.skipBlanks_idle hskip
      have hfront := hgone.trans ⟨gap, hgap, hplace⟩
      exact ih h (hfront.trans (Cursor.lexeme_gone hlexeme).1) hfound
  | case5 found text position c rest position' hskip lexeme cursor hlexeme ih =>
      obtain ⟨gap, hgap, hplace, _⟩ := Cursor.skipBlanks_idle hskip
      have hfront := hgone.trans ⟨gap, hgap, hplace⟩
      obtain ⟨hnext, hposition⟩ := Cursor.lexeme_gone hlexeme
      refine ih h (hfront.trans hnext) (List.forall_mem_cons.mpr ⟨?_, hfound⟩)
      obtain ⟨before, hwhole, hbefore⟩ := hfront
      have hplace : lexeme.position = position' := hposition lexeme rfl
      exact ⟨before, c, rest, cursor, hwhole, hplace.trans hbefore, by rw [hplace]; exact hlexeme⟩

/-- Every lexeme of a text stands where it is said to be. -/
theorem ofText_stands {text : List Char} {stream : Lexemes} (h : ofText text = .ok stream) :
    ∀ lexeme ∈ stream.items, lexeme.StandsIn text :=
  read_stands h (.refl text .start) (by simp)

end Lexemes

/-! ## A whole text -/

/-- The place of an offset in a text, with lines and the characters of a line counted from one. -/
def Position.ofOffset (text : List Char) (offset : Nat) : Position :=
  let before := text.take offset
  ⟨before.count '\n' + 1, (before.reverse.takeWhile (· ≠ '\n')).length + 1⟩

/-- A lexeme with the offsets where it starts and stops in a text. -/
structure Slice where
  lexeme : Lexeme
  start : Nat
  stop : Nat

/-- The slice is the next one of a text that has been read up to an offset. -/
structure Slice.Follows (slice : Slice) (text : List Char) (done : Nat) : Prop where
  done_le : done ≤ slice.start
  idle : Cursor.Idle (text.extract done slice.start) (text.drop slice.start)
  start_lt : slice.start < slice.stop
  stop_le : slice.stop ≤ text.length
  covers : slice.lexeme.Covers (text.extract slice.start slice.stop) (text.drop slice.stop)
  position : slice.lexeme.position = Position.ofOffset text slice.start

/-- From an offset on, the text is the slices with idle text between them. -/
def Accounted (text : List Char) : Nat → List Slice → Prop
  | done, [] => Cursor.Idle (text.drop done) []
  | done, slice :: later => slice.Follows text done ∧ Accounted text slice.stop later

theorem Position.ofOffset_eq (text : List Char) (offset : Nat) :
    ofOffset text offset = start.afterAll (text.take offset) :=
  (start_afterAll _).symm

theorem extract_append_drop (text : List Char) {first second : Nat} (h : first ≤ second) :
    text.extract first second ++ text.drop second = text.drop first := by
  have hdrop : (text.drop first).drop (second - first) = text.drop second := by
    rw [List.drop_drop, Nat.add_sub_cancel' h]
  rw [List.extract_eq_take_drop, ← hdrop, List.take_append_drop]

theorem extract_append_extract (text : List Char) {first second third : Nat} (h : first ≤ second)
    (h' : second ≤ third) :
    text.extract first second ++ text.extract second third = text.extract first third := by
  have hdrop : text.extract first second ++ text.extract second third ++ text.drop third =
      text.extract first third ++ text.drop third := by
    rw [List.append_assoc, extract_append_drop text h', extract_append_drop text h,
      extract_append_drop text (Nat.le_trans h h')]
  exact List.append_cancel_right hdrop

/-- Idle text may stand before what is accounted for. -/
theorem Accounted.idle {text : List Char} {done middle : Nat} {slices : List Slice}
    (hle : done ≤ middle) (hgap : Cursor.Idle (text.extract done middle) (text.drop middle))
    (h : Accounted text middle slices) : Accounted text done slices := by
  cases slices with
  | nil =>
      rw [Accounted] at h ⊢
      rw [← extract_append_drop text hle]
      exact Cursor.Idle.append (by rwa [List.append_nil]) h
  | cons slice later =>
      obtain ⟨hslice, hlater⟩ := h
      refine ⟨{ hslice with done_le := Nat.le_trans hle hslice.done_le, idle := ?_ }, hlater⟩
      rw [← extract_append_extract text hle hslice.done_le]
      refine Cursor.Idle.append ?_ hslice.idle
      rwa [extract_append_drop text hslice.done_le]

theorem Accounted.le_start {text : List Char} {done : Nat} {slices : List Slice}
    (h : Accounted text done slices) : ∀ slice ∈ slices, done ≤ slice.start := by
  induction slices generalizing done with
  | nil => simp
  | cons slice later ih =>
      obtain ⟨hslice, hlater⟩ := h
      refine List.forall_mem_cons.mpr ⟨hslice.done_le, fun other hother => ?_⟩
      exact Nat.le_trans (Nat.le_trans hslice.done_le hslice.start_lt.le) (ih hlater other hother)

/-- One lexeme starts behind the other. -/
theorem Accounted.increasing {text : List Char} {done : Nat} {slices : List Slice}
    (h : Accounted text done slices) : (slices.map Slice.start).Pairwise (· < ·) := by
  induction slices generalizing done with
  | nil => exact .nil
  | cons slice later ih =>
      obtain ⟨hslice, hlater⟩ := h
      refine List.pairwise_cons.mpr ⟨?_, ih hlater⟩
      intro start hstart
      obtain ⟨other, hother, rfl⟩ := List.mem_map.mp hstart
      exact Nat.lt_of_lt_of_le hslice.start_lt (hlater.le_start other hother)

/-- The cursor stands at an offset of a text. -/
structure Cursor.StandsAt (cursor : Cursor) (text : List Char) (offset : Nat) : Prop where
  rest : text.drop offset = cursor.rest
  position : cursor.position = Position.ofOffset text offset

theorem Cursor.StandsAt.advance {cursor after : Cursor} {text piece : List Char} {offset : Nat}
    (h : cursor.StandsAt text offset) (hrest : cursor.rest = piece ++ after.rest)
    (hposition : after.position = cursor.position.afterAll piece) :
    after.StandsAt text (offset + piece.length) ∧
      text.extract offset (offset + piece.length) = piece := by
  have hdrop := h.rest.trans hrest
  refine ⟨⟨?_, ?_⟩, ?_⟩
  · rw [← List.drop_drop, hdrop, List.drop_left]
  · rw [hposition, h.position, Position.ofOffset_eq, Position.ofOffset_eq, List.take_add, hdrop,
      List.take_left, Position.afterAll_append]
  · rw [List.extract_eq_take_drop, hdrop, Nat.add_sub_cancel_left, List.take_left]

theorem Lexemes.read_accounted {found : List Lexeme} {text whole : List Char} {position : Position}
    {offset : Nat} {stream : Lexemes} (h : read found text position = .ok stream)
    (hstands : Cursor.StandsAt ⟨text, position⟩ whole offset) :
    ∃ slices : List Slice, stream.items = found.reverse ++ slices.map Slice.lexeme ∧
      Accounted whole offset slices ∧ stream.finish = Position.ofOffset whole whole.length := by
  fun_induction read found text position generalizing offset with
  | case1 => cases h
  | case2 found text position finish hskip =>
      cases h
      obtain ⟨gap, hgap, hfinish, hidle⟩ := Cursor.skipBlanks_idle hskip
      obtain ⟨hend, hextract⟩ := hstands.advance hgap hfinish
      refine ⟨[], by simp, ?_, ?_⟩
      · rw [Accounted, hstands.rest, hgap]
        simpa using hidle
      · have hall : whole.take (offset + gap.length) = whole :=
          List.take_of_length_le (List.drop_eq_nil_iff.mp hend.rest)
        rw [Position.ofOffset_eq, List.take_length, ← hall, ← Position.ofOffset_eq]
        exact hend.position
  | case3 => cases h
  | case4 found text position c rest position' hskip cursor hlexeme ih =>
      obtain ⟨gap, hgap, hplace, hidle⟩ := Cursor.skipBlanks_idle hskip
      obtain ⟨comment, hcomment, hafter, hidle'⟩ := Cursor.lexeme_comment hlexeme
      obtain ⟨hfront, hextract⟩ := hstands.advance hgap hplace
      obtain ⟨hnext, hextract'⟩ := hfront.advance hcomment hafter
      obtain ⟨slices, hitems, haccounted, hfinish⟩ := ih h hnext
      refine ⟨slices, hitems, ?_, hfinish⟩
      have hlater := haccounted.idle (Nat.le_add_right _ _) (by rwa [hextract', hnext.rest])
      exact hlater.idle (Nat.le_add_right _ _) (by rwa [hextract, hfront.rest])
  | case5 found text position c rest position' hskip lexeme cursor hlexeme ih =>
      obtain ⟨gap, hgap, hplace, hidle⟩ := Cursor.skipBlanks_idle hskip
      obtain ⟨covered, hcovered, hafter, hposition, hcovers⟩ := Cursor.lexeme_covers hlexeme
      obtain ⟨hfront, hextract⟩ := hstands.advance hgap hplace
      obtain ⟨hnext, hextract'⟩ := hfront.advance hcovered hafter
      obtain ⟨slices, hitems, haccounted, hfinish⟩ := ih h hnext
      have hne : 0 < covered.length := by
        have hless := Cursor.lexeme_length_lt ((Cursor.skipBlanks_spec hskip).2 c rfl) hlexeme
        rw [hcovered, List.length_append] at hless
        omega
      have hstop : offset + gap.length + covered.length ≤ whole.length := by
        have hlength := congrArg List.length (hfront.rest.trans hcovered)
        rw [List.length_drop, List.length_append] at hlength
        omega
      refine ⟨⟨lexeme, offset + gap.length, offset + gap.length + covered.length⟩ :: slices,
        by simp [hitems], ⟨⟨by simp, ?_, by simpa using hne, hstop, ?_, ?_⟩, haccounted⟩, hfinish⟩
      · rwa [hextract, hfront.rest]
      · rwa [hextract', hnext.rest]
      · rw [hposition]
        exact hfront.position

/--
Every character of a text with lexemes is accounted for.  The lexemes are slices of the text, one
behind the other, each at the place of its offset and with the text of its slice; what is between
them is idle, and the lexer stops at the place of the end.
-/
theorem Lexemes.ofText_accounted {text : List Char} {stream : Lexemes}
    (h : ofText text = .ok stream) :
    ∃ slices : List Slice, slices.map Slice.lexeme = stream.items ∧
      (slices.map Slice.start).Pairwise (· < ·) ∧ Accounted text 0 slices ∧
        stream.finish = Position.ofOffset text text.length := by
  have hstart : Cursor.StandsAt ⟨text, .start⟩ text 0 := ⟨rfl, rfl⟩
  obtain ⟨slices, hitems, haccounted, hfinish⟩ := read_accounted h hstart
  exact ⟨slices, hitems.symm, haccounted.increasing, haccounted, hfinish⟩

/-- A word over two lines, a descriptor, an operator, quotes and a comment. -/
theorem Lexemes.ofText_accounted_continued :
    ∃ stream, ofText "a\\\nb 2>'x y' # c\n".toList = .ok stream ∧
      stream.items = [⟨.word, "ab", ⟨1, 1⟩⟩, ⟨.descriptor, "2", ⟨2, 3⟩⟩, ⟨.op .great, ">", ⟨2, 4⟩⟩,
        ⟨.word, "'x y'", ⟨2, 5⟩⟩, ⟨.newline, "\n", ⟨2, 14⟩⟩] ∧
      ∃ slices : List Slice, slices.map Slice.lexeme = stream.items ∧
        (slices.map Slice.start).Pairwise (· < ·) ∧
          Accounted "a\\\nb 2>'x y' # c\n".toList 0 slices ∧
            stream.finish = Position.ofOffset "a\\\nb 2>'x y' # c\n".toList 17 := by
  have hread : ofText "a\\\nb 2>'x y' # c\n".toList =
      .ok ⟨[⟨.word, "ab", ⟨1, 1⟩⟩, ⟨.descriptor, "2", ⟨2, 3⟩⟩, ⟨.op .great, ">", ⟨2, 4⟩⟩,
        ⟨.word, "'x y'", ⟨2, 5⟩⟩, ⟨.newline, "\n", ⟨2, 14⟩⟩], ⟨3, 1⟩⟩ := by
    decide +kernel
  exact ⟨_, hread, rfl, ofText_accounted hread⟩

end Conch.Syntax
