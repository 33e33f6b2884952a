import Conch.Proofs.Lexing.Words
import Conch.Proofs.Words.Fragments
import Conch.Shell.Expansion

/-!
# Spellings between double quotes

A text has several spellings between double quotes.  A character with a meaning there may
stand behind a backslash, and a dollar sign also by itself where it starts no expansion.
Every pass over a word keeps to the text, whichever spelling it is: the lexer reads it to the
quote at its end, it is one literal, and without its backslashes it is the text again.
-/

namespace Conch

open Syntax

/-- After a dollar sign the character starts an expansion. -/
def startsExpansion (c : Char) : Bool :=
  c == '(' || c == '\x7b' || isNameStart c || Word.isSpecialParameter c

/-- The first text is written between double quotes for the second one. -/
inductive Spells : List Char → List Char → Prop where
  | nil : Spells [] []
  | escaped {c : Char} {written text : List Char} (h : Spells written text)
      (hc : c = '$' ∨ c = '"' ∨ c = '\\' ∨ c = '\x60') : Spells ('\\' :: c :: written) (c :: text)
  | plain {c : Char} {written text : List Char} (h : Spells written text) (hquote : c ≠ '"')
      (hslash : c ≠ '\\') (hdollar : c = '$' → written.head?.any startsExpansion = false) :
      Spells (c :: written) (c :: text)

namespace Spells

variable {written text : List Char}

/-- Before the quote at the end too, no character starts an expansion. -/
theorem head?_append (h : written.head?.any startsExpansion = false) (more : List Char) :
    ∃ d rest, written ++ '"' :: more = d :: rest ∧ startsExpansion d = false := by
  cases written with
  | nil => exact ⟨'"', more, rfl, by decide⟩
  | cons d rest => exact ⟨d, rest ++ '"' :: more, rfl, h⟩

theorem ne_of_startsExpansion {d : Char} (h : startsExpansion d = false) :
    d ≠ '(' ∧ d ≠ '\x7b' ∧ isNameStart d = false ∧ Word.isSpecialParameter d = false := by
  simpa [startsExpansion, and_assoc] using h

/-- Such a character is read by itself. -/
theorem step_plain {c : Char} {next : Option Char} (hquote : c ≠ '"') (hslash : c ≠ '\\')
    (hdollar : c = '$' → next ≠ some '(' ∧ next ≠ some '\x7b') :
    Cursor.step [.double] c next = .one [.double] := by
  by_cases hc : c = '$'
  · obtain ⟨hparen, hbrace⟩ := hdollar hc
    have hnone : Cursor.dollar [.double] none = .one [.double] := rfl
    subst hc
    exact Cursor.dollar_one hnone hparen hbrace
  · unfold Cursor.step
    split <;> simp_all

/-- The lexer goes on behind the text. -/
theorem readWord (h : Spells written text) (seen more : List Char) (position : Position) :
    ∃ position', Cursor.readWord [.double] seen (written ++ '"' :: more) position =
      Cursor.readWord [.double] (written.reverse ++ seen) ('"' :: more) position' := by
  induction h generalizing seen position with
  | nil => exact ⟨position, rfl⟩
  | @escaped c written text h hc ih =>
      obtain ⟨finish, hrest⟩ := ih (c :: '\\' :: seen) ((position.after '\\').after c)
      have hpair : Cursor.readWord [.double] seen ('\\' :: c :: (written ++ '"' :: more)) position =
          Cursor.readWord [.double] (c :: '\\' :: seen) (written ++ '"' :: more)
            ((position.after '\\').after c) := by
        rw [Cursor.readWord_cons]
        rfl
      refine ⟨finish, hpair.trans ?_⟩
      simpa using hrest
  | @plain c written text h hquote hslash hdollar ih =>
      obtain ⟨finish, hrest⟩ := ih (c :: seen) (position.after c)
      have hstep : Cursor.step [.double] c (written ++ '"' :: more).head? = .one [.double] := by
        refine step_plain hquote hslash fun hc => ?_
        obtain ⟨d, rest, hnext, hd⟩ := head?_append (hdollar hc) more
        obtain ⟨hparen, hbrace, -⟩ := ne_of_startsExpansion hd
        simp [hnext, hparen, hbrace]
      refine ⟨finish, ?_⟩
      rw [List.cons_append, Cursor.readWord_cons, hstep]
      simpa using hrest

/-- What is written is one literal. -/
theorem quotedFragments {parse : Word.ProgramParser} {place : List Char → Position}
    {found : List Node} (h : Spells written text) (letters more : List Char) :
    Word.quotedFragments parse place letters found (written ++ '"' :: more) =
      .ok ((Word.flush (written.reverse ++ letters) found).reverse, '"' :: more) := by
  induction h generalizing letters with
  | nil => exact Word.quotedFragments_end more
  | @escaped c written text h hc ih =>
      rw [List.cons_append, List.cons_append, Word.quotedFragments_escape]
      simpa using ih (c :: '\\' :: letters)
  | @plain c written text h hquote hslash hdollar ih =>
      have hrest := ih (c :: letters)
      by_cases hc : c = '$'
      · obtain ⟨d, rest, hnext, hd⟩ := head?_append (hdollar hc) more
        obtain ⟨hparen, hbrace, hname, hspecial⟩ := ne_of_startsExpansion hd
        have hexpansion : Word.expansion parse place (written ++ '"' :: more) = .ok none := by
          rw [hnext]
          unfold Word.expansion
          split <;> simp_all
        rw [List.cons_append, hc, Word.quotedFragments_dollar, hexpansion, ← hc]
        simpa using hrest
      · rw [List.cons_append, Word.quotedFragments_letter hquote hslash hc]
        simpa using hrest

/-- Without the backslashes it is the text. -/
theorem unescapeOnto (h : Spells written text) (seen : List Char) :
    unescapeOnto seen written = seen.reverse ++ text := by
  induction h generalizing seen with
  | nil => simp [Conch.unescapeOnto]
  | @escaped c written text h hc ih =>
      have hnewline : c ≠ '\n' := by
        rintro rfl
        exact absurd hc (by decide)
      rw [Conch.unescapeOnto, if_pos (by simpa [or_assoc] using hc), ih]
      · simp
      · exact hnewline
  | plain h hquote hslash hdollar ih =>
      rw [Conch.unescapeOnto, ih]
      · simp
      all_goals simp [hslash]

end Spells

namespace Syntax.Word

/-- The fragments of some letters and a text in double quotes. -/
def inQuotes (letters written : List Char) : List Node :=
  flush letters.reverse [] ++ [.quoted (flush written.reverse [])]

theorem inQuotes_letters {letters : List Char} (h : letters ≠ []) (written : List Char) :
    inQuotes letters written =
      [.literal (String.ofList letters), .quoted (flush written.reverse [])] := by
  have hne : letters.reverse.isEmpty = false := by simpa using h
  have hflush : flush letters.reverse [] = [.literal (String.ofList letters)] := by
    rw [flush, hne, if_neg Bool.false_ne_true, List.reverse_reverse]
  rw [inQuotes, hflush]
  rfl

theorem programs_inQuotes (letters written : List Char) :
    (inQuotes letters written).flatMap Node.programs = [] := by
  have hinside : (flush written.reverse []).flatMap Node.substituted = [] := by
    unfold flush
    split <;> rfl
  rw [inQuotes, List.flatMap_append, programs_flush]
  simp [Node.programs, hinside]

theorem nestings_inQuotes (letters written : List Char) :
    Node.nestings (inQuotes letters written) = 0 := by
  have hflush : ∀ letters, Node.nestings (flush letters []) = 0 := by
    intro letters
    unfold flush
    split <;> rfl
  refine Nat.le_zero.mp (Node.nestings_le_iff.mpr fun n hn => ?_)
  rcases List.mem_append.mp hn with hn | hn
  · exact Node.nestings_le_iff.mp (Nat.le_of_eq (hflush _)) n hn
  · rw [List.mem_singleton.mp hn]
    exact Nat.le_of_eq (hflush _)

theorem fragments_letters {parse : ProgramParser} {place : List Char → Position}
    {found : List Node} {letters : List Char} (hletters : ∀ c ∈ letters, isPlain c = true)
    (before more : List Char) :
    fragments parse place before found (letters ++ more) =
      fragments parse place (letters.reverse ++ before) found more := by
  induction letters generalizing before with
  | nil => rfl
  | cons c letters ih =>
      have hc := hletters c (by simp)
      simp only [isPlain, Bool.and_eq_true, bne_iff_ne] at hc
      obtain ⟨⟨⟨⟨-, hslash⟩, hquote⟩, hdouble⟩, hdollar⟩ := hc
      rw [List.cons_append, fragments_letter hdouble hslash hquote hdollar,
        ih (fun d hd => hletters d (by simp [hd]))]
      simp

end Syntax.Word

namespace Syntax.Cursor

/-- Letters and what stands between two quotes after them are read up to a boundary. -/
theorem readWord_enclosed {bracket : Bracket} {mark : Char} {letters inner more : List Char}
    (hopen : ∀ next, step [] mark next = .one [bracket])
    (hclose : ∀ next, step [bracket] mark next = .one [])
    (hinner : ∀ seen position, ∃ position',
      readWord [bracket] seen (inner ++ mark :: more) position =
        readWord [bracket] (inner.reverse ++ seen) (mark :: more) position')
    (hletters : ∀ c ∈ letters, isPlain c = true) (hmore : more.head?.all isWordBoundary = true)
    (seen : List Char) (position : Position) :
    ∃ finish, readWord [] seen (letters ++ mark :: (inner ++ mark :: more)) position =
      .ok (seen.reverse ++ (letters ++ mark :: (inner ++ [mark])), ⟨more, finish⟩) := by
  induction letters generalizing seen position with
  | nil =>
      obtain ⟨middle, hinside⟩ := hinner (mark :: seen) (position.after mark)
      have hnone : ∀ c ∈ ([] : List Char), isPlain c = true := by simp
      have hstop := readWord_plain hnone hmore (mark :: (inner.reverse ++ mark :: seen))
        (middle.after mark)
      refine ⟨middle.after mark, ?_⟩
      rw [List.nil_append, readWord_cons, hopen]
      refine hinside.trans ?_
      rw [readWord_cons, hclose]
      refine hstop.trans ?_
      simp
  | cons c letters ih =>
      obtain ⟨finish, hrest⟩ := ih (fun d hd => hletters d (by simp [hd])) (c :: seen)
        (position.after c)
      refine ⟨finish, ?_⟩
      rw [List.cons_append, readWord_cons, step_plain (hletters c (by simp))]
      simpa using hrest

end Syntax.Cursor

namespace Spells

variable {written text letters : List Char} (h : Spells written text)
  (hletters : ∀ c ∈ letters, isPlain c = true)

include h hletters

/-- A word of letters and a text in double quotes is read up to a boundary. -/
theorem readWord_inQuotes {more : List Char} (hmore : more.head?.all isWordBoundary = true)
    (seen : List Char) (position : Position) :
    ∃ finish, Cursor.readWord [] seen (letters ++ '"' :: (written ++ '"' :: more)) position =
      .ok (seen.reverse ++ (letters ++ '"' :: (written ++ ['"'])), ⟨more, finish⟩) :=
  Cursor.readWord_enclosed (fun _ => rfl) (fun _ => rfl)
    (fun seen position => h.readWord seen more position) hletters hmore seen position

/-- It is the letters, and one literal in double quotes. -/
theorem parse_inQuotes {parse : Word.ProgramParser} (position : Position) :
    Word.parse parse position (letters ++ '"' :: (written ++ ['"'])) =
      .ok (Word.inQuotes letters written) := by
  rw [Word.parse, Word.fragments_letters hletters, List.append_nil, Word.fragments_quotes,
    h.quotedFragments]
  simp only [List.append_nil, List.isEmpty_cons, Bool.false_eq_true, if_false, List.tail_cons]
  rw [Word.fragments_nil, Word.flush_eq letters.reverse, Word.reverse_flush]
  have hnone : ∀ found, Word.flush [] found = found := fun _ => rfl
  rw [hnone, List.reverse_cons, List.reverse_append, Word.reverse_flush]
  rfl

end Spells

end Conch
