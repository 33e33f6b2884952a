import Conch.Proofs.Lexing.Words
import Conch.Proofs.Words.Fragments

/-!
# Places do not matter

The place where a text starts decides where its lexemes and errors are said to be, and
nothing else.  `Alike` relates two readings that differ in no other way.
-/

namespace Conch.Syntax

/-- Both readings fail with one cause, or both succeed with related results. -/
inductive Alike {α : Type} (R : α → α → Prop) : Except ParseError α → Except ParseError α → Prop
  | ok {a b : α} (h : R a b) : Alike R (.ok a) (.ok b)
  | error {e f : ParseError} (h : e.cause = f.cause) : Alike R (.error e) (.error f)

namespace Alike

variable {α : Type} {R : α → α → Prop}

theorem refl (x : Except ParseError α) : Alike Eq x x := by
  cases x with
  | error e => exact .error rfl
  | ok a => exact .ok rfl

theorem of_ok {x y : Except ParseError α} (h : Alike R x y) {a : α} (hx : x = .ok a) :
    ∃ b, y = .ok b ∧ R a b := by
  subst hx
  cases h with
  | ok h => exact ⟨_, rfl, h⟩

theorem of_error {x y : Except ParseError α} (h : Alike R x y) {e : ParseError}
    (hx : x = .error e) : ∃ f, y = .error f ∧ e.cause = f.cause := by
  subst hx
  cases h with
  | error h => exact ⟨_, rfl, h⟩

theorem map {f : α → α} {x y : Except ParseError α} (h : Alike Eq x y) (hR : ∀ a, R a (f a)) :
    Alike R x (y.map f) := by
  cases h with
  | @ok a b h =>
      subst h
      exact .ok (hR a)
  | error h => exact .error h

end Alike

/-! ## Lexemes -/

namespace Cursor

theorem skipBlanks_alike (text : List Char) (position position' : Position) :
    Alike (fun x y => x.rest = y.rest) (skipBlanks text position) (skipBlanks text position') := by
  fun_induction skipBlanks text position generalizing position' with
  | case1 rest position ih => exact ih _
  | case2 rest position ih => exact ih _
  | case3 rest position after hempty =>
      change Alike _ _ (if rest.isEmpty then _ else _)
      rw [if_pos hempty]
      exact .error rfl
  | case4 rest position after hempty ih =>
      change Alike _ _ (if rest.isEmpty then _ else skipBlanks rest _)
      rw [if_neg hempty]
      exact ih _
  | case5 text position hblank htab hjoin =>
      rw [skipBlanks.eq_def]
      split <;> first | exact .ok rfl | simp_all

theorem readWord_alike (stack : List Bracket) (seen rest : List Char)
    (position position' : Position) :
    Alike (fun x y => x.1 = y.1 ∧ x.2.rest = y.2.rest) (readWord stack seen rest position)
      (readWord stack seen rest position') := by
  fun_induction readWord stack seen rest position generalizing position' with
  | case1 =>
      rw [readWord_nil]
      exact .ok ⟨rfl, rfl⟩
  | case2 =>
      rw [readWord_nil]
      exact .error rfl
  | case3 stack seen position c after hstep =>
      rw [readWord_cons, hstep]
      exact .ok ⟨rfl, rfl⟩
  | case4 stack seen position c after stack' hstep ih =>
      rw [readWord_cons, hstep]
      exact ih _
  | case5 stack seen position c stack' hstep ih =>
      rw [readWord_cons, hstep]
      exact ih _
  | case6 stack seen position c stack' d after hstep ih =>
      rw [readWord_cons, hstep]
      exact ih _
  | case7 stack seen position c after hstep position hempty =>
      rw [readWord_cons, hstep]
      simp only [hempty, if_true]
      exact .error rfl
  | case8 stack seen position c after hstep position hnonempty ih =>
      rw [readWord_cons, hstep]
      simp only
      rw [if_neg hnonempty]
      exact ih _
  | case9 stack seen position c after hstep position hsplit =>
      rw [readWord_cons, hstep]
      simp only [hsplit]
      exact .error rfl
  | case10 stack seen position c after hstep position body rest hsplit ih =>
      rw [readWord_cons, hstep]
      simp only [hsplit]
      exact ih _

theorem lexeme_alike (c : Char) (rest : List Char) (position position' : Position) :
    Alike (fun x y => x.1.map Lexeme.symbol = y.1.map Lexeme.symbol ∧ x.2.rest = y.2.rest)
      (lexeme c rest position) (lexeme c rest position') := by
  unfold lexeme
  split
  · exact .ok ⟨rfl, rfl⟩
  · split
    · exact .ok ⟨rfl, rfl⟩
    · split
      · exact .ok ⟨rfl, rfl⟩
      · split
        · exact .ok ⟨rfl, rfl⟩
        · have hword := readWord_alike [] [] (c :: rest) position position'
          cases hread : readWord [] [] (c :: rest) position with
          | error e =>
              obtain ⟨f, hf, hcause⟩ := hword.of_error hread
              rw [hf]
              exact .error hcause
          | ok result =>
              obtain ⟨result', hresult, htext, hrest⟩ := hword.of_ok hread
              rw [hresult]
              exact .ok ⟨by simp [Lexeme.symbol, htext], hrest⟩

end Cursor

theorem Lexemes.read_alike {found found' : List Lexeme}
    (hfound : found.map Lexeme.symbol = found'.map Lexeme.symbol) (text : List Char)
    (position position' : Position) :
    Alike (fun x y => x.items.map Lexeme.symbol = y.items.map Lexeme.symbol)
      (read found text position) (read found' text position') := by
  fun_induction read found text position generalizing found' position' with
  | case1 found text position e hskip =>
      obtain ⟨f, hf, hcause⟩ := (Cursor.skipBlanks_alike text position position').of_error hskip
      rw [read_eq found', hf]
      exact .error hcause
  | case2 found text position finish hskip =>
      obtain ⟨⟨_, _⟩, hcursor, rfl⟩ := (Cursor.skipBlanks_alike text position position').of_ok hskip
      rw [read_eq found', hcursor]
      exact .ok (by simp [hfound])
  | case3 found text position c rest middle hskip e hlexeme =>
      obtain ⟨⟨_, middle'⟩, hcursor, rfl⟩ :=
        (Cursor.skipBlanks_alike text position position').of_ok hskip
      obtain ⟨f, hf, hcause⟩ := (Cursor.lexeme_alike c rest middle middle').of_error hlexeme
      rw [read_eq found', hcursor]
      simp only [hf]
      exact .error hcause
  | case4 found text position c rest middle hskip cursor hlexeme ih =>
      obtain ⟨⟨_, middle'⟩, hcursor, rfl⟩ :=
        (Cursor.skipBlanks_alike text position position').of_ok hskip
      obtain ⟨⟨front, cursor'⟩, hfront, hsymbol, hrest⟩ :=
        (Cursor.lexeme_alike c rest middle middle').of_ok hlexeme
      obtain rfl : front = none := Option.map_eq_none_iff.mp hsymbol.symm
      rw [read_eq found', hcursor]
      simp only [hfront]
      rw [← show cursor.rest = cursor'.rest from hrest]
      exact ih hfound _
  | case5 found text position c rest middle hskip lexeme cursor hlexeme ih =>
      obtain ⟨⟨_, middle'⟩, hcursor, rfl⟩ :=
        (Cursor.skipBlanks_alike text position position').of_ok hskip
      obtain ⟨⟨front, cursor'⟩, hfront, hsymbol, hrest⟩ :=
        (Cursor.lexeme_alike c rest middle middle').of_ok hlexeme
      obtain ⟨lexeme', rfl, hlexeme'⟩ := Option.map_eq_some_iff.mp hsymbol.symm
      rw [read_eq found', hcursor]
      simp only [hfront]
      rw [← show cursor.rest = cursor'.rest from hrest]
      exact ih (by simp [hlexeme', hfound]) _

/-! ## Words -/

namespace Word

variable (parse : ProgramParser) (place place' : List Char → Position)

theorem expansion_alike (text : List Char) :
    Alike Eq (expansion parse place text) (expansion parse place' text) := by
  unfold expansion
  split
  · split
    · exact .error rfl
    · exact .refl _
  · split
    · exact .error rfl
    · exact .refl _
  · split
    · exact .error rfl
    · exact .refl _
  · exact .refl _
  · exact .refl _

/-- A character that is no backslash, neither at the end of the text nor before it. -/
theorem ne_slash {c : Char} {rest : List Char} (hlast : c = '\\' → rest = [] → False)
    (hescape : ∀ d after, c = '\\' → rest = d :: after → False) : c ≠ '\\' := by
  intro hc
  cases rest with
  | nil => exact hlast hc rfl
  | cons d after => exact hescape d after hc rfl

theorem quotedFragments_alike (letters : List Char) (found : List Node) (text : List Char) :
    Alike Eq (quotedFragments parse place letters found text)
      (quotedFragments parse place' letters found text) := by
  fun_induction quotedFragments parse place letters found text with
  | case5 letters found rest e hexpansion =>
      obtain ⟨f, hf, hcause⟩ := (expansion_alike parse place place' rest).of_error hexpansion
      rw [quotedFragments_dollar, hf]
      exact .error hcause
  | case6 letters found rest hexpansion ih =>
      obtain ⟨_, hnone, rfl⟩ := (expansion_alike parse place place' rest).of_ok hexpansion
      rw [quotedFragments_dollar, hnone]
      exact ih
  | case7 letters found rest n after hexpansion ih =>
      obtain ⟨_, hsome, rfl⟩ := (expansion_alike parse place place' rest).of_ok hexpansion
      rw [quotedFragments_dollar, hsome]
      exact ih
  | case8 letters found c rest hquote hlast hescape hdollar ih =>
      rw [quotedFragments_letter hquote (ne_slash hlast hescape) hdollar]
      exact ih
  | case4 letters found c rest ih =>
      rw [quotedFragments_escape]
      exact ih
  | _ =>
      rw [quotedFragments.eq_def]
      exact .refl _

theorem fragments_alike (letters : List Char) (found : List Node) (text : List Char) :
    Alike Eq (fragments parse place letters found text)
      (fragments parse place' letters found text) := by
  fun_induction fragments parse place letters found text with
  | case2 letters found rest e hquoted =>
      obtain ⟨f, hf, hcause⟩ :=
        (quotedFragments_alike parse place place' [] [] rest).of_error hquoted
      rw [fragments_quotes, hf]
      exact .error hcause
  | case3 letters found rest inner after hquoted hend =>
      obtain ⟨_, hinner, rfl⟩ := (quotedFragments_alike parse place place' [] [] rest).of_ok hquoted
      rw [fragments_quotes, hinner]
      simp only [hend, if_true]
      exact .error rfl
  | case4 letters found rest inner after hquoted hend ih =>
      obtain ⟨_, hinner, rfl⟩ := (quotedFragments_alike parse place place' [] [] rest).of_ok hquoted
      rw [fragments_quotes, hinner]
      simp only [hend]
      exact ih
  | case6 letters found c rest ih =>
      rw [fragments_escape]
      exact ih
  | case7 letters found rest after hend =>
      rw [fragments.eq_def]
      change Alike _ _ (if after.isEmpty then _ else _)
      rw [if_pos hend]
      exact .error rfl
  | case8 letters found rest inner after hend ih =>
      rw [fragments.eq_def parse place']
      change Alike _ _ (if after.isEmpty then _ else fragments parse place' _ found after.tail)
      rw [if_neg hend]
      exact ih
  | case9 letters found rest e hexpansion =>
      obtain ⟨f, hf, hcause⟩ := (expansion_alike parse place place' rest).of_error hexpansion
      rw [fragments_dollar, hf]
      exact .error hcause
  | case10 letters found rest hexpansion ih =>
      obtain ⟨_, hnone, rfl⟩ := (expansion_alike parse place place' rest).of_ok hexpansion
      rw [fragments_dollar, hnone]
      exact ih
  | case11 letters found rest n after hexpansion ih =>
      obtain ⟨_, hsome, rfl⟩ := (expansion_alike parse place place' rest).of_ok hexpansion
      rw [fragments_dollar, hsome]
      exact ih
  | case12 letters found c rest hquotes hlast hescape hquote hdollar ih =>
      rw [fragments_letter hquotes (ne_slash hlast hescape) hquote hdollar]
      exact ih
  | _ =>
      rw [fragments.eq_def]
      exact .refl _

/-- The fragments of a word are the same wherever it stands. -/
theorem parse_alike (position position' : Position) (text : List Char) :
    Alike Eq (Word.parse parse position text) (Word.parse parse position' text) :=
  fragments_alike parse _ _ [] [] text

end Word

end Conch.Syntax
