import Conch.Proofs.Grammar.Levels
import Conch.Proofs.Lexing.Lines
import Conch.Proofs.Lexing.Spots

/-!
# What an error points at

An error near an unexpected token names the place of a lexeme of that text.  The place is
counted in the text that the lexeme was read from: the source, or the body of a command
substitution, whose first character is at the start whatever stands before it in the
source (`parse_unexpected`).  So the place is that of the source only where the lexeme is
in no substitution (`substituted_misplaced`).
-/

namespace Conch.Syntax

/-! ## Places -/

namespace Position

/-- Going over characters, one gets to a later line or that much further on the same line. -/
theorem afterAll_cases (p : Position) (text : List Char) :
    p.line < (p.afterAll text).line ∨ p.afterAll text = ⟨p.line, p.column + text.length⟩ := by
  induction text generalizing p with
  | nil => exact .inr rfl
  | cons c rest ih =>
      rw [afterAll_cons]
      by_cases hc : c = '\n'
      · have hafter : p.after c = ⟨p.line + 1, 1⟩ := if_pos hc
        rw [hafter]
        left
        rcases ih ⟨p.line + 1, 1⟩ with hline | hsame
        · exact Nat.lt_of_succ_lt hline
        · rw [hsame]
          exact Nat.lt_succ_self p.line
      · have hafter : p.after c = ⟨p.line, p.column + 1⟩ := if_neg hc
        rw [hafter]
        rcases ih ⟨p.line, p.column + 1⟩ with hline | hsame
        · exact .inl hline
        · right
          rw [hsame, List.length_cons, Nat.add_assoc, Nat.add_comm 1]

theorem afterAll_eq_self {p : Position} {text : List Char} (h : p.afterAll text = p) : text = [] := by
  rcases p.afterAll_cases text with hline | hsame
  · rw [h] at hline
    exact absurd hline (Nat.lt_irrefl _)
  · have hcolumn := congrArg column (h.symm.trans hsame)
    exact List.length_eq_zero_iff.mp (Nat.left_eq_add.mp hcolumn)

/-- There is one place in a text at a position. -/
theorem afterAll_inj {p : Position} {first second text : List Char} (hfirst : first <+: text)
    (hsecond : second <+: text) (h : p.afterAll first = p.afterAll second) : first = second := by
  rcases List.prefix_or_prefix_of_prefix hfirst hsecond with ⟨more, rfl⟩ | ⟨more, rfl⟩
  · rw [afterAll_append] at h
    rw [afterAll_eq_self h.symm, List.append_nil]
  · rw [afterAll_append] at h
    rw [afterAll_eq_self h, List.append_nil]

end Position

/-- The token is written at the position of the text. -/
def IsWritten (text token : List Char) (position : Position) : Prop :=
  ∃ before after, text = before ++ after ∧ position = Position.start.afterAll before ∧
    token <+: after

/-! ## Texts inside a text -/

/-- A text is inside itself, and so is what a command substitution in one of its words holds. -/
inductive Inside : List Char → List Char → Prop
  | whole (text : List Char) : Inside text text
  | substituted {text body inner : List Char} {lexeme : Lexeme} (hstands : lexeme.StandsIn text)
      (hkind : lexeme.kind = .word) (hbody : Word.Encloses lexeme.text.toList body)
      (hinner : Inside body inner) : Inside text inner

/-- The position is that of a lexeme with such a name, counted in a text inside the text. -/
def PointsAt (text : List Char) (token : String) (position : Position) : Prop :=
  ∃ source, Inside text source ∧ ∃ lexeme : Lexeme, lexeme.StandsIn source ∧
    lexeme.describe = token ∧ lexeme.position = position

namespace Grammar

/-- Lexemes of a text that are not expected are pointed at. -/
def Pointed (text : List Char) (failure : Failure) : Prop :=
  ∀ token, failure.error.cause = .unexpectedToken token →
    PointsAt text token failure.error.position

theorem blames_pointed (text : List Char) : Blames (fun lexeme => lexeme.StandsIn text) (Pointed text)
    where
  front := by
    rintro lexeme hstands token htoken
    exact ⟨text, .whole text, lexeme, hstands, ParseError.Cause.unexpectedToken.inj htoken, rfl⟩
  other := fun failure hother token htoken => absurd htoken (hother token)

/-- What is wrong with a word is that no token is unexpected, or what is wrong with a program in it. -/
theorem wordsFail_pointed {text : List Char} {room : Nat}
    (hprogram : ∀ body e, (Level.atRoom room).program body = .error e →
      ∀ token, e.cause = .unexpectedToken token → PointsAt body token e.position) :
    WordsFail (fun lexeme => lexeme.StandsIn text) (Pointed text) room := by
  intro lexeme e hstands hkind hparse token htoken
  rcases Word.parse_blames hparse with hother | ⟨body, hbody, hfails⟩
  · exact absurd htoken (hother token)
  · obtain ⟨source, hinside, hfound⟩ := hprogram body e hfails token htoken
    exact ⟨source, .substituted hstands hkind hbody hinside, hfound⟩

end Grammar

open Grammar

theorem refusedProgram_cause {text : List Char} {failure : Failure}
    (h : refusedProgram text = .error failure) (token : String) :
    failure.error.cause ≠ .unexpectedToken token := by
  unfold refusedProgram sized at h
  simp only at h
  split at h <;> (cases h; simp)

theorem programOf_pointed {room : Nat} {text : List Char} {failure : Failure}
    (h : programOf (Level.atRoom room).command text = .error failure) : Pointed text failure := by
  induction room using Nat.strongRecOn generalizing text failure with
  | ind room ih =>
      -- the programs in the words of a level are those of the level below
      have hwords : ∀ r ≤ room, WordsFail (fun lexeme => lexeme.StandsIn text) (Pointed text) r := by
        refine fun r hr => wordsFail_pointed fun body e hbody token htoken => ?_
        cases r with
        | zero =>
            obtain ⟨overflowed, hrefused⟩ := Failure.errorOf_eq_error hbody
            exact absurd htoken (refusedProgram_cause hrefused token)
        | succ r =>
            obtain ⟨overflowed, hfails⟩ := Failure.errorOf_eq_error hbody
            exact ih r hr hfails token htoken
      intro token htoken
      rcases programOf_eq_error h with hsize | ⟨e, hlexemes, rfl⟩ | ⟨stream, hstream, hread⟩
      · rw [hsize] at htoken
        cases htoken
      · have hincomplete := Lexemes.read_error hlexemes
        rw [ParseError.incomplete, show e.cause = _ from htoken] at hincomplete
        cases hincomplete
      · have hcommand := (yields_atRoom room).2 (blames_pointed text) hwords
        exact (yields_wholeProgram (blames_pointed text) hcommand).fails stream failure
          (Lexemes.ofText_stands hstream) hread token htoken

/-- Where a token is unexpected, there is a lexeme of that name at the position, in the source or
in a text that is substituted there. -/
theorem parse_unexpected {text token : String} {position : Position}
    (h : parse text = .error ⟨.unexpectedToken token, position⟩) :
    PointsAt text.toList token position := by
  rw [parse_eq] at h
  obtain ⟨overflowed, hfails⟩ := Failure.errorOf_eq_error h
  exact programOf_pointed hfails token rfl

/-- The error that a text fails with. -/
theorem parse_eq_error {text : String} {e : ParseError}
    (h : (fault? (parse text)).any (fun found => decide (found = e)) = true) :
    parse text = .error e := by
  obtain ⟨found, hfound, hsame⟩ := exists_error h
  rw [hfound, of_decide_eq_true hsame]

/-- Lines and columns are counted from 1. -/
theorem second_line_pointed :
    parse "echo a\nfi" = .error ⟨.unexpectedToken "fi", ⟨2, 1⟩⟩ ∧
      PointsAt "echo a\nfi".toList "fi" ⟨2, 1⟩ := by
  have hparse : parse "echo a\nfi" = .error ⟨.unexpectedToken "fi", ⟨2, 1⟩⟩ :=
    parse_eq_error (by decide +kernel)
  exact ⟨hparse, parse_unexpected hparse⟩

/-- The token of a substitution is not written where the error is reported, but seven columns on:
its position is counted from where the substituted text starts. -/
theorem substituted_misplaced :
    parse "echo $(fi)" = .error ⟨.unexpectedToken "fi", ⟨1, 1⟩⟩ ∧
      ¬IsWritten "echo $(fi)".toList "fi".toList ⟨1, 1⟩ ∧
        IsWritten "echo $(fi)".toList "fi".toList ⟨1, 8⟩ := by
  refine ⟨parse_eq_error (by decide +kernel), ?_, "echo $(".toList, "fi)".toList, by decide,
    by decide, by decide⟩
  rintro ⟨before, after, htext, hposition, hwritten⟩
  obtain rfl : [] = before := Position.afterAll_inj List.nil_prefix ⟨after, htext.symm⟩ hposition
  rw [List.nil_append] at htext
  subst htext
  exact absurd hwritten (by decide)

end Conch.Syntax
