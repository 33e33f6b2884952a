import Conch.Proofs.Appending
import Conch.Proofs.Substituting

/-!
# Dead ends

Input that is taken for incomplete can be beyond completion.  A text that starts with a
word that cannot be read is no program, however it goes on (`parse_unreadable`).  The word
that substitutes a text which ends inside an open construct cannot be read, and is taken
for incomplete as the text itself is (`Substitutes.dead_end`).
-/

namespace Conch.Syntax

/-- A word that names no construct, and that fails to be read. -/
structure Lexeme.Unreadable (lexeme : Lexeme) (room : Nat) (e : ParseError) : Prop where
  kind : lexeme.kind = .word
  name : Token.reserved? lexeme.text = none
  fails : Word.parse (Level.atRoom room).program lexeme.position lexeme.text.toList = .error e

namespace Grammar

variable {room : Nat} {lexeme : Lexeme} {rest : List Lexeme} {e : ParseError}

/-- A command does not get past a word that cannot be read. -/
theorem command_unreadable (h : lexeme.Unreadable room e)
    (hnext : (frontOf rest).all (fun s => s.kind != .op .leftParen) = true) (finish : Position) :
    (Level.atRoom room).command ⟨lexeme :: rest, finish⟩ = .error ⟨e, false⟩ := by
  obtain ⟨below, hcommand⟩ := atRoom_command room
  have hcompound : compound? (lexeme :: rest) = none := by
    simp [compound?, h.kind, Lexeme.reserved?, h.name, startsFunction_eq_false hnext]
  have hsimple : startsSimple lexeme = true := by
    simp [startsSimple, h.kind, Lexeme.reserved?, h.name]
  have hargument : argument (Level.atRoom room).program ⟨lexeme :: rest, finish⟩ =
      .error ⟨e, false⟩ := by
    rw [argument_run, h.kind]
    have hlift : lift (Word.parse (Level.atRoom room).program lexeme.position lexeme.text.toList)
        ⟨rest, finish⟩ = .error ⟨e, false⟩ := by
      rw [h.fails]
      rfl
    have hadvance : advance ⟨lexeme :: rest, finish⟩ = .ok ((), ⟨rest, finish⟩) := rfl
    exact (bind_ok hadvance).trans (bind_error (bind_error hlift))
  rw [hcommand, commandOn_run]
  simp only [hcompound, List.head?_cons, Option.any_some, hsimple, if_true]
  have hmany : many (argument (Level.atRoom room).program) ⟨lexeme :: rest, finish⟩ =
      .error ⟨e, false⟩ := by
    change collect (argument (Level.atRoom room).program) (lexeme :: rest) []
      ⟨lexeme :: rest, finish⟩ = _
    rw [collect]
    exact bind_error hargument
  exact bind_error hmany

theorem wholeProgram_unreadable (h : lexeme.Unreadable room e)
    (hnext : (frontOf rest).all (fun s => s.kind != .op .leftParen) = true) (finish : Position) :
    wholeProgram (Level.atRoom room).command ⟨lexeme :: rest, finish⟩ = .error ⟨e, false⟩ := by
  have hstarts : lexeme.symbol.starts = true := by
    simp [Symbol.starts, Symbol.token?, Lexeme.symbol, h.kind, h.name]
  exact bind_error (statementList_error (by simp) hstarts (command_unreadable h hnext finish))

end Grammar

/-! ## Texts that start with an unreadable word -/

section

variable {text : String} {first next : Lexeme} {rest : List Lexeme} {finish : Position}
  {e : ParseError} (hstream : Lexemes.ofText text.toList = .ok ⟨first :: next :: rest, finish⟩)
  (hfirst : first.Unreadable maxNesting e) (hnext : next.kind ≠ .op .leftParen)

include hstream hfirst hnext

/-- The error of the word is the error of the text. -/
theorem parse_unreadable (hsize : byteSize text.toList ≤ maxInputSize) :
    parse text = .error e := by
  have hfront : (frontOf (next :: rest)).all (fun s => s.kind != .op .leftParen) = true :=
    bne_iff_ne.mpr hnext
  rw [parse_eq, programOf_run hsize hstream, Grammar.wholeProgram_unreadable hfirst hfront]
  rfl

/-- Nothing that follows whole lines makes up for the word. -/
theorem parse_unreadable_append (hlines : WholeLines text.toList) (more : String) :
    ∃ f, parse (text ++ more) = .error f := by
  by_cases hsize : maxInputSize < byteSize (text ++ more).toList
  · exact parse_tooLarge hsize
  have hwhole := Nat.le_of_not_lt hsize
  have halike := Lexemes.ofText_append hstream hlines more.toList
  rw [← String.toList_append] at halike
  cases hmore : Lexemes.ofText more.toList with
  | error f =>
      obtain ⟨f', hf', _⟩ := halike.of_error hmore
      exact ⟨f', by rw [parse_eq, programOf_error hwhole hf']; rfl⟩
  | ok r =>
      obtain ⟨⟨_, last⟩, hread, items, rfl, _⟩ := halike.of_ok hmore
      exact ⟨e, parse_unreadable hread hfirst hnext hwhole⟩

end

/-! ## Substitutions -/

theorem Parser.parse_nested (text : String) :
    ((Parser.mk 1).parse text).1 = (Level.atRoom maxNesting).program text.toList := by
  have hroom : (Level.atRoom maxNesting).program text.toList =
    Failure.errorOf (programOf (Level.atRoom (maxNesting - 1)).command text.toList) := rfl
  have hdepth : ¬maxNesting < 1 := by decide
  rw [hroom, Parser.parse, if_neg hdepth]
  cases programOf (Level.atRoom (maxNesting - 1)).command text.toList <;> rfl

namespace Substitutes

variable {text : String} (h : Substitutes text)

include h

/-- A line of the substitution alone. -/
theorem lexemes_line : ∃ place finish, Lexemes.ofText (substituted text ++ "\n").toList =
    .ok ⟨[⟨.word, substituted text, .start⟩, ⟨.newline, "\n", place⟩], finish⟩ := by
  have hend : (['\n'] : List Char).head?.all isWordBoundary = true := rfl
  obtain ⟨place, hword⟩ := h.readWord hend .start
  rw [substituted_toList, List.cons_append] at hword
  have hlexeme : Cursor.lexeme '$' ('(' :: (text.toList ++ [')']) ++ ['\n']) .start =
      .ok (some ⟨.word, substituted text, .start⟩, ⟨['\n'], place⟩) := by
    rw [Cursor.lexeme, if_neg (by decide), if_neg (by decide),
      Cursor.operator?_of_not_boundary rfl]
    simp only [Cursor.descriptor?_of_not_digit (show '$'.isDigit = false from rfl), hword]
    rw [← substituted_toList, String.ofList_toList]
  have hnewline : Cursor.lexeme '\n' [] place =
      .ok (some ⟨.newline, "\n", place⟩, ⟨[], place.after '\n'⟩) := rfl
  refine ⟨place, place.after '\n', ?_⟩
  rw [Lexemes.ofText, String.toList_append, substituted_toList]
  refine (Lexemes.read_lexeme (Cursor.skipBlanks_of_ne (by decide) (by decide) (by simp) _)
    hlexeme []).trans ?_
  refine (Lexemes.read_lexeme (Cursor.skipBlanks_of_ne (by decide) (by decide) (by simp) _)
    hnewline _).trans ?_
  exact Lexemes.read_nil _ _

theorem unreadable {room : Nat} {e : ParseError}
    (hbody : (Level.atRoom room).program text.toList = .error e) (position : Position) :
    (Lexeme.mk .word (substituted text) position).Unreadable room e where
  kind := rfl
  name := by
    cases hname : Token.reserved? (substituted text) with
    | none => rfl
    | some token =>
        refine absurd ?_ token.dollar_not_mem
        rw [Token.reserved?_text hname, substituted_toList]
        exact List.mem_cons_self
  fails := by
    rw [Word.parse, substituted_toList, Word.fragments_dollar, h.expansion, Word.substitution,
      hbody]

variable {e : ParseError} (hbody : ((Parser.mk 1).parse text).1 = .error e)

include hbody

/-- A text that is no program makes a substitution that no program starts with. -/
theorem dead_end (more : String) (program : Program) :
    Attempt.ofText (substituted text ++ "\n" ++ more) ≠ .complete program := by
  rw [Parser.parse_nested] at hbody
  obtain ⟨place, finish, hstream⟩ := h.lexemes_line
  have hlines : WholeLines (substituted text ++ "\n").toList := by
    rw [String.toList_append]
    exact .newline _
  obtain ⟨f, hf⟩ := parse_unreadable_append hstream (h.unreadable hbody .start) (by simp) hlines more
  rw [Attempt.ofText, hf, Attempt.ofResult]
  split <;> simp

/-- The error of the substitution is the error of the text, its place included. -/
theorem parse_line (hsize : byteSize (substituted text ++ "\n").toList ≤ maxInputSize) :
    parse (substituted text ++ "\n") = .error e := by
  rw [Parser.parse_nested] at hbody
  obtain ⟨place, finish, hstream⟩ := h.lexemes_line
  exact parse_unreadable hstream (h.unreadable hbody .start) (by simp) hsize

/-- Where more is wanted for the text, more is wanted for its substitution. -/
theorem starved (he : e.incomplete = true)
    (hsize : byteSize (substituted text ++ "\n").toList ≤ maxInputSize) :
    Attempt.ofText (substituted text ++ "\n") = .incomplete := by
  rw [Attempt.ofText, h.parse_line hbody hsize, Attempt.ofResult, if_pos he]

end Substitutes

/-- A substitution that ends after the first word of a condition: more is wanted, and no more makes
it a program. -/
theorem Attempt.substitution_starved :
    (∃ stream, Lexemes.ofText "$(if\n)\n".toList = .ok stream) ∧ WholeLines "$(if\n)\n".toList ∧
      ofText "$(if\n)\n" = .incomplete ∧
        ∀ more program, ofText ("$(if\n)\n" ++ more) ≠ .complete program := by
  have h : Substitutes "if\n" := ⟨by decide +kernel, by decide +kernel, by decide +kernel⟩
  obtain ⟨e, hbody, he⟩ : ∃ e, ((Parser.mk 1).parse "if\n").1 = .error e ∧ e.incomplete = true :=
    exists_error (by decide +kernel)
  obtain ⟨place, finish, hstream⟩ := h.lexemes_line
  exact ⟨⟨_, hstream⟩, by decide, h.starved hbody he (by decide +kernel), h.dead_end hbody⟩

end Conch.Syntax
