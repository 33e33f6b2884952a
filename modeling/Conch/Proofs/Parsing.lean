import Conch.Proofs.Grammar.Programs
import Conch.Proofs.Words.Fragments
import Conch.Syntax.Parser

/-!
# Parsing a text

A text is a program where it is not too large, the lexer finds its lexemes and the
grammar reads all of them as that program.  The text of a word alone has fragments, and
unless one of them is a command substitution they spell it again (`parseWord_lossless`).
-/

namespace Conch.Syntax

theorem byteSize_cons (c : Char) (text : List Char) :
    byteSize (c :: text) = c.utf8Size + byteSize text := by
  have h : ∀ n, text.foldl (fun n c => n + c.utf8Size) n = n + byteSize text := by
    unfold byteSize
    induction text with
    | nil => simp
    | cons d rest ih =>
        intro n
        rw [List.foldl_cons, List.foldl_cons, ih, ih (0 + d.utf8Size), Nat.zero_add, Nat.add_assoc]
  rw [byteSize, List.foldl_cons, h, Nat.zero_add]

theorem byteSize_append (first second : List Char) :
    byteSize (first ++ second) = byteSize first + byteSize second := by
  induction first with
  | nil => exact (Nat.zero_add _).symm
  | cons c rest ih => rw [List.cons_append, byteSize_cons, byteSize_cons, ih, Nat.add_assoc]

theorem byteSize_replicate (count : Nat) (c : Char) :
    byteSize (List.replicate count c) = count * c.utf8Size := by
  induction count with
  | zero => exact (Nat.zero_mul _).symm
  | succ count ih =>
      rw [List.replicate_succ, byteSize_cons, ih, Nat.succ_mul, Nat.add_comm]

theorem sized_eq_ok {text : List Char} : sized text = .ok () ↔ byteSize text ≤ maxInputSize := by
  unfold sized
  simp only
  constructor
  · intro h
    split at h
    · cases h
    · omega
  · intro h
    rw [if_neg (Nat.not_lt.mpr h)]

theorem programOf_eq_ok {command : Grammar Node} {text : List Char} {program : Program} :
    programOf command text = .ok program ↔ byteSize text ≤ maxInputSize ∧
      ∃ stream rest, Lexemes.ofText text = .ok stream ∧
        wholeProgram command stream = .ok (program, rest) := by
  rw [← sized_eq_ok, programOf]
  cases hsized : sized text with
  | error failure => simp [bind, Except.bind]
  | ok _ =>
      cases hstream : Lexemes.ofText text with
      | error e => simp [bind, Except.bind]
      | ok stream =>
          cases hread : wholeProgram command stream with
          | error failure => simp [Grammar.run, hread, bind, Except.bind]
          | ok result =>
              obtain ⟨found, rest⟩ := result
              simp [Grammar.run, hread, bind, Except.bind, pure, Except.pure]

/-- A text that is no program is too large, has no lexemes, or is refused by the grammar. -/
theorem programOf_eq_error {command : Grammar Node} {text : List Char} {failure : Failure}
    (h : programOf command text = .error failure) :
    failure.error.cause = .tooLarge (byteSize text) ∨
      (∃ e, Lexemes.ofText text = .error e ∧ failure = ⟨e, false⟩) ∨
        ∃ stream, Lexemes.ofText text = .ok stream ∧
          wholeProgram command stream = .error failure := by
  by_cases hsize : byteSize text ≤ maxInputSize
  · rw [programOf, sized_eq_ok.mpr hsize] at h
    cases hstream : Lexemes.ofText text with
    | error e =>
        rw [hstream] at h
        exact .inr (.inl ⟨e, rfl, (Except.error.inj h).symm⟩)
    | ok stream =>
        refine .inr (.inr ⟨stream, rfl, ?_⟩)
        rw [hstream] at h
        cases hread : wholeProgram command stream with
        | error other =>
            simp only [Grammar.run, hread] at h
            exact congrArg _ (Except.error.inj h)
        | ok result =>
            simp only [Grammar.run, hread] at h
            cases h
  · rw [programOf, sized, if_pos (Nat.lt_of_not_le hsize)] at h
    exact .inl (Except.error.inj h ▸ rfl)

theorem Failure.errorOf_eq_error {α : Type} {result : Except Failure α} {e : ParseError}
    (h : Failure.errorOf result = .error e) : ∃ overflowed, result = .error ⟨e, overflowed⟩ := by
  cases result with
  | ok a => cases h
  | error failure =>
      cases h
      exact ⟨failure.overflowed, rfl⟩

theorem Failure.errorOf_eq_ok {α : Type} {result : Except Failure α} {a : α}
    (h : Failure.errorOf result = .ok a) : result = .ok a := by
  cases result with
  | ok b => exact congrArg _ (Except.ok.inj h)
  | error failure => cases h

theorem refusedProgram_ne_ok {text : List Char} {program : Program} :
    refusedProgram text ≠ .ok program := by
  unfold refusedProgram
  cases sized text <;> exact fun h => nomatch h

theorem parse_eq (text : String) :
    parse text = Failure.errorOf (programOf (Level.atRoom maxNesting).command text.toList) := by
  simp only [parse, Parser.parse, Parser.new, Nat.not_lt_zero, if_false, Nat.sub_zero]
  cases programOf (Level.atRoom maxNesting).command text.toList <;> rfl

theorem parse_eq_ok {text : String} {program : Program} :
    parse text = .ok program ↔
      programOf (Level.atRoom maxNesting).command text.toList = .ok program := by
  rw [parse_eq]
  cases programOf (Level.atRoom maxNesting).command text.toList <;> simp [Failure.errorOf]

/-! ## Results by evaluation -/

section

variable {α : Type} {result : Except ParseError α}

theorem exists_ok {check : α → Bool} (h : result.toOption.any check = true) :
    ∃ a, result = .ok a ∧ check a = true := by
  cases result with
  | error e => cases h
  | ok a => exact ⟨a, rfl, h⟩

/-- A text whose program passes a check. -/
theorem exists_parse (text : String) (check : Program → Bool)
    (h : (parse text).toOption.any check = true) :
    ∃ program, parse text = .ok program ∧ check program = true := exists_ok h

/-- What is wrong with a text. -/
def fault? : Except ParseError α → Option ParseError
  | .error e => some e
  | .ok _ => none

theorem exists_error {check : ParseError → Bool} (h : (fault? result).any check = true) :
    ∃ e, result = .error e ∧ check e = true := by
  cases result with
  | error e => exact ⟨e, rfl, h⟩
  | ok a => cases h

end

/-! ## Words -/

mutual

/-- A command substitution stands in the node, be it inside of double quotes. -/
def Node.substitutes : Node → Bool
  | .substitution _ => true
  | .word parts | .quoted parts => Node.anySubstitutes parts
  | _ => false

def Node.anySubstitutes : List Node → Bool
  | [] => false
  | node :: rest => node.substitutes || Node.anySubstitutes rest

end

theorem Node.anySubstitutes_eq (nodes : List Node) :
    anySubstitutes nodes = nodes.any substitutes := by
  induction nodes with
  | nil => rfl
  | cons node rest ih => rw [anySubstitutes, ih, List.any_cons]

theorem Node.substituted_eq_nil {node : Node} (h : node.substitutes = false) :
    node.substituted = [] := by
  cases node with
  | substitution body => cases h
  | _ => rfl

theorem Node.flatMap_eq_nil {nodes : List Node} {programs : Node → List Program}
    (hprograms : ∀ node : Node, node.substitutes = false → programs node = [])
    (h : anySubstitutes nodes = false) : nodes.flatMap programs = [] := by
  rw [anySubstitutes_eq, List.any_eq_false] at h
  refine List.flatMap_eq_nil_iff.mpr fun node hnode => hprograms node ?_
  simpa using h node hnode

theorem Node.programs_eq_nil {node : Node} (h : node.substitutes = false) : node.programs = [] := by
  cases node with
  | quoted parts => exact flatMap_eq_nil (fun _ => substituted_eq_nil) h
  | _ => exact substituted_eq_nil h

/-- A word without command substitutions is rendered to its text, character for character. -/
theorem parseWord_lossless {text : String} {position : Position} {depth : Nat} {parts : List Node}
    (h : parseWord text position depth = .ok parts)
    (hfree : (Node.word parts).substitutes = false) : (Node.word parts).render = text := by
  have hnone : parts.flatMap Node.programs = [] :=
    Node.flatMap_eq_nil (fun _ => Node.programs_eq_nil) hfree
  exact String.toList_inj.mp (Word.parse_render h hnone)

/-- Single and double quotes, expansions of both forms, arithmetic and a backslash in one word. -/
theorem parseWord_lossless_mixed : ∃ parts,
    parseWord "a'b'\"c$d\"$\x7bx\x7dy$((2*3))\\$" ⟨1, 1⟩ 0 = .ok parts ∧
      (Node.word parts).substitutes = false ∧
        (Node.word parts).render = "a'b'\"c$d\"$\x7bx\x7dy$((2*3))\\$" := by
  have hread : (parseWord "a'b'\"c$d\"$\x7bx\x7dy$((2*3))\\$" ⟨1, 1⟩ 0).toOption.any
      (fun parts => !(Node.word parts).substitutes) = true := by decide +kernel
  obtain ⟨parts, hparts, hcheck⟩ := exists_ok hread
  have hfree : (Node.word parts).substitutes = false := by simpa using hcheck
  exact ⟨parts, hparts, hfree, parseWord_lossless hparts hfree⟩

end Conch.Syntax
