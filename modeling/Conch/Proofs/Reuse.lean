import Conch.Proofs.Appending
import Conch.Proofs.Canonical

/-!
# Parsers kept for several texts

A parser that reads one text after the other keeps nothing of them but its depth, and a
text leaves that as it was unless the parser itself is asked to nest too deep: then the
refused level stays counted, and the parser refuses some text that a new one reads.  So a
parser can be used again after any texts but those (`parseAll_fresh_iff`).
-/

namespace Conch.Syntax

/-! ## Nested subshells -/

theorem render_buried_succ (depth : Nat) :
    (Program.render [Node.buried (depth + 1)]).toList =
      '(' :: ((Program.render [Node.buried depth]).toList ++ [')']) := by
  simp [Program.render, Node.buried, Node.renderList, Node.renderMore, Node.render]

theorem byteSize_buried (depth : Nat) :
    byteSize (Program.render [Node.buried depth]).toList = 2 * depth + 1 := by
  induction depth with
  | zero => rfl
  | succ depth ih =>
      have hleft : Char.utf8Size '(' = 1 := by decide
      have hright : Char.utf8Size ')' = 1 := by decide
      rw [render_buried_succ, byteSize_cons, byteSize_append, byteSize_cons, ih, hleft, hright]
      change 1 + (2 * depth + 1 + (1 + 0)) = 2 * (depth + 1) + 1
      omega

theorem nestings_buried (depth : Nat) : Node.nestings [Node.buried depth] = depth := by
  induction depth with
  | zero => rfl
  | succ depth ih => simp_all [Node.buried, Node.nestings, Node.nesting]

/-- Subshells nested as deep as a source may nest. -/
def Program.atLimit : Program := [Node.buried maxNesting]

theorem parse_atLimit : parse (Program.render Program.atLimit) = .ok Program.atLimit :=
  parse_render_canonical (Node.buried_canonical maxNesting)
    (Nat.le_of_eq (nestings_buried maxNesting))
    (by rw [Program.atLimit, byteSize_buried]; decide)

namespace Parser

/-- What the texts given to a parser one after the other amount to, and the parser afterwards. -/
def parseAll : Parser → List String → List (Except ParseError Program) × Parser
  | parser, [] => ([], parser)
  | parser, text :: texts =>
      let (result, next) := parser.parse text
      let (results, last) := next.parseAll texts
      (result :: results, last)

/-- What reading a text comes to, with the cause of a failure. -/
def outcome (parser : Parser) (text : String) : Except Failure Program :=
  if maxNesting < parser.depth then refusedProgram text.toList
  else programOf (Level.atRoom (maxNesting - parser.depth)).command text.toList

/-- The parser itself, not one for a substitution, is asked to nest deeper than it may. -/
def Overflows (parser : Parser) (text : String) : Prop :=
  ∃ e, parser.outcome text = .error ⟨e, true⟩

variable {parser : Parser} {text : String} {texts : List String}

/-! ## One text -/

theorem parse_of_ok {program : Program} (h : parser.outcome text = .ok program) :
    parser.parse text = (.ok program, parser) := by
  unfold outcome at h
  simp only [parse, h]

theorem parse_of_error {failure : Failure} (h : parser.outcome text = .error failure) :
    parser.parse text =
      (.error failure.error, if failure.overflowed then ⟨parser.depth + 1⟩ else parser) := by
  unfold outcome at h
  simp only [parse, h]

theorem parse_fst (parser : Parser) (text : String) :
    (parser.parse text).1 = Failure.errorOf (parser.outcome text) := by
  cases h : parser.outcome text with
  | ok program => rw [parse_of_ok h]; rfl
  | error failure => rw [parse_of_error h]; rfl

theorem parse_kept (h : ¬parser.Overflows text) : (parser.parse text).2 = parser := by
  cases houtcome : parser.outcome text with
  | ok program => rw [parse_of_ok houtcome]
  | error failure =>
      obtain ⟨e, overflowed⟩ := failure
      cases overflowed with
      | false => rw [parse_of_error houtcome]; rfl
      | true => exact absurd ⟨e, houtcome⟩ h

theorem parse_overflowed (h : parser.Overflows text) :
    (parser.parse text).2 = ⟨parser.depth + 1⟩ := by
  obtain ⟨e, houtcome⟩ := h
  rw [parse_of_error houtcome]
  rfl

theorem depth_le_parse (parser : Parser) (text : String) :
    parser.depth ≤ (parser.parse text).2.depth := by
  by_cases h : parser.Overflows text
  · rw [parse_overflowed h]
    exact Nat.le_succ parser.depth
  · exact Nat.le_of_eq (congrArg depth (parse_kept h)).symm

/-- With a level lost there is no room for what a new parser just reads. -/
theorem parse_atLimit_fails (h : 0 < parser.depth) (program : Program) :
    (parser.parse (Program.render Program.atLimit)).1 ≠ .ok program := by
  rw [parse_fst]
  intro hparse
  have houtcome := Failure.errorOf_eq_ok hparse
  unfold outcome at houtcome
  split at houtcome
  · exact refusedProgram_ne_ok houtcome
  · exact programOf_buried (by omega) program houtcome

/-! ## One text after the other -/

theorem parseAll_cons (parser : Parser) (text : String) (texts : List String) :
    parser.parseAll (text :: texts) =
      ((parser.parse text).1 :: ((parser.parse text).2.parseAll texts).1,
        ((parser.parse text).2.parseAll texts).2) := rfl

theorem parseAll_append (parser : Parser) (first second : List String) :
    parser.parseAll (first ++ second) =
      ((parser.parseAll first).1 ++ ((parser.parseAll first).2.parseAll second).1,
        ((parser.parseAll first).2.parseAll second).2) := by
  induction first generalizing parser with
  | nil => rfl
  | cons text first ih => simp only [List.cons_append, parseAll_cons, ih]

theorem depth_le_parseAll (parser : Parser) (texts : List String) :
    parser.depth ≤ (parser.parseAll texts).2.depth := by
  induction texts generalizing parser with
  | nil => exact Nat.le_refl parser.depth
  | cons text texts ih => exact Nat.le_trans (parser.depth_le_parse text) (ih (parser.parse text).2)

/-- As long as it is not asked to nest too deep, a parser stays as good as new. -/
theorem parseAll_kept (h : ∀ text ∈ texts, ¬Parser.new.Overflows text) :
    Parser.new.parseAll texts = (texts.map Syntax.parse, new) := by
  induction texts with
  | nil => rfl
  | cons text texts ih =>
      obtain ⟨hfirst, hrest⟩ := List.forall_mem_cons.mp h
      rw [parseAll_cons, parse_kept hfirst, ih hrest]
      rfl

theorem depth_pos_of_overflows (h : ∃ text ∈ texts, Parser.new.Overflows text) :
    0 < (Parser.new.parseAll texts).2.depth := by
  induction texts with
  | nil => simp at h
  | cons text texts ih =>
      rw [parseAll_cons]
      by_cases hfirst : Parser.new.Overflows text
      · rw [parse_overflowed hfirst]
        exact Nat.lt_of_lt_of_le Nat.one_pos (depth_le_parseAll ⟨0 + 1⟩ texts)
      · rw [parse_kept hfirst]
        obtain ⟨other, hmem, hother⟩ := h
        refine ih ⟨other, (List.mem_cons.mp hmem).resolve_left ?_, hother⟩
        rintro rfl
        exact hfirst hother

/-- What a text read last gives, where all of them are read as by a new parser. -/
theorem parse_last {next : String}
    (h : (Parser.new.parseAll (texts ++ [next])).1 = (texts ++ [next]).map Syntax.parse) :
    ((Parser.new.parseAll texts).2.parse next).1 = Syntax.parse next := by
  rw [parseAll_append, List.map_append] at h
  exact (List.cons.inj (List.append_inj_right' h rfl)).1

/-- Whatever is read next, every text is read as by a new parser exactly when no text before it
nested too deep. -/
theorem parseAll_fresh_iff (texts : List String) :
    (∀ next, (Parser.new.parseAll (texts ++ [next])).1 = (texts ++ [next]).map Syntax.parse) ↔
      ∀ text ∈ texts, ¬Parser.new.Overflows text := by
  constructor
  · intro hfresh text hmem hoverflows
    have hdepth := depth_pos_of_overflows ⟨text, hmem, hoverflows⟩
    have hlast := parse_last (hfresh (Program.render Program.atLimit))
    exact parse_atLimit_fails hdepth _ (hlast.trans parse_atLimit)
  · intro hkept next
    rw [parseAll_append, parseAll_kept hkept, List.map_append]
    rfl

theorem overflows_buried {depth : Nat} (hdepth : maxNesting < depth)
    (hsize : byteSize (Program.render [Node.buried depth]).toList ≤ maxInputSize) :
    Parser.new.Overflows (Program.render [Node.buried depth]) := by
  obtain ⟨stream, hstream, _⟩ := (Node.buried_canonical depth).lexemes
  obtain ⟨e, he⟩ := wholeProgram_buried hdepth hstream
  have hrun : programOf (Level.atRoom maxNesting).command _ = _ := programOf_run hsize hstream
  rw [he] at hrun
  exact ⟨e, hrun⟩

/-- After one subshell too many, the subshells that a new parser still reads are refused. -/
theorem refused_level_counts :
    Syntax.parse (Program.render [Node.buried 200]) = .ok [Node.buried 200] ∧
      (Parser.new.parseAll [Program.render [Node.buried 201], Program.render [Node.buried 200]]).1 ≠
        [Program.render [Node.buried 201], Program.render [Node.buried 200]].map Syntax.parse := by
  have hoverflows : Parser.new.Overflows (Program.render [Node.buried 201]) :=
    overflows_buried (by decide) (by rw [byteSize_buried]; decide)
  refine ⟨parse_atLimit, fun hsame => ?_⟩
  have hdepth := depth_pos_of_overflows ⟨_, List.mem_singleton_self _, hoverflows⟩
  have hsplit : (Parser.new.parseAll ([Program.render [Node.buried 201]] ++
      [Program.render [Node.buried 200]])).1 = ([Program.render [Node.buried 201]] ++
        [Program.render [Node.buried 200]]).map Syntax.parse := hsame
  have hlast := parse_last hsplit
  exact parse_atLimit_fails hdepth _ (hlast.trans parse_atLimit)

end Parser

end Conch.Syntax
