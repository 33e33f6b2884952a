import Conch.Proofs.Grammar.Scanned
import Conch.Proofs.Tree.Exchange
import Conch.Proofs.Words.Origins

/-!
# Rendering and reading again

A program that was read, and that is legible, is read again from its rendering, as a program with
the same rendering (`parse_render_legible`).  A program is legible where nothing depends on
what the rendering leaves out: a dollar sign before a continued line, the blank behind `$(`
and the parenthesis before a pattern.  The lexer reads the words of such a program from their
renderings as it read them from the source, and the scan follows each program that a word
substitutes up to the parenthesis behind it (`Program.ReadsBack`).
-/

namespace Conch.Syntax

open Piece

/--
The word says in its rendering what it said in the source.  It does not end in a lone backslash,
and it does not end the choice that it opens an arm of.  Where it substitutes programs, the passes
over the word agree on its fragments, and the scan can follow each of the programs.
-/
structure Node.IsLegible (opensArm : Bool) (n : Node) : Prop where
  ends : Cursor.endsLone n.render.toList = false
  opening : opensArm = true → n.render ≠ "esac"
  regular : n.bodies ≠ [] → n.isRegular = true
  scanned : ∀ body ∈ n.bodies, Node.areScannable body = true

instance (opensArm : Bool) (n : Node) : Decidable (n.IsLegible opensArm) :=
  decidable_of_iff
    (Cursor.endsLone n.render.toList = false ∧ (opensArm = true → n.render ≠ "esac") ∧
      (n.bodies ≠ [] → n.isRegular = true) ∧ ∀ body ∈ n.bodies, Node.areScannable body = true)
    ⟨fun ⟨ends, opening, regular, scanned⟩ => ⟨ends, opening, regular, scanned⟩,
      fun h => ⟨h.ends, h.opening, h.regular, h.scanned⟩⟩

namespace Program

/-- Every word is legible, in the programs that words substitute as well. -/
inductive Legible : Program → Prop where
  | intro {program : Program}
    (words : ∀ opensArm n, word opensArm n ∈ layout program → n.IsLegible opensArm)
    (bodies : ∀ opensArm n body, word opensArm n ∈ layout program → body ∈ n.bodies →
      Legible body) : Legible program

/-- Checks that a program is legible, down to a depth of substitutions. -/
def legibleWithin : Nat → Program → Bool
  | 0, _ => false
  | depth + 1, program =>
      (layout program).all fun piece =>
        match piece with
        | word opensArm n => n.IsLegible opensArm && n.bodies.all (legibleWithin depth)
        | _ => true

theorem legible_of_within {depth : Nat} {program : Program}
    (h : legibleWithin depth program = true) : program.Legible := by
  induction depth generalizing program with
  | zero => cases h
  | succ depth ih =>
      have hpieces := List.all_eq_true.mp h
      have hword : ∀ opensArm n, word opensArm n ∈ layout program →
          n.IsLegible opensArm ∧ ∀ body ∈ n.bodies, legibleWithin depth body = true := by
        intro opensArm n hn
        obtain ⟨hlegible, hbodies⟩ := Bool.and_eq_true_iff.mp (hpieces _ hn)
        exact ⟨of_decide_eq_true hlegible, List.all_eq_true.mp hbodies⟩
      exact .intro (fun opensArm n hn => (hword opensArm n hn).1)
        (fun opensArm n body hn hbody => ih ((hword opensArm n hn).2 body hbody))

end Program

/-! ## Programs inside a rendering -/

theorem Node.substituted_isInfixOf {n : Node} {body : Program} (h : body ∈ n.substituted) :
    '$' :: '(' :: ((Program.render body).toList ++ [')']) <:+: n.render.toList := by
  cases n with
  | substitution program =>
      obtain rfl := List.mem_singleton.mp h
      simp [render, Program.render]
  | _ => cases h

theorem List.isInfixOf_flatMap {α β : Type} {f : α → List β} {a : α} {l : List α} (h : a ∈ l) :
    f a <:+: l.flatMap f := by
  obtain ⟨before, after, rfl⟩ := List.append_of_mem h
  exact ⟨before.flatMap f, after.flatMap f, by simp⟩

theorem Node.programs_isInfixOf {n : Node} {body : Program} (h : body ∈ n.programs) :
    '$' :: '(' :: ((Program.render body).toList ++ [')']) <:+: n.render.toList := by
  cases n with
  | quoted parts =>
      obtain ⟨part, hpart, hbody⟩ := List.mem_flatMap.mp h
      rw [render_quoted_toList]
      have hspelled : part.render.toList <:+: spelled parts :=
        List.isInfixOf_flatMap (f := fun n => n.render.toList) hpart
      refine (substituted_isInfixOf hbody).trans (hspelled.trans ?_)
      exact ⟨['"'], ['"'], rfl⟩
  | substitution program => exact substituted_isInfixOf h
  | _ => cases h

theorem Node.bodies_isInfixOf {n : Node} {body : Program} (h : body ∈ n.bodies) :
    '$' :: '(' :: ((Program.render body).toList ++ [')']) <:+: n.render.toList := by
  cases n with
  | word parts =>
      obtain ⟨part, hpart, hbody⟩ := List.mem_flatMap.mp h
      rw [render_word_toList]
      exact (programs_isInfixOf hbody).trans
        (List.isInfixOf_flatMap (f := fun n => n.render.toList) hpart)
  | _ => cases h

theorem byteSize_le_of_isInfixOf {inside text : List Char} (h : inside <:+: text) :
    byteSize inside ≤ byteSize text := by
  obtain ⟨before, after, rfl⟩ := h
  rw [byteSize_append, byteSize_append]
  omega

theorem Program.byteSize_body {program body : Program} {opensArm : Bool} {n : Node}
    (hword : word opensArm n ∈ Program.layout program) (hbody : body ∈ n.bodies) :
    byteSize (Program.render body).toList ≤ byteSize (Program.render program).toList := by
  have hpiece := List.isInfixOf_flatMap (f := fun piece : Piece => piece.text.toList) hword
  have hbodies := (Node.bodies_isInfixOf hbody).trans hpiece
  rw [Program.render_toList program]
  exact byteSize_le_of_isInfixOf (List.IsInfix.trans ⟨['$', '('], [')'], by simp⟩ hbodies)

theorem Node.nesting_programs {n : Node} {body : Program} (h : body ∈ n.programs) :
    Node.nestings body + 1 ≤ n.nesting := by
  have hsubstituted : ∀ {n : Node}, body ∈ n.substituted → Node.nestings body + 1 ≤ n.nesting := by
    intro n hn
    cases n with
    | substitution program =>
        obtain rfl := List.mem_singleton.mp hn
        exact Nat.le_refl _
    | _ => cases hn
  cases n with
  | quoted parts =>
      obtain ⟨part, hpart, hbody⟩ := List.mem_flatMap.mp h
      exact (hsubstituted hbody).trans (Node.nestings_le_iff.mp (Nat.le_refl _) part hpart)
  | substitution program => exact hsubstituted h
  | _ => cases h

theorem Node.nesting_bodies {n : Node} {body : Program} (h : body ∈ n.bodies) :
    Node.nestings body + 1 ≤ n.nesting := by
  cases n with
  | word parts =>
      obtain ⟨part, hpart, hbody⟩ := List.mem_flatMap.mp h
      exact (nesting_programs hbody).trans (Node.nestings_le_iff.mp (Nat.le_refl _) part hpart)
  | _ => cases h

theorem Level.atRoom_program {room : Nat} {text : List Char} {program : Program}
    (h : (Level.atRoom room).program text = .ok program) :
    ∃ below, programOf (Level.atRoom below).command text = .ok program := by
  cases room with
  | zero => exact absurd (Failure.errorOf_eq_ok h) refusedProgram_ne_ok
  | succ below => exact ⟨below, Failure.errorOf_eq_ok h⟩

/-! ## Words read again -/

/-- The lexeme was read where it stands in the text. -/
def Lexeme.ReadIn (text : List Char) (lexeme : Lexeme) : Prop :=
  lexeme.WasRead ∧ lexeme.StandsIn text

theorem Lexeme.StandsIn.written {lexeme : Lexeme} {text : List Char} (h : lexeme.StandsIn text)
    (hkind : lexeme.kind = .word) :
    ∃ slice rest, slice <:+: text ∧ Cursor.Written slice lexeme.text.toList rest := by
  obtain ⟨before, c, more, cursor, rfl, _, hlexeme⟩ := h
  obtain ⟨slice, hslice, _, _, hcovers⟩ := Cursor.lexeme_covers hlexeme
  rw [Lexeme.Covers, hkind] at hcovers
  exact ⟨slice, cursor.rest, ⟨before, cursor.rest, by simp [hslice]⟩, (hcovers _).mpr rfl⟩

theorem Regular.written {text more : List Char} (h : Regular false more.head? text)
    (hmore : endsWord more.head?) : Cursor.Written text text more := by
  have hend := (Cursor.Written.done hmore.boundary).readWord text.reverse
    (Position.start.afterAll text)
  have hread := h.readWord rfl [] .start
  rw [List.append_nil] at hread
  obtain ⟨slice, htext, _, hwritten⟩ := Cursor.readWord_iff_written.mp (hread.trans hend)
  obtain rfl := List.append_cancel_right htext
  simpa using hwritten

namespace Word.ReadFrom

variable {known : Lexeme → Prop} {n : Node}

theorem mono {known' : Lexeme → Prop} (h : ReadFrom known n)
    (hknown : ∀ lexeme, known lexeme → known' lexeme) : ReadFrom known' n := by
  obtain ⟨room, lexeme, parts, hlexeme, hword⟩ := h
  exact ⟨room, lexeme, parts, hknown lexeme hlexeme, hword⟩

theorem first (h : ReadFrom Lexeme.WasRead n) :
    ∃ c ∈ n.render.toList.head?, isWordBoundary c = false ∧ c ≠ '#' := by
  obtain ⟨room, lexeme, parts, hread, hkind, rfl, hparse⟩ := h
  rw [Word.head_render hparse]
  exact (hread.word hkind).1

theorem startsWord (h : ReadFrom Lexeme.WasRead n) (opensArm : Bool) : StartsWord opensArm n := by
  obtain ⟨c, hc, hboundary, _⟩ := h.first
  obtain ⟨rest, hrest⟩ := List.head?_eq_some_iff.mp hc
  exact ⟨c, rest, hrest, hboundary⟩

section

variable {text : List Char} (h : ReadFrom (Lexeme.ReadIn text) n) (hspares : Cursor.Spares text)

include h hspares

/-- The programs of the word were read from texts like the one that the word stands in. -/
theorem sources : ∀ body ∈ n.bodies, ∃ room source, Cursor.Spares source ∧
    programOf (Level.atRoom room).command source = .ok body := by
  intro body hbody
  obtain ⟨room, lexeme, parts, ⟨_, hstands⟩, hkind, rfl, hparse⟩ := h
  obtain ⟨slice, rest, hslice, hwritten⟩ := hstands.written hkind
  obtain ⟨source, hencloses, hsource⟩ := Word.parse_programs hparse body hbody
  obtain ⟨below, hbelow⟩ := Level.atRoom_program hsource
  have hvalue : Cursor.Spares lexeme.text.toList := hwritten.spares (hspares.of_isInfix hslice)
  exact ⟨below, source, hvalue.of_isInfix (.trans ⟨['$', '('], [')'], by simp⟩ hencloses), hbelow⟩

variable {opensArm : Bool} (hlegible : n.IsLegible opensArm)
  (hcloses : ∀ body ∈ n.bodies, Program.closes body = true)

include hlegible hcloses

/-- A legible word is written as itself in the rendering. -/
theorem written {more : List Char} (hmore : endsWord more.head?) :
    Cursor.Written n.render.toList n.render.toList more := by
  obtain ⟨room, lexeme, parts, ⟨_, hstands⟩, hkind, rfl, hparse⟩ := h
  obtain ⟨slice, rest, hslice, hwritten⟩ := hstands.written hkind
  have hspares := hspares.of_isInfix hslice
  by_cases hnone : (Node.word parts).bodies = []
  · rw [Word.parse_render hparse hnone]
    have hends := hlegible.ends
    rw [Word.parse_render hparse hnone] at hends
    exact hwritten.again hspares (fun hlone => absurd hlone (by simp [hends])) hmore
  · -- the source of the word is read before a blank, or before the end of the text
    obtain ⟨behind, hbehind, hlast⟩ : ∃ behind : List Char, endsWord behind.head? ∧
        (Cursor.endsLone lexeme.text.toList = true → behind = []) := by
      by_cases hlone : Cursor.endsLone lexeme.text.toList = true
      · exact ⟨[], by simp [endsWord], fun _ => rfl⟩
      · exact ⟨[' '], by simp [endsWord], fun h => absurd h hlone⟩
    have hreads : ReadsOn false lexeme.text.toList behind :=
      ⟨[], .start, _, (hwritten.again hspares hlast hbehind).readWord [] .start⟩
    obtain ⟨_, hregular⟩ := Word.parse_regular (Grammar.keepsOpening_atRoom room) hparse
      (hlegible.regular hnone) hreads
    refine (hregular hcloses hlegible.ends more.head? ?_ ?_).written hmore
    all_goals
      intro hopens
      rcases hmore _ hopens with h | h | h <;> cases h

theorem lexed {more : List Char} (hmore : endsWord more.head?) : (word opensArm n).Lexed more := by
  have hwritten := h.written hspares hlegible hcloses hmore
  exact lexed_word (h.mono fun _ hlexeme => hlexeme.1).first
    (fun position => ⟨_, by simpa using hwritten.readWord [] position⟩) hmore

end

end Word.ReadFrom

/-! ## Programs read again -/

/--
The second program has the rendering of the first and is read from it; and where the first is
scannable, the parenthesis behind its rendering is the one that ends it.
-/
structure Program.ReadsBack (program again : Program) : Prop where
  render : Program.render again = Program.render program
  parses : byteSize (Program.render program).toList ≤ maxInputSize →
    ∀ room, Node.nestings program ≤ room →
      programOf (Level.atRoom room).command (Program.render program).toList = .ok again
  closes : byteSize (Program.render program).toList ≤ maxInputSize →
    Node.areScannable program = true → (Program.render program).toList.head? ≠ some '(' →
      program.closes = true

section

variable {program : Program} {text : List Char} {g : Program → Program}
  (hwords : ForWords (fun _ => Word.ReadFrom (Lexeme.ReadIn text)) (Program.layout program))
  (hg : ∀ opensArm n body, word opensArm n ∈ Program.layout program → body ∈ n.bodies →
    body.ReadsBack (g body))

include hwords hg

theorem Program.keeps_reread :
    ForWords (fun _ => Node.Keeps (List.map (Node.reread g))) (Program.layout program) := by
  intro opensArm n hn
  obtain ⟨_, _, parts, _, _, rfl, _⟩ := hwords opensArm n hn
  have hrender : ∀ body ∈ (Node.word parts).bodies,
      Program.render (g body) = Program.render body :=
    fun body hbody => (hg opensArm _ body hn hbody).render
  exact ⟨Node.render_word_reread hrender, Node.isRegular_reread hrender⟩

variable (hfits : Node.AllFit program) (hspares : Cursor.Spares text)
  (hlegible : ForWords Node.IsLegible (Program.layout program))
  (hsize : byteSize (Program.render program).toList ≤ maxInputSize)

include hlegible hsize

omit hwords in
/-- The programs of the words end in the rendering where they are meant to. -/
theorem Program.closes_bodies {opensArm : Bool} {n : Node}
    (hn : word opensArm n ∈ Program.layout program) :
    ∀ body ∈ n.bodies, body.closes = true := by
  intro body hbody
  have hword := hlegible opensArm n hn
  have hregular := hword.regular (List.ne_nil_of_mem hbody)
  exact (hg opensArm n body hn hbody).closes ((Program.byteSize_body hn hbody).trans hsize)
    (hword.scanned body hbody) (Node.isRegular.single hregular hbody)

theorem Program.rereads_words : ForWords (Node.Rereads (List.map (Node.reread g)))
    (Program.layout program) := by
  intro opensArm n hn
  have hcloses := Program.closes_bodies hg hlegible hsize hn
  refine ⟨fun room hroom => ?_, (hlegible opensArm n hn).opening⟩
  obtain ⟨_, lexeme, parts, _, _, rfl, hparse⟩ := hwords opensArm n hn
  refine ⟨parts, rfl, Word.parse_again hparse fun body hbody => ⟨hcloses body hbody, ?_⟩⟩
  have hnesting := (Node.nesting_bodies hbody).trans hroom
  obtain ⟨below, rfl⟩ : ∃ below, room = below + 1 := ⟨room - 1, by omega⟩
  have hbodySize := (Program.byteSize_body hn hbody).trans hsize
  exact congrArg Failure.errorOf
    ((hg opensArm _ body hn hbody).parses hbodySize below (by omega))

include hfits hspares

/-- The lexer finds the symbols of the layout in the rendering. -/
theorem Program.lexemes_legible : ∃ stream,
    Lexemes.ofText (Program.render program).toList = .ok stream ∧
      stream.items.map Lexeme.symbol = symbols (Program.layout program) := by
  refine Program.lexemes hfits (fun opensArm n hn => ?_) ?_
  · exact ((hwords opensArm n hn).mono fun _ hlexeme => hlexeme.1).startsWord opensArm
  · intro before opensArm n after hlayout hends
    have hn : word opensArm n ∈ Program.layout program := by simp [hlayout]
    exact (hwords opensArm n hn).lexed hspares (hlegible opensArm n hn)
      (Program.closes_bodies hg hlegible hsize hn) hends

theorem Program.reads_legible {room : Nat} (hroom : Node.nestings program ≤ room) : ∃ stream,
    Lexemes.ofText (Program.render program).toList = .ok stream ∧
      stream.items.map Lexeme.symbol = symbols (Program.layout program) ∧
        wholeProgram (Level.atRoom room).command stream =
          .ok (program.map (Node.mapWords (List.map (Node.reread g))), ⟨[], stream.finish⟩) := by
  obtain ⟨stream, hstream, hsymbols⟩ :=
    Program.lexemes_legible hwords hg hfits hspares hlegible hsize
  exact ⟨stream, hstream, hsymbols, Grammar.reads_program hroom hfits
    (Program.rereads_words hwords hg hlegible hsize) hsymbols stream.finish⟩

/-- The scan goes over a scannable program as far as it was read, and ends it there. -/
theorem Program.closes_legible (hscannable : Node.areScannable program = true)
    (hsingle : (Program.render program).toList.head? ≠ some '(') : program.closes = true := by
  obtain ⟨stream, hstream, hsymbols, hread⟩ :=
    Program.reads_legible hwords hg hfits hspares hlegible hsize (Nat.le_refl _)
  have hagain := Program.areScannable_mapWords (Program.keeps_reread hwords hg) hscannable
  obtain ⟨hregular, finish, hsteps, hunmatched, hpattern⟩ :=
    wholeProgram_scanned hstream hread hagain
  have hwas : ForWords (fun _ => Word.ReadFrom Lexeme.WasRead) (Program.layout program) :=
    hwords.mono fun _ _ hn => hn.mono fun _ hlexeme => hlexeme.1
  -- the words are lexemes of the rendering, and so they are regular
  have hword : ∀ opensArm n, word opensArm n ∈ Program.layout program → n.IsRegularWord := by
    intro opensArm n hn
    obtain ⟨c, hc, _, hcomment⟩ := (hwas opensArm n hn).first
    refine ⟨?_, ?_, fun c hclosing => ?_⟩
    · intro hnil
      rw [hnil] at hc
      cases hc
    · rw [Option.mem_def.mp hc]
      exact fun heq => hcomment (Option.some.inj heq)
    · have hmore : endsWord [c].head? := by
        rintro _ ⟨⟩
        exact hclosing
      have hwritten := (hwords opensArm n hn).written hspares (hlegible opensArm n hn)
        (Program.closes_bodies hg hlegible hsize hn) hmore
      have hsymbol : (⟨.word, n.render⟩ : Symbol) ∈ stream.items.map Lexeme.symbol := by
        rw [hsymbols]
        exact List.mem_filterMap.mpr ⟨_, hn, rfl⟩
      obtain ⟨lexeme, hlexeme, hsame⟩ := List.mem_map.mp hsymbol
      obtain ⟨hkind, htext⟩ := Symbol.mk.inj hsame
      have hfound := hregular lexeme hlexeme hkind [c] (by simp)
      rw [htext] at hfound
      exact hfound ⟨[], .start, _, hwritten.readWord [] .start⟩
  have hlaid := Piece.laid (Program.spaced hfits fun opensArm n hn =>
    (hwas opensArm n hn).startsWord opensArm) hword
  rw [← Program.render_toList] at hlaid
  rw [hsymbols] at hsteps
  have hsplit := hlaid.split hsteps hunmatched hpattern
  unfold Program.closes
  split
  · rename_i htext
    rw [htext] at hsingle
    exact absurd rfl hsingle
  · exact beq_iff_eq.mpr hsplit

end

theorem Program.Legible.readsBack {program : Program} (h : program.Legible) {room : Nat}
    {text : List Char} (hparse : programOf (Level.atRoom room).command text = .ok program)
    (hspares : Cursor.Spares text) : ∃ again, program.ReadsBack again := by
  induction h generalizing room text with
  | @intro program words bodies ih =>
      obtain ⟨_, stream, rest, hstream, hread⟩ := programOf_eq_ok.mp hparse
      have hlexemes : Lexemes.All (Lexeme.ReadIn text) stream := fun lexeme hlexeme =>
        ⟨Lexemes.ofText_wasRead hstream lexeme hlexeme,
          Lexemes.ofText_stands hstream lexeme hlexeme⟩
      obtain ⟨hfits, hwords⟩ := Program.built hlexemes hread
      have hbodies : ∀ opensArm n body, word opensArm n ∈ Program.layout program →
          body ∈ n.bodies → ∃ again, Program.ReadsBack body again := by
        intro opensArm n body hn hbody
        obtain ⟨below, source, hsource, hbelow⟩ := (hwords opensArm n hn).sources hspares body hbody
        exact ih opensArm n body hn hbody hbelow hsource
      obtain ⟨g, hg⟩ : ∃ g : Program → Program, ∀ body, (∃ again, Program.ReadsBack body again) →
          Program.ReadsBack body (g body) := by
        refine Classical.axiomOfChoice (r := fun body again =>
          (∃ again, Program.ReadsBack body again) → Program.ReadsBack body again) fun body => ?_
        by_cases hbody : ∃ again, Program.ReadsBack body again
        · obtain ⟨again, hagain⟩ := hbody
          exact ⟨again, fun _ => hagain⟩
        · exact ⟨body, fun h => absurd h hbody⟩
      have hg : ∀ opensArm n body, word opensArm n ∈ Program.layout program →
          body ∈ n.bodies → body.ReadsBack (g body) :=
        fun opensArm n body hn hbody => hg body (hbodies opensArm n body hn hbody)
      refine ⟨program.map (Node.mapWords (List.map (Node.reread g))), ?_, fun hsize room hroom => ?_,
        Program.closes_legible hwords hg hfits hspares words⟩
      · exact Program.render_mapWords fun opensArm n hn =>
          (Program.keeps_reread hwords hg opensArm n hn).1
      · obtain ⟨again, hagain, _, hread⟩ :=
          Program.reads_legible hwords hg hfits hspares words hsize hroom
        exact programOf_eq_ok.mpr ⟨hsize, again, _, hagain, hread⟩

/--
Rendering is re-parseable and canonical: a legible program that was read from a text without
continued lines behind a dollar sign is read from its rendering as a program with that rendering,
if that is within the limits of the parser.
-/
theorem parse_render_legible {text : String} {program : Program} (hparse : parse text = .ok program)
    (hspares : Cursor.Spares text.toList) (hlegible : program.Legible)
    (hnesting : Node.nestings program ≤ maxNesting)
    (hsize : byteSize (Program.render program).toList ≤ maxInputSize) :
    ∃ again, parse (Program.render program) = .ok again ∧
      Program.render again = Program.render program := by
  obtain ⟨again, hagain⟩ := hlegible.readsBack (parse_eq_ok.mp hparse) hspares
  exact ⟨again, parse_eq_ok.mpr (hagain.parses hsize maxNesting hnesting), hagain.render⟩

/-- Grouped conditions, patterns in parentheses, nested substitutions, defaults and arithmetic. -/
theorem Program.nested_read_back :
    ∃ program, parse
        "if a; b\nthen case x in (p|'q r') echo \"$(e $\x7by:-'p'\x7d $(d))\" $((1+2));; esac; fi" =
          .ok program ∧
      program.Legible ∧ Node.nestings program ≤ maxNesting ∧
      byteSize (Program.render program).toList ≤ maxInputSize ∧
      ∃ again, parse (Program.render program) = .ok again ∧
        Program.render again = Program.render program := by
  obtain ⟨program, hparse, hchecked⟩ := exists_parse
    "if a; b\nthen case x in (p|'q r') echo \"$(e $\x7by:-'p'\x7d $(d))\" $((1+2));; esac; fi"
    (fun program => legibleWithin 3 program && decide (Node.nestings program ≤ maxNesting) &&
      decide (byteSize (Program.render program).toList ≤ maxInputSize))
    (by decide +kernel)
  simp only [Bool.and_eq_true, decide_eq_true_eq] at hchecked
  obtain ⟨⟨hwithin, hnesting⟩, hsize⟩ := hchecked
  have hlegible := legible_of_within hwithin
  exact ⟨program, hparse, hlegible, hnesting, hsize,
    parse_render_legible hparse (by decide +kernel) hlegible hnesting hsize⟩

/-! ## Programs lost in their renderings -/

/-- The program in the text is not read again from its rendering, which is not too large. -/
def Program.Lost (text : String) : Prop :=
  ∃ program, parse text = .ok program ∧
    byteSize (Program.render program).toList ≤ maxInputSize ∧
    ¬ ∃ again, parse (Program.render program) = .ok again ∧
      Program.render again = Program.render program

theorem Program.lost_of_shown {text : String} (shown : String)
    (hshown : (parse text).toOption.any (fun program => Program.render program == shown) = true)
    (hsize : byteSize shown.toList ≤ maxInputSize)
    (hlost : (parse shown).toOption.all (fun again => Program.render again != shown) = true) :
    Program.Lost text := by
  obtain ⟨program, hparse, hrender⟩ := exists_parse text _ hshown
  have hrender := eq_of_beq hrender
  refine ⟨program, hparse, by rwa [hrender], ?_⟩
  rintro ⟨again, hagain, hsame⟩
  rw [hrender] at hagain hsame
  rw [hagain] at hlost
  simp [Except.toOption, hsame] at hlost

/-- The text within so many parentheses. -/
def enclosed (count : Nat) (text : String) : String :=
  String.ofList (List.replicate count '(' ++ (text.toList ++ List.replicate count ')'))

/-- Opening parentheses from a column of the first line on. -/
def Lexeme.openings (column : Nat) : Nat → List Lexeme
  | 0 => []
  | count + 1 => ⟨.op .leftParen, "(", ⟨1, column⟩⟩ :: openings (column + 1) count

theorem Lexemes.read_openings (count column : Nat) (found : List Lexeme) (rest : List Char) :
    Lexemes.read found (List.replicate count '(' ++ rest) ⟨1, column⟩ =
      Lexemes.read ((Lexeme.openings column count).reverse ++ found) rest ⟨1, column + count⟩ := by
  induction count generalizing column found with
  | zero => rfl
  | succ count ih =>
      have hskip : Cursor.skipBlanks ('(' :: (List.replicate count '(' ++ rest)) ⟨1, column⟩ = _ :=
        Cursor.skipBlanks_of_ne (by decide) (by decide) (fun h => absurd h (by decide)) _
      have hlexeme : Cursor.lexeme '(' (List.replicate count '(' ++ rest) ⟨1, column⟩ =
          .ok (some ⟨.op .leftParen, "(", ⟨1, column⟩⟩,
            ⟨List.replicate count '(' ++ rest, ⟨1, column + 1⟩⟩) := rfl
      rw [List.replicate_succ, List.cons_append, read_lexeme hskip hlexeme, ih, Lexeme.openings,
        List.reverse_cons, List.append_assoc, Nat.add_right_comm, Nat.add_assoc column count 1]
      rfl

/-- What a whole program is read as from an enclosed text, with the parentheses before the text
read already. -/
def readEnclosed (count : Nat) (text : String) : Option Program :=
  match Lexemes.read (Lexeme.openings 1 count).reverse (text.toList ++ List.replicate count ')')
      ⟨1, 1 + count⟩ with
  | .error _ => none
  | .ok stream => ((wholeProgram (Level.atRoom maxNesting).command).run stream).toOption.map Prod.fst

theorem parse_enclosed {count : Nat} {text : String}
    (hsize : byteSize (enclosed count text).toList ≤ maxInputSize) :
    (parse (enclosed count text)).toOption = readEnclosed count text := by
  have hlexemes : Lexemes.ofText (enclosed count text).toList =
      Lexemes.read (Lexeme.openings 1 count).reverse (text.toList ++ List.replicate count ')')
        ⟨1, 1 + count⟩ := by
    have hread := Lexemes.read_openings count 1 [] (text.toList ++ List.replicate count ')')
    rw [List.append_nil] at hread
    rw [enclosed, String.toList_ofList]
    exact hread
  rw [parse_eq, programOf, sized_eq_ok.mpr hsize, hlexemes, readEnclosed]
  cases Lexemes.read (Lexeme.openings 1 count).reverse (text.toList ++ List.replicate count ')')
      ⟨1, 1 + count⟩ with
  | error e => rfl
  | ok stream =>
      cases hrun : (wholeProgram (Level.atRoom maxNesting).command).run stream with
      | error failure => simp [hrun, bind, Except.bind, Failure.errorOf, Except.toOption]
      | ok result => simp [hrun, bind, Except.bind, pure, Except.pure, Failure.errorOf,
          Except.toOption]

theorem byteSize_enclosed (count : Nat) (text : String) :
    byteSize (enclosed count text).toList = count + byteSize text.toList + count := by
  have hopening : Char.utf8Size '(' = 1 := rfl
  have hclosing : Char.utf8Size ')' = 1 := rfl
  simp only [enclosed, String.toList_ofList, byteSize_append, byteSize_replicate, hopening, hclosing]
  omega

/-- A condition of several statements is rendered as a group, which takes one level more. -/
theorem Program.lost_level : Program.Lost (enclosed 199 "if a; b; then c; fi") := by
  have hsize : byteSize (enclosed 199 "if a; b; then c; fi").toList ≤ maxInputSize := by
    rw [byteSize_enclosed]
    decide
  have hshown : byteSize (enclosed 199 "if \x7b a; b; \x7d; then c; fi").toList ≤ maxInputSize := by
    rw [byteSize_enclosed]
    decide
  refine lost_of_shown (enclosed 199 "if \x7b a; b; \x7d; then c; fi") ?_ hshown ?_
  · rw [parse_enclosed hsize]
    decide +kernel
  · rw [parse_enclosed hshown]
    decide +kernel

/-- Programs lost in their renderings: a pattern and a subshell without what stood before them, a
continued line in a word and behind a dollar sign, a comment, and a word taken for the end of a
choice. -/
theorem reread_lost :
    Program.Lost "case x in (esac) a;; esac" ∧
      Program.Lost "echo $( (case x in a) b;; esac) )" ∧
      Program.Lost "echo $(>ca\\\nse in a)" ∧
      Program.Lost "echo $((a) #)\n)" ∧
      Program.Lost "echo $\\\n\x7ba$(b \x7d)" ∧
      Program.Lost "echo $(case x in a) echo if esac;; (b) c;; esac)" := by
  refine ⟨?_, ?_, ?_, ?_, ?_, ?_⟩
  · exact Program.lost_of_shown "case x in esac) a; esac" (by decide +kernel)
      (by decide +kernel) (by decide +kernel)
  · exact Program.lost_of_shown "echo $((case x in a) b; esac))" (by decide +kernel)
      (by decide +kernel) (by decide +kernel)
  · exact Program.lost_of_shown "echo $(>case in a)" (by decide +kernel)
      (by decide +kernel) (by decide +kernel)
  · exact Program.lost_of_shown "echo $((a))\n)" (by decide +kernel)
      (by decide +kernel) (by decide +kernel)
  · exact Program.lost_of_shown "echo $\x7ba$(b \x7d)" (by decide +kernel)
      (by decide +kernel) (by decide +kernel)
  · exact Program.lost_of_shown "echo $(case x in a) echo if esac;; b) c; esac)" (by decide +kernel)
      (by decide +kernel) (by decide +kernel)

end Conch.Syntax
