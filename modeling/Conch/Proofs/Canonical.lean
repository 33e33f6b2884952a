import Conch.Proofs.Lexing.Layouts
import Conch.Proofs.Parsing

/-!
# Canonical trees

A tree is canonical when the grammar can build its shape and every word in it is one
literal of letters and digits.  Parsing undoes rendering on such trees as far as the
limits on nesting and size allow (`parse_render_canonical`).
-/

namespace Conch.Syntax

/-- A word of one literal of ASCII letters and digits. -/
def Node.IsSimpleWord : Node → Prop
  | .word [.literal text] => text.toList ≠ [] ∧ ∀ c ∈ text.toList, c.isAlphanum = true
  | _ => False

theorem Node.isSimpleWord_plain {text : String} (hne : text.toList ≠ [])
    (htext : text.toList.all Char.isAlphanum = true) : (Node.plain text).IsSimpleWord :=
  ⟨hne, List.all_eq_true.mp htext⟩

/-- The grammar can build the tree, its words are simple, and no choice ends at the first pattern
of an arm. -/
def Program.Canonical (program : Program) : Prop :=
  Node.AllFit program ∧
    Piece.ForWords (fun opensArm n => n.IsSimpleWord ∧ (opensArm = true → n.render ≠ "esac"))
      program.layout

theorem Node.IsSimpleWord.exists_text {n : Node} (h : n.IsSimpleWord) :
    ∃ text : String, n = .word [.literal text] ∧ n.render = text ∧ text.toList ≠ [] ∧
      ∀ c ∈ text.toList, isNameChar c = true := by
  match n, h with
  | .word [.literal text], ⟨hne, htext⟩ =>
      refine ⟨text, rfl, rfl, hne, fun c hc => ?_⟩
      simp [isNameChar, htext c hc]

theorem Node.IsSimpleWord.startsWord {n : Node} (h : n.IsSimpleWord) (opensArm : Bool) :
    Piece.StartsWord opensArm n := by
  obtain ⟨text, rfl, hrender, hne, htext⟩ := h.exists_text
  obtain ⟨c, rest, hchars⟩ := List.exists_cons_of_ne_nil hne
  refine ⟨c, rest, by rw [hrender, hchars], ?_⟩
  exact isWordBoundary_of_isPlain (isPlain_of_isNameChar (htext c (by simp [hchars])))

theorem Node.IsSimpleWord.rereads {n : Node} {opensArm : Bool} (h : n.IsSimpleWord)
    (hopens : opensArm = true → n.render ≠ "esac") : Node.Rereads id opensArm n := by
  refine ⟨fun room _ => ?_, hopens⟩
  obtain ⟨text, rfl, hrender, hne, htext⟩ := h.exists_text
  refine ⟨[.literal text], rfl, fun position => ?_⟩
  rw [hrender]
  exact Word.parse_plain _ position hne (fun c hc => isPlain_of_isNameChar (htext c hc))

theorem Node.IsSimpleWord.lexed {n : Node} {opensArm : Bool} (h : n.IsSimpleWord)
    {rest : List Char} (hrest : Piece.endsWord rest.head?) :
    (Piece.word opensArm n).Lexed rest := by
  obtain ⟨text, rfl, hrender, hne, htext⟩ := h.exists_text
  have hplain : ∀ c ∈ text.toList, isPlain c = true := fun c hc =>
    isPlain_of_isNameChar (htext c hc)
  refine Piece.lexed_plain text (by simp [Piece.symbol?, hrender]) hrender hne hplain ?_
    hrest.boundary ?_
  · intro hcomment
    exact absurd (htext '#' (List.mem_of_head? hcomment)) (by decide)
  · refine Cursor.descriptor?_eq_none (fun c hc => ?_) (fun c hc => ?_)
    · have hc := isWordBoundary_of_isPlain (hplain c hc)
      constructor <;> (rintro rfl; exact absurd hc (by decide))
    · rcases hrest c hc with rfl | rfl | rfl <;> decide

/-! ## Reading a tree back -/

/-- The word is read as itself before everything that may follow a word. -/
structure Node.IsKept (opensArm : Bool) (n : Node) : Prop where
  starts : Piece.StartsWord opensArm n
  rereads : Node.Rereads id opensArm n
  lexed : ∀ more, Piece.endsWord more.head? → (Piece.word opensArm n).Lexed more

theorem Node.IsSimpleWord.isKept {n : Node} {opensArm : Bool} (h : n.IsSimpleWord)
    (hopens : opensArm = true → n.render ≠ "esac") : Node.IsKept opensArm n :=
  ⟨h.startsWord opensArm, h.rereads hopens, fun _ hmore => h.lexed hmore⟩

section

variable {program : Program} (hfits : Node.AllFit program)
  (hwords : Piece.ForWords Node.IsKept program.layout)

include hfits hwords

theorem Program.kept_lexemes :
    ∃ stream, Lexemes.ofText (Program.render program).toList = .ok stream ∧
      stream.items.map Lexeme.symbol = Piece.symbols program.layout := by
  refine Program.lexemes hfits (hwords.mono (fun _ _ hn => hn.starts)) ?_
  intro before opensArm n after hlayout hends
  have hn := hwords opensArm n (by simp [hlayout])
  exact hn.lexed _ hends

/-- Where there is room for it, a tree whose words are kept is read back from its rendering. -/
theorem programOf_kept {room : Nat} (hroom : Node.nestings program ≤ room)
    (hsize : byteSize (Program.render program).toList ≤ maxInputSize) :
    programOf (Level.atRoom room).command (Program.render program).toList = .ok program := by
  obtain ⟨stream, hstream, hsymbols⟩ := Program.kept_lexemes hfits hwords
  have hread := Grammar.reads_program hroom hfits (hwords.mono (fun _ _ hn => hn.rereads)) hsymbols
    stream.finish
  have hsame : program.map (Node.mapWords id) = program :=
    Node.mapAllWords_id (fun n _ => n.mapWords_id)
  rw [hsame] at hread
  exact programOf_eq_ok.mpr ⟨hsize, stream, _, hstream, hread⟩

end

theorem Program.Canonical.isKept {program : Program} (h : program.Canonical) :
    Piece.ForWords Node.IsKept program.layout :=
  h.2.mono (fun _ _ hn => hn.1.isKept hn.2)

theorem Program.Canonical.lexemes {program : Program} (h : program.Canonical) :
    ∃ stream, Lexemes.ofText (Program.render program).toList = .ok stream ∧
      stream.items.map Lexeme.symbol = Piece.symbols program.layout :=
  Program.kept_lexemes h.1 h.isKept

/-- Where there is room for it, a canonical tree is read back from its rendering. -/
theorem programOf_render {program : Program} (h : program.Canonical) {room : Nat}
    (hroom : Node.nestings program ≤ room)
    (hsize : byteSize (Program.render program).toList ≤ maxInputSize) :
    programOf (Level.atRoom room).command (Program.render program).toList = .ok program :=
  programOf_kept h.1 h.isKept hroom hsize

/-- Parsing undoes rendering on canonical trees that nest no deeper and are no larger than
sources may be. -/
theorem parse_render_canonical {program : Program} (h : program.Canonical)
    (hnesting : Node.nestings program ≤ maxNesting)
    (hsize : byteSize (Program.render program).toList ≤ maxInputSize) :
    parse (Program.render program) = .ok program :=
  parse_eq_ok.mpr (programOf_render h hnesting hsize)

/-- A conditional whose test redirects, with a branch in the background and an empty arm. -/
def Program.branching : Program :=
  [.conditional
    (.command [.plain "a", .redirection (some 2) .great (.plain "b")] false)
    [.binary .andAnd (.command [.plain "c"] false) (.command [.plain "d"] false)]
    [.mk (.command [.plain "e"] false) [.command [.plain "f"] true]]
    [.choice (.plain "g") [.mk [.plain "h"] []]]]

theorem Program.branching_read_back :
    Program.branching.Canonical ∧ parse Program.branching.render = .ok Program.branching := by
  have hsimple : ∀ text ∈ ["a", "b", "c", "d", "e", "f", "g", "h"],
      (Node.word [.literal text]).IsSimpleWord ∧ mayStart text = true ∧ text ≠ "esac" := by
    intro text htext
    simp only [List.mem_cons, List.not_mem_nil, or_false] at htext
    rcases htext with rfl | rfl | rfl | rfl | rfl | rfl | rfl | rfl <;>
      exact ⟨⟨by decide, List.all_eq_true.mp (by decide)⟩, by decide, by decide⟩
  simp only [List.forall_mem_cons] at hsimple
  obtain ⟨ha, hb, hc, hd, he, hf, hg, hh, _⟩ := hsimple
  have hrender : ∀ text, (Node.word [.literal text]).render = text := fun _ => rfl
  have hcanonical : Program.branching.Canonical := by
    constructor
    · simp [Program.branching, Node.AllFit, Node.Fits, Node.Arguments, Branch.AllFit, Arm.AllFit,
        Node.IsArgument, Node.IsWord, Node.plain, *]
      decide
    · simp [Program.branching, Program.layout, Node.layout, Node.layouts, Node.layoutMore,
        Branch.layouts, Branch.layout, Arm.layouts, Arm.layout, Arm.layoutMore, Node.plain, *]
  exact ⟨hcanonical, parse_render_canonical hcanonical (by decide)
    (by rw [Program.render_toList]; decide)⟩

/-! ## The limits are needed -/

namespace Grammar

theorem nextStatement_error {command : Grammar Node} {stops : List Token} {lexeme : Lexeme}
    {rest : List Lexeme} {finish : Position} {failure : Failure}
    (hstops : ∀ t ∈ stops, t.closes = true) (hstarts : lexeme.symbol.starts = true)
    (h : command ⟨lexeme :: rest, finish⟩ = .error failure) :
    nextStatement command stops ⟨lexeme :: rest, finish⟩ = .error failure := by
  have hnewline : lexeme.symbol.kind ≠ .newline := by simp_all [Symbol.starts]
  have hskip : skipNewlines ⟨lexeme :: rest, finish⟩ = .ok ((), ⟨lexeme :: rest, finish⟩) :=
    leads_skipNewlines [] (lexeme :: rest) finish rfl (by simp [hnewline])
  have hfront : (some lexeme).all (stopsAt stops) = false := stopsAt_of_starts hstops hstarts
  have hlist : andOrList command ⟨lexeme :: rest, finish⟩ = .error failure :=
    bind_error (bind_error h)
  rw [nextStatement_eq, bind_ok hskip]
  have hcurrent : current ⟨lexeme :: rest, finish⟩ =
      .ok (some lexeme, ⟨lexeme :: rest, finish⟩) := rfl
  rw [bind_ok hcurrent]
  simp only [hfront]
  exact bind_error hlist

theorem statementList_error {command : Grammar Node} {stops : List Token} {lexeme : Lexeme}
    {rest : List Lexeme} {finish : Position} {failure : Failure}
    (hstops : ∀ t ∈ stops, t.closes = true) (hstarts : lexeme.symbol.starts = true)
    (h : command ⟨lexeme :: rest, finish⟩ = .error failure) :
    statementList command stops ⟨lexeme :: rest, finish⟩ = .error failure := by
  change statements command stops (lexeme :: rest) [] ⟨lexeme :: rest, finish⟩ = .error failure
  rw [statements]
  exact bind_error (nextStatement_error hstops hstarts h)

/-- A parenthesis too many is refused, however the text goes on. -/
theorem command_tooDeep {room : Nat} {parens : List Lexeme} (rest : List Lexeme)
    (finish : Position)
    (hlength : parens.length = room + 1)
    (hparens : ∀ lexeme ∈ parens, lexeme.symbol = Token.leftParen.symbol) :
    ∃ e, (Level.atRoom room).command ⟨parens ++ rest, finish⟩ = .error ⟨e, true⟩ := by
  induction room generalizing parens with
  | zero =>
      obtain ⟨lexeme, rfl⟩ := List.length_eq_one_iff.mp hlength
      have hopened : opened? .leftParen = some Level.subshell := rfl
      have hchosen := compound?_of_symbol hopened (s := []) [lexeme] rest (by simp [hparens])
      have hcommand : (Level.atRoom 0).command = commandOn none (Level.atRoom 0).program := rfl
      refine ⟨⟨.tooDeep, lexeme.position⟩, ?_⟩
      rw [hcommand, commandOn_run]
      simp only [hchosen]
      rfl
  | succ room ih =>
      cases parens with
      | nil => simp at hlength
      | cons lexeme others =>
          have hlexeme := hparens lexeme (by simp)
          obtain ⟨e, hinner⟩ := ih (by simpa using hlength : others.length = room + 1)
            (fun other h => hparens other (by simp [h]))
          obtain ⟨second, tail, rfl⟩ : ∃ second tail, others = second :: tail := by
            cases others with
            | nil => simp at hlength
            | cons second tail => exact ⟨second, tail, rfl⟩
          have hsecond := hparens second (by simp)
          have hbody : statementBody (Level.atRoom room).command [.rightParen]
              ⟨second :: tail ++ rest, finish⟩ = .error ⟨e, true⟩ :=
            bind_error (statementList_error (by decide) (by rw [hsecond]; decide) hinner)
          have hparen := leads_expect .leftParen [lexeme] (second :: tail ++ rest) finish
            (by simp [hlexeme]) trivial
          have hopened : opened? .leftParen = some Level.subshell := rfl
          have hchosen := compound?_of_symbol hopened (s := []) [lexeme] (second :: tail ++ rest)
            (by simp [hlexeme])
          have hcommand : (Level.atRoom (room + 1)).command =
              commandOn (some (Level.atRoom room)) (Level.atRoom (room + 1)).program := rfl
          refine ⟨e, ?_⟩
          rw [hcommand, commandOn_run, List.cons_append, ← List.singleton_append]
          simp only [hchosen]
          exact (bind_ok hparen).trans (bind_error hbody)

end Grammar

/-- A command inside so many subshells. -/
def Node.buried : Nat → Node
  | 0 => .command [.plain "a"] false
  | depth + 1 => .subshell [Node.buried depth]

theorem Node.buried_symbols (depth : Nat) :
    ∃ rest, Piece.symbols (Node.buried depth).layout =
      List.replicate depth Token.leftParen.symbol ++ rest := by
  induction depth with
  | zero => exact ⟨_, rfl⟩
  | succ depth ih =>
      obtain ⟨rest, hrest⟩ := ih
      refine ⟨rest ++ [Token.rightParen.symbol], ?_⟩
      simp [Node.buried, Node.layout, Node.layouts, Node.layoutMore, hrest, List.replicate_succ]

theorem Node.buried_canonical (depth : Nat) : Program.Canonical [Node.buried depth] := by
  induction depth with
  | zero =>
      refine ⟨⟨⟨by simp, by simp, ?_, ?_⟩, trivial⟩, ?_⟩
      · intro n hn
        obtain rfl := List.mem_singleton.mp hn
        trivial
      · intro parts hparts
        cases hparts
        decide
      · have hword : (Node.plain "a").IsSimpleWord :=
          Node.isSimpleWord_plain (by decide) (by decide)
        simpa [Program.layout, Node.layouts, Node.layoutMore, Node.buried, Node.layout, Node.plain]
          using hword
  | succ depth ih =>
      obtain ⟨hfits, hwords⟩ := ih
      refine ⟨⟨⟨by simp, hfits⟩, trivial⟩, ?_⟩
      simpa [Program.layout, Node.layouts, Node.layoutMore, Node.buried, Node.layout] using hwords

/-- Where there is no room for a subshell, the parser itself runs out of levels. -/
theorem wholeProgram_buried {room depth : Nat} (hdepth : room < depth) {stream : Lexemes}
    (hstream : Lexemes.ofText (Program.render [Node.buried depth]).toList = .ok stream) :
    ∃ e, wholeProgram (Level.atRoom room).command stream = .error ⟨e, true⟩ := by
  obtain ⟨stream', hstream', hsymbols⟩ := (Node.buried_canonical depth).lexemes
  obtain rfl : stream' = stream := Except.ok.inj (hstream'.symm.trans hstream)
  obtain ⟨tail, htail⟩ := Node.buried_symbols depth
  have hlayout : Piece.symbols (Program.layout [Node.buried depth]) =
      Piece.symbols (Node.buried depth).layout := by
    simp [Program.layout, Node.layouts, Node.layoutMore]
  obtain ⟨more, hmore⟩ : ∃ more, depth = (room + 1) + more := ⟨depth - (room + 1), by omega⟩
  rw [hlayout, htail, hmore, ← List.replicate_append_replicate, List.append_assoc] at hsymbols
  obtain ⟨parens, others, hitems, hparens, _⟩ := List.map_eq_append_iff.mp hsymbols
  have hlength : parens.length = room + 1 := by
    simpa using congrArg List.length hparens
  have hall : ∀ lexeme ∈ parens, lexeme.symbol = Token.leftParen.symbol := by
    intro lexeme hmem
    have hmem : lexeme.symbol ∈ parens.map Lexeme.symbol := List.mem_map_of_mem hmem
    rw [hparens] at hmem
    exact List.eq_of_mem_replicate hmem
  obtain ⟨e, hfails⟩ := Grammar.command_tooDeep others stream'.finish hlength hall
  obtain ⟨first, front, rfl⟩ := List.exists_cons_of_length_pos (l := parens) (by omega)
  have hstops : ∀ t ∈ ([] : List Token), t.closes = true := by simp
  have hlist := Grammar.statementList_error hstops (by rw [hall first (by simp)]; decide) hfails
  refine ⟨e, ?_⟩
  have hstreamItems : stream' = ⟨first :: (front ++ others), stream'.finish⟩ := by
    rw [← List.cons_append, ← hitems]
  rw [hstreamItems]
  exact Grammar.bind_error hlist

theorem programOf_buried {room depth : Nat} (hdepth : room < depth) (program : Program) :
    programOf (Level.atRoom room).command (Program.render [Node.buried depth]).toList ≠
      .ok program := by
  intro hparse
  obtain ⟨_, stream, rest, hstream, hread⟩ := programOf_eq_ok.mp hparse
  obtain ⟨e, he⟩ := wholeProgram_buried hdepth hstream
  cases he.symm.trans hread

theorem parse_buried {depth : Nat} (hdepth : maxNesting < depth) (program : Program) :
    parse (Program.render [Node.buried depth]) ≠ .ok program :=
  fun hparse => programOf_buried hdepth program (parse_eq_ok.mp hparse)

/-- A command of one word of so many letters. -/
def Node.long (size : Nat) : Node := .command [.plain (String.ofList (List.replicate size 'a'))] false

theorem Node.long_canonical {size : Nat} (hsize : 0 < size) : Program.Canonical [Node.long size] := by
  have hword : (Node.plain (String.ofList (List.replicate size 'a'))).IsSimpleWord := by
    refine ⟨by simp; omega, fun c hc => ?_⟩
    rw [String.toList_ofList] at hc
    rw [List.eq_of_mem_replicate hc]
    decide
  refine ⟨⟨⟨by simp, by simp, ?_, ?_⟩, trivial⟩, ?_⟩
  · intro n hn
    obtain rfl := List.mem_singleton.mp hn
    trivial
  · intro parts hparts
    cases hparts
    have hnone : Token.reserved? (String.ofList (List.replicate size 'a')) = none := by
      cases hreserved : Token.reserved? (String.ofList (List.replicate size 'a')) with
      | none => rfl
      | some token =>
          have htext := congrArg String.toList (Token.reserved?_text hreserved)
          rw [String.toList_ofList] at htext
          have hfirst : token.text.toList.head? = some 'a' := by
            rw [htext, List.head?_replicate, if_neg (by omega)]
          exact absurd hfirst (by cases token <;> decide)
    change (Token.reserved? (String.ofList (List.replicate size 'a'))).all _ = true
    rw [hnone]
    rfl
  · simpa [Program.layout, Node.layouts, Node.layoutMore, Node.long, Node.layout, Node.plain]
      using hword

theorem parse_long {size : Nat} (hsize : maxInputSize < size) (program : Program) :
    parse (Program.render [Node.long size]) ≠ .ok program := by
  intro hparse
  obtain ⟨hbytes, _⟩ := programOf_eq_ok.mp (parse_eq_ok.mp hparse)
  have hrender : (Program.render [Node.long size]).toList = List.replicate size 'a' := by
    simp [Program.render_toList, Program.layout, Node.layouts, Node.layoutMore, Node.long,
      Node.layout, Node.plain, Piece.text, Node.render, Node.renderList, Node.renderMore]
  have hletter : Char.utf8Size 'a' = 1 := by decide
  rw [hrender, byteSize_replicate, hletter] at hbytes
  omega

/-- Too deep a tree and too long a word are canonical and yet not read back. -/
theorem canonical_beyond_limits :
    (Program.Canonical [Node.buried 201] ∧
      parse (Program.render [Node.buried 201]) ≠ .ok [Node.buried 201]) ∧
    Program.Canonical [Node.long 1000001] ∧
      parse (Program.render [Node.long 1000001]) ≠ .ok [Node.long 1000001] :=
  ⟨⟨Node.buried_canonical 201, parse_buried (by decide) _⟩,
    Node.long_canonical (by decide), parse_long (by decide) _⟩

end Conch.Syntax
