import Conch.Proofs.Canonical
import Conch.Proofs.Legible
import Conch.Proofs.Tree.Outline

/-!
# What a rendering tells of its program

Two programs with one rendering are one program exactly where the words with expansions
in them are the same words in the same places (`parse_render_faithful`).  All other
words are told by their texts, and the statements around them by the grammar: when the
words with expansions are blotted out the rendering of each outline is the same text,
and an outline is read back from its rendering.
-/

namespace Conch.Syntax

open Piece

/-- A word without expansions that does not spell the end of a choice. -/
def Node.isOrdinary (n : Node) : Bool := Cursor.isOrdinary n.render.toList && n.render != "esac"

/-- The other words among the pieces, each with its place in their text, which starts at a
place. -/
def Piece.marked : Nat → List Piece → List (Nat × Node)
  | _, [] => []
  | place, word _ n :: after =>
      let rest := marked (place + n.render.toList.length) after
      if n.isOrdinary then rest else (place, n) :: rest
  | place, piece :: after => marked (place + piece.text.toList.length) after

/-- The words of a program with expansions in them, and the words `esac`, each with its place in
the rendering. -/
def Program.marked (program : Program) : List (Nat × Node) := Piece.marked 0 (layout program)

/-- The fragments of an ordinary word, and one letter for those of another word. -/
def Node.blot (parts : List Node) : List Node :=
  if (Node.word parts).isOrdinary then parts else [.literal "w"]

namespace Program

/-- The program with the words blotted out that are not ordinary. -/
def blotted (program : Program) : Program := program.map (Node.mapWords Node.blot)

end Program

namespace Piece

/-! ## Blots in a text -/

/-- A text with a letter in place of each marked word. -/
def cover : Nat → List Char → List (Nat × Node) → List Char
  | _, text, [] => text
  | place, text, (found, n) :: more =>
      text.take (found - place) ++ 'w' ::
        cover (found + n.render.toList.length)
          (text.drop (found - place + n.render.toList.length)) more

theorem cover_append {place : Nat} {before text : List Char} {found : List (Nat × Node)}
    (h : ∀ mark ∈ found, place + before.length ≤ mark.1) :
    cover place (before ++ text) found = before ++ cover (place + before.length) text found := by
  cases found with
  | nil => rfl
  | cons mark more =>
      obtain ⟨spot, n⟩ := mark
      have hspot : place + before.length ≤ spot := h (spot, n) (by simp)
      have htake : spot - place = before.length + (spot - (place + before.length)) := by omega
      rw [cover, cover, htake, List.take_length_add_append, Nat.add_assoc,
        List.drop_length_add_append, List.append_assoc]

theorem le_of_marked {place : Nat} {pieces : List Piece} :
    ∀ mark ∈ marked place pieces, place ≤ mark.1 := by
  induction pieces generalizing place with
  | nil => simp [marked]
  | cons piece after ih =>
      intro mark hmark
      cases piece with
      | word opensArm n =>
          rw [marked] at hmark
          split at hmark
          · have := ih mark hmark
            omega
          · rcases List.mem_cons.mp hmark with rfl | hmark
            · exact Nat.le_refl place
            · have := ih mark hmark
              omega
      | _ =>
          have := ih mark hmark
          omega

/-- Blotting out the words of a program covers their places in its text. -/
theorem cover_spell {pieces : List Piece} (hwords : ForWords (fun _ n => n.IsWord) pieces)
    (place : Nat) :
    cover place (spell pieces) (marked place pieces) =
      spell (pieces.map (exchange Node.blot)) := by
  induction pieces generalizing place with
  | nil => rfl
  | cons piece after ih =>
      obtain ⟨hpiece, hafter⟩ := (forWords_cons piece after).mp hwords
      cases piece with
      | word opensArm n =>
          cases n with
          | word parts =>
              rw [marked, spell_cons, List.map_cons, exchange_word, spell_cons, ← ih hafter]
              simp only [Piece.text, Node.mapWords]
              cases hordinary : (Node.word parts).isOrdinary with
              | true =>
                  rw [if_pos rfl, Node.blot, if_pos hordinary]
                  exact cover_append (fun mark hmark => le_of_marked mark hmark)
              | false =>
                  have hletter : (Node.word [.literal "w"]).render.toList = ['w'] := by decide
                  rw [if_neg (by simp), Node.blot, if_neg (by simp [hordinary]), hletter, cover]
                  simp
          | _ => exact (hpiece opensArm _ rfl).elim
      | _ =>
          rw [marked, spell_cons, List.map_cons, cover_append (fun mark hmark => le_of_marked mark hmark)]
          · rw [ih hafter]
            rfl
          all_goals simp

/-! ## Words behind blots -/

theorem Node.IsWord.exists_parts {n : Node} (h : n.IsWord) : ∃ parts, n = .word parts := by
  cases n with
  | word parts => exact ⟨parts, rfl⟩
  | _ => cases h

theorem Node.blot_ordinary {parts : List Node} (h : (Node.word parts).isOrdinary = true) :
    Node.blot parts = parts := if_pos h

theorem Node.blot_other {parts : List Node} (h : ¬(Node.word parts).isOrdinary = true) :
    Node.blot parts = [.literal "w"] := if_neg h

/-- A mark at a place is no mark after a letter there. -/
theorem marked_ne_cons {place : Nat} {pieces : List Piece} {n : Node} {found : List (Nat × Node)} :
    marked (place + 1) pieces ≠ (place, n) :: found := by
  intro h
  have hle : place + 1 ≤ place := le_of_marked (place, n) (h ▸ List.mem_cons_self)
  omega

/-- The words of two rows of pieces are the same if those that show through the blots and the
marked ones are. -/
theorem wordsIn_eq {pieces others : List Piece} (hwords : ForWords (fun _ n => n.IsWord) pieces)
    (hothers : ForWords (fun _ n => n.IsWord) others) {place : Nat}
    (hblots : pieces.map (exchange Node.blot) = others.map (exchange Node.blot))
    (hmarked : marked place pieces = marked place others) : wordsIn pieces = wordsIn others := by
  induction pieces generalizing others place with
  | nil =>
      rw [List.map_nil, eq_comm, List.map_eq_nil_iff] at hblots
      rw [hblots]
  | cons piece after ih =>
      cases others with
      | nil => simp at hblots
      | cons other rest =>
          obtain ⟨hpiece, hafter⟩ := (forWords_cons piece after).mp hwords
          obtain ⟨hother, hrest⟩ := (forWords_cons other rest).mp hothers
          rw [List.map_cons, List.map_cons] at hblots
          obtain ⟨hfirst, hbehind⟩ := List.cons.inj hblots
          cases piece with
          | word opensArm n =>
              cases other with
              | word opens m =>
                  obtain ⟨parts, rfl⟩ := Node.IsWord.exists_parts (hpiece opensArm n rfl)
                  obtain ⟨parts', rfl⟩ := Node.IsWord.exists_parts (hother opens m rfl)
                  have hparts : Node.blot parts = Node.blot parts' :=
                    Node.word.inj (Piece.word.inj hfirst).2
                  rw [wordsIn_word, wordsIn_word]
                  rw [marked, marked] at hmarked
                  by_cases hn : (Node.word parts).isOrdinary = true <;>
                    by_cases hm : (Node.word parts').isOrdinary = true
                  · rw [Node.blot_ordinary hn, Node.blot_ordinary hm] at hparts
                    subst hparts
                    rw [if_pos hn, if_pos hn] at hmarked
                    rw [ih hafter hrest hbehind hmarked]
                  · rw [Node.blot_ordinary hn, Node.blot_other hm] at hparts
                    subst hparts
                    rw [if_pos hn, if_neg hm] at hmarked
                    exact absurd hmarked marked_ne_cons
                  · rw [Node.blot_other hn, Node.blot_ordinary hm] at hparts
                    subst hparts
                    rw [if_neg hn, if_pos hm] at hmarked
                    exact absurd hmarked.symm marked_ne_cons
                  · rw [if_neg hn, if_neg hm] at hmarked
                    obtain ⟨hmark, hmarked⟩ := List.cons.inj hmarked
                    obtain rfl := Node.word.inj (Prod.mk.inj hmark).2
                    rw [ih hafter hrest hbehind hmarked]
              | _ => cases hfirst
          | _ =>
              cases other with
              | word => cases hfirst
              | _ =>
                  cases hfirst
                  all_goals
                    change wordsIn after = wordsIn rest
                    exact ih hafter hrest hbehind hmarked

end Piece

/-! ## Programs behind blots -/

theorem Node.reread_of_no_programs {g : Program → Program} {n : Node} (h : n.programs = []) :
    n.reread g = n := by
  cases n with
  | substitution body => cases h
  | quoted parts =>
      have hparts : parts.map (rereadExpansion g) = parts := by
        refine (List.map_congr_left fun m hm => ?_).trans (List.map_id parts)
        have hnone := List.flatMap_eq_nil_iff.mp h m hm
        cases m with
        | substitution body => cases hnone
        | _ => rfl
      rw [Node.reread, hparts]
  | _ => rfl

theorem Cursor.opensExpansion_of_isInfixOf {inside text : List Char}
    (h : '$' :: '(' :: inside <:+: text) : opensExpansion text = true := by
  obtain ⟨before, after, rfl⟩ := h
  induction before with
  | nil => rfl
  | cons c before ih =>
      cases hopens : opensExpansion (c :: before ++ '$' :: '(' :: inside ++ after) with
      | true => rfl
      | false =>
          rw [List.cons_append, List.cons_append] at hopens
          rw [← opensExpansion_tail hopens]
          exact ih

/-- An ordinary word substitutes no program. -/
theorem Node.bodies_ordinary {n : Node} (h : Cursor.isOrdinary n.render.toList = true) :
    n.bodies = [] := by
  refine List.eq_nil_iff_forall_not_mem.mpr fun body hbody => ?_
  have hopens := Cursor.opensExpansion_of_isInfixOf (Node.bodies_isInfixOf hbody)
  simp [Cursor.isOrdinary, hopens] at h

/-- An ordinary word is read as itself. -/
theorem Word.ReadFrom.rereads_ordinary {n : Node} (h : Word.ReadFrom Lexeme.WasRead n)
    (hordinary : n.isOrdinary = true) (opensArm : Bool) : Node.Rereads id opensArm n := by
  obtain ⟨hfree, hesac⟩ := Bool.and_eq_true_iff.mp hordinary
  obtain ⟨room, lexeme, parts, _, _, rfl, hparse⟩ := h
  have hnone : parts.flatMap Node.programs = [] := Node.bodies_ordinary hfree
  refine ⟨fun room _ => ⟨parts, rfl, fun position => ?_⟩, fun _ => by simpa using hesac⟩
  have hsame : parts.map (Node.reread id) = parts := by
    refine (List.map_congr_left fun n hn => ?_).trans (List.map_id parts)
    exact Node.reread_of_no_programs (List.flatMap_eq_nil_iff.mp hnone n hn)
  have hagain : Word.parse (Level.atRoom room).program position _ = _ :=
    Word.parse_again hparse (g := id) (fun body hbody => by simp [hnone] at hbody) position
  rwa [hsame] at hagain

theorem Word.ReadFrom.lexed_ordinary {n : Node} (h : Word.ReadFrom Lexeme.WasRead n)
    (hordinary : Cursor.isOrdinary n.render.toList = true) (opensArm : Bool) {more : List Char}
    (hmore : endsWord more.head?) : (word opensArm n).Lexed more := by
  refine lexed_word h.first (fun position => ?_) hmore
  have hnone := Node.bodies_ordinary hordinary
  obtain ⟨room, lexeme, parts, hread, hkind, rfl, hparse⟩ := h
  obtain ⟨_, text, start, cursor, htext⟩ := hread.word hkind
  obtain ⟨new, hnew, hagain⟩ := Cursor.readWord_ordinary htext
  rw [Word.parse_render hparse hnone] at hordinary ⊢
  rw [List.reverse_nil, List.nil_append] at hnew
  rw [hnew] at hordinary ⊢
  simpa using hagain hordinary [] more position hmore

/-- Words are read as words behind blots too. -/
theorem Word.ReadFrom.blotted {n : Node} (h : Word.ReadFrom Lexeme.WasRead n) (opensArm : Bool) :
    StartsWord opensArm (n.mapWords Node.blot) ∧
      Node.Rereads id opensArm (n.mapWords Node.blot) ∧
        ∀ more, endsWord more.head? → (word opensArm (n.mapWords Node.blot)).Lexed more := by
  obtain ⟨_, _, parts, _, _, hparts, _⟩ := id h
  subst hparts
  by_cases hordinary : (Node.word parts).isOrdinary = true
  · have hsame : (Node.word parts).mapWords Node.blot = .word parts :=
      congrArg Node.word (Node.blot_ordinary hordinary)
    rw [hsame]
    exact ⟨h.startsWord opensArm, h.rereads_ordinary hordinary opensArm, fun more hmore =>
      h.lexed_ordinary (Bool.and_eq_true_iff.mp hordinary).1 opensArm hmore⟩
  · have hletter : (Node.word parts).mapWords Node.blot = .plain "w" :=
      congrArg Node.word (Node.blot_other hordinary)
    have hsimple : (Node.plain "w").IsSimpleWord :=
      Node.isSimpleWord_plain (by decide) (by decide)
    rw [hletter]
    exact ⟨hsimple.startsWord opensArm, hsimple.rereads fun _ => by decide, fun more hmore =>
      hsimple.lexed hmore⟩

namespace Program

variable {text : String} {program : Program}

theorem render_blotted (hwords : ForWords (fun _ n => n.IsWord) (layout program)) :
    (render program.blotted).toList = cover 0 (render program).toList program.marked := by
  rw [render_toList, render_toList, marked, cover_spell hwords, blotted, layout_mapWords]

/-- What is left of a program behind its blots is read from its rendering. -/
theorem blotted_read (hparse : parse text = .ok program) :
    Node.AllFit program ∧ ForWords (fun _ n => n.IsWord) (layout program) ∧
      ∃ stream, Lexemes.ofText (render program.blotted).toList = .ok stream ∧
        ∀ room, Node.nestings program.blotted ≤ room →
          wholeProgram (Level.atRoom room).command stream =
            .ok (program.blotted, ⟨[], stream.finish⟩) := by
  obtain ⟨_, stream, rest, hstream, hread⟩ := programOf_eq_ok.mp (parse_eq_ok.mp hparse)
  obtain ⟨hfits, hwords⟩ := built (Lexemes.ofText_wasRead hstream) hread
  have hstarts : ∀ parts, mayStart (Node.render (.word parts)) = true →
      mayStart (Node.render (.word (Node.blot parts))) = true := by
    intro parts hparts
    by_cases hordinary : (Node.word parts).isOrdinary = true
    · rwa [Node.blot_ordinary hordinary]
    · rw [Node.blot_other hordinary]
      decide
  have hblotted : Node.AllFit program.blotted :=
    Node.allFit_mapWords (fun n _ rank h => h.mapWords hstarts) hfits
  have hlayout : layout program.blotted = (layout program).map (exchange Node.blot) :=
    layout_mapWords Node.blot program
  have hbehind : ∀ opensArm m, word opensArm m ∈ layout program.blotted →
      ∃ n, Word.ReadFrom Lexeme.WasRead n ∧ n.mapWords Node.blot = m := by
    intro opensArm m hm
    rw [hlayout] at hm
    obtain ⟨piece, hpiece, hexchange⟩ := List.mem_map.mp hm
    cases piece with
    | word opens n =>
        cases hexchange
        exact ⟨n, hwords _ n hpiece, rfl⟩
    | _ => cases hexchange
  obtain ⟨stream, hlexemes, hsymbols⟩ := lexemes hblotted
    (fun opensArm m hm => by
      obtain ⟨n, hn, rfl⟩ := hbehind opensArm m hm
      exact (hn.blotted opensArm).1)
    (fun before opensArm m after hsplit hends => by
      obtain ⟨n, hn, rfl⟩ := hbehind opensArm m (by simp [hsplit])
      exact (hn.blotted opensArm).2.2 _ hends)
  refine ⟨hfits, hwords.mono fun _ n hn => ?_, stream, hlexemes, fun room hroom => ?_⟩
  · obtain ⟨_, _, parts, _, _, rfl, _⟩ := hn
    trivial
  · have hrereads : ForWords (Node.Rereads id) (layout program.blotted) := by
      intro opensArm m hm
      obtain ⟨n, hn, rfl⟩ := hbehind opensArm m hm
      exact (hn.blotted opensArm).2.1
    have hreads := Grammar.reads_program hroom hblotted hrereads hsymbols stream.finish
    have hsame : program.blotted.map (Node.mapWords id) = program.blotted :=
      Node.mapAllWords_id fun n _ => n.mapWords_id
    rwa [hsame] at hreads

end Program

/-- Rendering tells programs apart by their words with expansions: two programs with one rendering
and the same such words in the same places are the same program. -/
theorem parse_render_faithful {first second : String} {program other : Program}
    (hfirst : parse first = .ok program) (hsecond : parse second = .ok other)
    (hrender : Program.render program = Program.render other)
    (hmarked : program.marked = other.marked) : program = other := by
  obtain ⟨_, hwords, stream, hstream, hread⟩ := Program.blotted_read hfirst
  obtain ⟨_, hothers, stream', hstream', hread'⟩ := Program.blotted_read hsecond
  have htexts : (Program.render program.blotted).toList = (Program.render other.blotted).toList := by
    rw [Program.render_blotted hwords, Program.render_blotted hothers, hrender, hmarked]
  have hsame : stream = stream' := by
    rw [htexts, hstream'] at hstream
    exact (Except.ok.inj hstream).symm
  have hblotted : program.blotted = other.blotted := by
    have hroom := hread _ (Nat.le_max_left _ (Node.nestings other.blotted))
    rw [hsame, hread' _ (Nat.le_max_right _ _)] at hroom
    exact (Prod.mk.inj (Except.ok.inj hroom)).1.symm
  have hblots : (Program.layout program).map (exchange Node.blot) =
      (Program.layout other).map (exchange Node.blot) := by
    have hlayout := congrArg Program.layout hblotted
    rwa [Program.blotted, Program.blotted, Program.layout_mapWords, Program.layout_mapWords]
      at hlayout
  have hin := wordsIn_eq hwords hothers hblots hmarked
  rw [Program.layout, Program.layout, wordsIn_list, wordsIn_list] at hin
  have hrecovered := Node.recovered_list (fun n _ => n.recovered) hblotted
    (congrArg (· ++ ([] : List Node)) hin)
  exact hrecovered.1

/-- A statement written in two ways. -/
theorem conditional_told : ∃ program other, parse "if a\nthen b; fi" = .ok program ∧
    parse "if a; then b\nfi\n" = .ok other ∧ program = other := by
  have hshown : ∀ text : String, (parse text).toOption.any (fun program =>
      program.marked.isEmpty && Program.render program == "if a; then b; fi") = true →
        ∃ program, parse text = .ok program ∧ program.marked = [] ∧
          Program.render program = "if a; then b; fi" := by
    intro text h
    obtain ⟨program, hparse, hcheck⟩ := exists_parse text _ h
    obtain ⟨hmarked, hrender⟩ := Bool.and_eq_true_iff.mp hcheck
    exact ⟨program, hparse, List.isEmpty_iff.mp hmarked, eq_of_beq hrender⟩
  obtain ⟨program, hfirst, hmarked, hrender⟩ := hshown "if a\nthen b; fi" (by decide +kernel)
  obtain ⟨other, hsecond, hmarked', hrender'⟩ := hshown "if a; then b\nfi\n" (by decide +kernel)
  exact ⟨program, other, hfirst, hsecond, parse_render_faithful hfirst hsecond
    (hrender.trans hrender'.symm) (hmarked.trans hmarked'.symm)⟩

/-- A subshell in a substitution is rendered like an arithmetic expansion. -/
theorem subshell_mistaken : ∃ program other, parse "x $( (a) )" = .ok program ∧
    parse "x $((a))" = .ok other ∧ Program.render program = Program.render other ∧
      program ≠ other := by
  obtain ⟨program, hfirst, hcheck⟩ := exists_parse "x $( (a) )" (fun program =>
    Program.render program == "x $((a))" && Node.heights program == 7) (by decide +kernel)
  obtain ⟨other, hsecond, hcheck'⟩ := exists_parse "x $((a))" (fun program =>
    Program.render program == "x $((a))" && Node.heights program == 18) (by decide +kernel)
  obtain ⟨hrender, hheight⟩ := Bool.and_eq_true_iff.mp hcheck
  obtain ⟨hrender', hheight'⟩ := Bool.and_eq_true_iff.mp hcheck'
  refine ⟨program, other, hfirst, hsecond,
    (eq_of_beq hrender).trans (eq_of_beq hrender').symm, ?_⟩
  rintro rfl
  have heights := (eq_of_beq hheight).symm.trans (eq_of_beq hheight')
  exact absurd heights (by decide)

end Conch.Syntax
