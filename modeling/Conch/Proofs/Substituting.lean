import Conch.Proofs.Canonical
import Conch.Proofs.Grammar.Rooms
import Conch.Proofs.Grammar.Scanned

/-!
# Programs substituted in words

A program may stand in a word as `$(...)`.  It is read as itself there if the scan for the
parenthesis that ends its text finds that parenthesis (`parse_substituted`), and the scan finds
it behind scannable programs without continued lines (`substitutes_of_isScannable`).  The scan
follows the words of a text less closely than the lexer and the grammar do, so there
are programs that it cuts short or runs past (`substituted_lost`).
-/

namespace Conch.Syntax

/-- The end of a text of whole lines is found, by the scan and, where the text looks like the start
of an arithmetic expansion, also by counting parentheses. -/
structure Substitutes (text : String) : Prop where
  closes : Substitution.split (text.toList ++ [')']) = some (text.toList, [])
  counted : text.toList.head? = some '(' →
    Delimited.split '(' ')' (text.toList ++ [')']) = .ok (text.toList, [])
  last : text.toList.getLast? = some '\n'

/-- The text continues no line, does not look like an arithmetic expansion, and its program says
nowhere what the scan takes for the start or the end of a choice. -/
structure IsScannable (text : String) (body : Program) : Prop where
  unbroken : Unbroken text.toList
  single : text.toList.head? ≠ some '('
  scannable : Node.areScannable body = true

/-- The scan follows the lexer and the grammar through a scannable program. -/
theorem substitutes_of_isScannable {text : String} {body : Program} {room : Nat}
    (hparse : programOf (Level.atRoom room).command text.toList = .ok body)
    (hlast : text.toList.getLast? = some '\n') (h : IsScannable text body) : Substitutes text := by
  obtain ⟨_, stream, rest, hstream, hread⟩ := programOf_eq_ok.mp hparse
  obtain ⟨hregular, finish, hsteps, hunmatched, hpattern⟩ :=
    wholeProgram_scanned hstream hread h.scannable
  have hlines : WholeLines text.toList := by simp [WholeLines, hlast]
  obtain ⟨items, hitems, hlaid⟩ := Lexemes.read_laid hstream hlines h.unbroken hregular
  obtain rfl : stream.items = items := hitems
  exact ⟨hlaid.split hsteps hunmatched hpattern, fun hopens => absurd hopens h.single, hlast⟩

/-- The word that substitutes a text. -/
def substituted (text : String) : String := "$(" ++ text ++ ")"

theorem substituted_toList (text : String) :
    (substituted text).toList = '$' :: '(' :: (text.toList ++ [')']) := by simp [substituted]

theorem ne_substituted (text : String) : "x" ≠ substituted text := by
  intro heq
  have hlist := congrArg String.toList heq
  rw [substituted_toList] at hlist
  exact absurd (List.cons.inj hlist).1 (by decide)

theorem render_plain (text : String) : (Node.plain text).render = text := by
  simp [Node.plain, Node.render, Node.renderList, Node.renderMore]

namespace Substitutes

variable {text : String} (h : Substitutes text)

include h

/-! ## The word -/

theorem readWord {rest : List Char} (hrest : rest.head?.all isWordBoundary = true)
    (position : Position) :
    ∃ finish, Cursor.readWord [] [] ((substituted text).toList ++ rest) position =
      .ok ((substituted text).toList, ⟨rest, finish⟩) := by
  have hstep : Cursor.step [] '$' (some '(') = .substitution := rfl
  have htext : (substituted text).toList ++ rest = '$' :: '(' :: (text.toList ++ ')' :: rest) := by
    simp [substituted]
  have hstop : ∀ place, Cursor.readWord [] (substituted text).toList.reverse rest place =
      .ok ((substituted text).toList, ⟨rest, place⟩) := by
    intro place
    cases rest with
    | nil => rw [Cursor.readWord_nil, List.reverse_reverse]
    | cons c rest => rw [Cursor.readWord_cons, Cursor.step_boundary hrest, List.reverse_reverse]
  rw [htext, Cursor.readWord_cons, List.head?_cons, hstep]
  simp only [List.tail_cons, Substitution.split_again h.closes]
  have hseen : ')' :: text.toList.reverseAux ['(', '$'] = (substituted text).toList.reverse := by
    simp [substituted_toList, List.reverseAux_eq]
  exact ⟨_, hseen ▸ hstop _⟩

theorem lexed (opensArm : Bool) : (Piece.word opensArm (.plain (substituted text))).Lexed [] := by
  refine Piece.lexed_word ⟨'$', ?_, by decide, by decide⟩ (fun position => ?_)
    (fun c hc => by cases hc)
  · rw [render_plain, substituted_toList]
    rfl
  · rw [render_plain]
    exact h.readWord rfl position

theorem expansion {program : Word.ProgramParser} (place : List Char → Position) :
    Word.expansion program place ('(' :: (text.toList ++ [')'])) =
      Word.substitution program text.toList [] := by
  have hlast := h.last
  cases htext : text.toList with
  | nil =>
      rw [htext] at hlast
      cases hlast
  | cons c rest =>
      rw [htext] at hlast
      by_cases hc : c = '('
      · subst hc
        have hcounted := h.counted (congrArg List.head? htext)
        have hexpression : Word.arithmeticText? ('(' :: rest) = none := by
          refine if_neg fun hrest => ?_
          rw [List.getLast?_cons, hrest] at hlast
          cases hlast
        rw [htext, List.cons_append] at hcounted
        rw [List.cons_append]
        simp only [Word.expansion_doubled, hcounted, hexpression]
      · have hsingle : ∀ inside, c :: rest ++ [')'] ≠ '(' :: inside :=
          fun _ heq => hc (List.cons.inj heq).1
        rw [Word.expansion_single hsingle, ← htext, h.closes]

theorem parse_word {program : Word.ProgramParser} {body : Program}
    (hbody : program text.toList = .ok body) (position : Position) :
    Word.parse program position (substituted text).toList = .ok [.substitution body] := by
  rw [Word.parse, substituted_toList, Word.fragments_dollar, h.expansion, Word.substitution, hbody]
  exact Word.fragments_nil

end Substitutes

/-! ## The program around it -/

/-- A command whose second argument is the text. -/
def Program.around (text : String) : Program := [.command [.plain "x", .plain text] false]

/-- Puts the program in the place of the literal that stands for it. -/
def Word.fill (text : String) (body : Program) : List Node → List Node
  | [.literal letters] => if letters = text then [.substitution body] else [.literal letters]
  | parts => parts

section

variable {text : String}

theorem Program.render_around (text : String) : Program.render (around text) = "x " ++ text := by
  simp [around, render, Node.renderList, Node.renderMore, Node.render, Node.plain]

theorem Program.layout_around (text : String) : (around text).layout =
    [.word false (.plain "x"), .blank, .word false (.plain text)] := by
  simp [around, layout, Node.layouts, Node.layoutMore, Node.layout, Node.plain]

theorem Program.around_arguments (text : String) : Node.Arguments [.plain "x", .plain text] := by
  refine ⟨by simp, ?_, ?_⟩
  · simp [Node.plain, Node.IsArgument]
  · rintro parts hparts
    cases hparts
    decide

theorem Substitutes.lexemes (h : Substitutes text) :
    ∃ stream, Lexemes.ofText (Program.render (Program.around (substituted text))).toList =
        .ok stream ∧
      stream.items.map Lexeme.symbol = Piece.symbols (Program.around (substituted text)).layout := by
  have hx : (Node.plain "x").IsSimpleWord :=
    Node.isSimpleWord_plain (by decide) (by decide)
  refine Program.lexemes ⟨⟨by simp, Program.around_arguments _⟩, trivial⟩ ?_ ?_
  · rw [Program.layout_around]
    intro opensArm n hn
    rcases List.mem_cons.mp hn with hn | hn
    · cases hn
      exact hx.startsWord false
    · simp only [List.mem_cons, List.not_mem_nil, or_false, reduceCtorEq, false_or] at hn
      cases hn
      exact ⟨'$', _, by rw [render_plain, substituted_toList], by decide⟩
  · intro before opensArm n after hlayout hends
    rw [Program.layout_around] at hlayout
    match before, hlayout with
    | [], hlayout =>
        cases hlayout
        exact hx.lexed hends
    | [_], hlayout => cases hlayout
    | [_, _], hlayout =>
        cases hlayout
        exact h.lexed false
    | _ :: _ :: _ :: before, hlayout => simp at hlayout

theorem Substitutes.wordsReadAs {body : Program} (h : Substitutes text)
    {program : Word.ProgramParser} (hbody : program text.toList = .ok body) :
    ∀ n ∈ [Node.plain "x", .plain (substituted text)],
      Piece.WordsReadAs program (Word.fill (substituted text) body) n.layout := by
  have hne := ne_substituted text
  intro n hn opensArm word hword
  rcases List.mem_pair.mp hn with rfl | rfl
  · obtain rfl : word = .plain "x" := (Piece.word.inj (List.mem_singleton.mp hword)).2
    refine ⟨[.literal "x"], rfl, fun position => ?_⟩
    rw [Word.fill, if_neg hne, ← render_plain "x"]
    exact Word.parse_plain program position (by decide) (List.all_eq_true.mp (by decide))
  · obtain rfl : word = .plain (substituted text) := (Piece.word.inj (List.mem_singleton.mp hword)).2
    refine ⟨[.literal (substituted text)], rfl, fun position => ?_⟩
    rw [render_plain, Word.fill, if_pos rfl]
    exact h.parse_word hbody position

/-- A program is read in the place of a word where its end is found, as it is where the program is
scannable. -/
theorem parse_substituted {body : Program} (hparse : parse text = .ok body)
    (hlast : text.toList.getLast? = some '\n') (hnestings : Node.nestings body < maxNesting)
    (hsize : byteSize ("x $(" ++ text ++ ")").toList ≤ maxInputSize)
    (hends : IsScannable text body ∨ Substitutes text) :
    parse ("x $(" ++ text ++ ")") =
      .ok [.command [.plain "x", .word [.substitution body]] false] := by
  have htext : "x $(" ++ text ++ ")" = Program.render (Program.around (substituted text)) := by
    rw [Program.render_around]
    exact String.toList_inj.mp (by simp [substituted])
  rw [parse_eq_ok] at hparse
  have h : Substitutes text := hends.elim (substitutes_of_isScannable hparse hlast) id
  -- The program is read one level further down.
  have hbody : (Level.atRoom maxNesting).program text.toList = .ok body :=
    congrArg Failure.errorOf (programOf_atRoom hparse (Nat.le_pred_of_lt hnestings))
  rw [htext] at hsize ⊢
  obtain ⟨stream, hstream, hsymbols⟩ := h.lexemes
  have hargs := Program.around_arguments (substituted text)
  have hcommand := Grammar.readsCommand_simple hargs (h.wordsReadAs hbody)
  have hfits : (Node.command [.plain "x", .plain (substituted text)] false).Fits .statement :=
    ⟨by simp, hargs⟩
  have hstatement := hcommand.reads (Node.Fits.starts hfits) .statement
  have hreads := Grammar.reads_statements (List.forall_mem_singleton.mpr hstatement) hsymbols
    stream.finish
  refine parse_eq_ok.mpr (programOf_eq_ok.mpr ⟨hsize, stream, ⟨[], stream.finish⟩, hstream, ?_⟩)
  rw [hreads]
  have hne : "x" ≠ substituted text := ne_substituted text
  simp [Node.mapWords, Node.plain, Word.fill, hne]

/-- A choice with a comment that has a parenthesis in it. -/
theorem choice_substituted : ∃ body, parse "case x in a) b;; esac # )\n" = .ok body ∧
    IsScannable "case x in a) b;; esac # )\n" body ∧ Node.nestings body < maxNesting ∧
      parse ("x $(" ++ "case x in a) b;; esac # )\n" ++ ")") =
        .ok [.command [.plain "x", .word [.substitution body]] false] := by
  obtain ⟨body, hbody, hcheck⟩ := exists_parse "case x in a) b;; esac # )\n"
    (fun body => Node.areScannable body && Node.nestings body < maxNesting) (by decide +kernel)
  obtain ⟨hscannable, hnestings⟩ := Bool.and_eq_true_iff.mp hcheck
  have hnestings := of_decide_eq_true hnestings
  have hends : IsScannable "case x in a) b;; esac # )\n" body :=
    ⟨by decide +kernel, by decide +kernel, hscannable⟩
  exact ⟨body, hbody, hends, hnestings, parse_substituted hbody (by decide +kernel) hnestings
    (by decide +kernel) (.inl hends)⟩

/-- The text is a program, and no program stands around its substitution. -/
def IsLost (text : String) : Prop :=
  (∃ program, parse text = .ok program) ∧ ∃ e, parse ("x $(" ++ text ++ ")") = .error e

theorem isLost_of_check {text : String}
    (h : ((parse text).toOption.any (fun _ => true) &&
      (fault? (parse ("x $(" ++ text ++ ")"))).any fun _ => true) = true) : IsLost text := by
  obtain ⟨hsome, hfault⟩ := Bool.and_eq_true_iff.mp h
  obtain ⟨program, hprogram, _⟩ := exists_ok hsome
  obtain ⟨e, he, _⟩ := exists_error hfault
  exact ⟨⟨program, hprogram⟩, e, he⟩

/-- Programs whose ends the scan misses: a comment after a continued line, a pattern spelled like
the end of its choice, a target spelled like a choice, a quoted brace, and a subshell that
looks like an arithmetic expansion. -/
theorem substituted_lost :
    IsLost "a \\\n# )\n" ∧ IsLost "case x in a|esac) b;; esac\n" ∧ IsLost ">case a in\n" ∧
      IsLost "a $\x7bx:-'\x7d'\x7d\n" ∧ IsLost "(case x in a) b;; esac)\n" :=
  ⟨isLost_of_check (by decide +kernel), isLost_of_check (by decide +kernel),
    isLost_of_check (by decide +kernel), isLost_of_check (by decide +kernel),
    isLost_of_check (by decide +kernel)⟩

end

end Conch.Syntax
