import Conch.Proofs.Lexing.Pieces
import Conch.Proofs.Tree.Shape
import Conch.Proofs.Words.Rereading

/-!
# Whole words read again

The rendering of a word that was read has the fragments of that word again, up to the
programs that it substitutes (`parse_again`).  A word that substitutes no program is
rendered to the text it was read from (`parse_render`).
-/

namespace Conch.Syntax

namespace Word

/-! ## The forms of a word -/

section Equations

variable {parse : ProgramParser} {place : List Char → Position} {letters : List Char}
  {found : List Node}

theorem fragments_nil :
    fragments parse place letters found [] = .ok (flush letters found).reverse := by
  rw [fragments.eq_def]

theorem fragments_quotes (rest : List Char) :
    fragments parse place letters found ('"' :: rest) =
      match quotedFragments parse place [] [] rest with
      | .error e => .error e
      | .ok (inner, after) =>
          if after.isEmpty then fail place [] (.openQuote .doubleQuote)
          else fragments parse place [] (.quoted inner :: flush letters found) after.tail := by
  rw [fragments]
  split <;> (rename_i h; simp only [h])

theorem fragments_lastSlash :
    fragments parse place letters found ['\\'] =
      .ok (flush ('\\' :: letters) found).reverse := by
  rw [fragments.eq_def]
  rfl

theorem fragments_escape (c : Char) (rest : List Char) :
    fragments parse place letters found ('\\' :: c :: rest) =
      fragments parse place (c :: '\\' :: letters) found rest := by
  rw [fragments.eq_def]
  rfl

theorem fragments_quote (inner rest : List Char) (h : ∀ c ∈ inner, c ≠ '\'') :
    fragments parse place letters found ('\'' :: (inner ++ '\'' :: rest)) =
      fragments parse place ('\'' :: inner.reverseAux ('\'' :: letters)) found rest := by
  have hall : ∀ c ∈ inner, (c ≠ '\'' : Bool) = true := fun c hc => by simpa using h c hc
  have htake : (inner ++ '\'' :: rest).takeWhile (· ≠ '\'') = inner := by
    rw [List.takeWhile_append_of_pos hall]
    simp
  have hdrop : (inner ++ '\'' :: rest).dropWhile (· ≠ '\'') = '\'' :: rest := by
    rw [List.dropWhile_append_of_pos hall]
    simp
  rw [fragments.eq_def]
  change (if ((inner ++ '\'' :: rest).dropWhile (· ≠ '\'')).isEmpty then _ else _) = _
  rw [hdrop]
  change fragments parse place ('\'' :: ((inner ++ '\'' :: rest).takeWhile (· ≠ '\'')).reverseAux
    ('\'' :: letters)) found rest = _
  rw [htake]

theorem fragments_dollar (rest : List Char) :
    fragments parse place letters found ('$' :: rest) =
      match expansion parse place rest with
      | .error e => .error e
      | .ok none => fragments parse place ('$' :: letters) found rest
      | .ok (some (n, after)) => fragments parse place [] (n :: flush letters found) after := by
  rw [fragments]
  split <;> (rename_i h; simp only [h])

theorem fragments_letter {c : Char} (hquotes : c ≠ '"') (hslash : c ≠ '\\') (hquote : c ≠ '\'')
    (hdollar : c ≠ '$') (rest : List Char) :
    fragments parse place letters found (c :: rest) =
      fragments parse place (c :: letters) found rest := by
  rw [fragments.eq_def]
  split <;> simp_all

end Equations

/-- A quoted stretch ends at a double quote or with the text. -/
theorem quotedFragments_rest {parse : ProgramParser} {place : List Char → Position}
    {letters text rest : List Char} {found nodes : List Node}
    (h : quotedFragments parse place letters found text = .ok (nodes, rest)) :
    rest = [] ∨ ∃ after, rest = '"' :: after := by
  fun_induction quotedFragments parse place letters found text with
  | case1 =>
      cases h
      exact .inl rfl
  | case2 letters found after =>
      cases h
      exact .inr ⟨after, rfl⟩
  | case3 =>
      cases h
      exact .inl rfl
  | case4 _ _ _ _ ih => exact ih h
  | case5 => cases h
  | case6 _ _ _ _ ih => exact ih h
  | case7 _ _ _ _ _ _ ih => exact ih h
  | case8 _ _ _ _ _ _ _ _ ih => exact ih h

@[simp] theorem programs_flush (letters : List Char) :
    (flush letters []).flatMap Node.programs = [] := by
  unfold flush
  split <;> rfl

@[simp] theorem reread_flush (g : Program → Program) (letters : List Char) :
    (flush letters []).map (Node.reread g) = flush letters [] := by
  unfold flush
  split <;> rfl

theorem span_quote {text : List Char} (h : (text.dropWhile (· ≠ '\'')).isEmpty ≠ true) :
    text.takeWhile (· ≠ '\'') ++ '\'' :: (text.dropWhile (· ≠ '\'')).tail = text := by
  have hnil : text.dropWhile (· ≠ '\'') ≠ [] := by simpa using h
  obtain ⟨c, rest, hrest⟩ := List.exists_cons_of_ne_nil hnil
  have hc := List.head?_dropWhile_not (· ≠ '\'') text
  rw [hrest] at hc
  have hc : c = '\'' := by simpa using hc
  subst hc
  rw [hrest, List.tail_cons, ← hrest]
  exact List.takeWhile_append_dropWhile

/-- A word is read again from the texts of its fragments. -/
theorem fragments_again {parse : ProgramParser} {place : List Char → Position}
    {letters text : List Char} {found nodes : List Node}
    (h : fragments parse place letters found text = .ok nodes) :
    ∃ new shown, nodes = found.reverse ++ new ∧ Node.spelled new = letters.reverse ++ shown ∧
      shown.head? = text.head? ∧
      (new.flatMap Node.programs = [] → shown = text) ∧
      ∀ (parse' : ProgramParser) (g : Program → Program),
        (∀ body ∈ new.flatMap Node.programs, Reparses parse' g body) →
          ∀ (place' : List Char → Position) (found' : List Node),
            fragments parse' place' letters found' shown =
              .ok (found'.reverse ++ new.map (Node.reread g)) := by
  fun_induction fragments parse place letters found text with
  | case1 letters found =>
      cases h
      refine ⟨flush letters [], [], ?_, by simp, rfl, by simp, ?_⟩
      · rw [flush_eq, List.reverse_append, reverse_flush]
      · intro parse' g _ place' found'
        rw [fragments_nil, flush_eq, List.reverse_append, reverse_flush, reread_flush]
  | case2 => cases h
  | case3 => cases h
  | case4 letters found rest inner after hquoted hafter ih =>
      obtain ⟨new, shown, hnodes, hspelled, hhead, hsame, hagain⟩ := ih h
      obtain ⟨after, rfl⟩ : ∃ more, after = '"' :: more := by
        rcases quotedFragments_rest hquoted with rfl | hmore
        · exact absurd rfl hafter
        · exact hmore
      obtain ⟨inner, quoted, rfl, hinner, _, hinnerSame, hinnerAgain⟩ :=
        quotedFragments_again hquoted
      refine ⟨flush letters [] ++ .quoted inner :: new, '"' :: (quoted ++ '"' :: shown), ?_, ?_, rfl,
        ?_, ?_⟩
      · rw [hnodes, flush_eq]
        simp
      · have hinner : Node.spelled inner = quoted := by simpa using hinner
        have hletters : Node.spelled new = shown := by simpa using hspelled
        simp [Node.render_quoted_toList, hinner, hletters]
      · intro hnone
        rw [List.flatMap_append, List.flatMap_cons] at hnone
        obtain ⟨hinside, hnew⟩ :
            inner.flatMap Node.substituted = [] ∧ new.flatMap Node.programs = [] := by
          simpa [Node.programs] using hnone
        rw [hsame hnew]
        exact congrArg ('"' :: ·) (hinnerSame hinside)
      · intro parse' g hg place' found'
        have hquotes := hinnerAgain parse' g (fun body hbody => hg body (by
          rw [List.flatMap_append, List.flatMap_cons]
          simp [Node.programs, hbody])) place' [] shown
        have hnew := hagain parse' g (fun body hbody => hg body (by
          rw [List.flatMap_append, List.flatMap_cons]
          simp [hbody])) place'
          (.quoted (inner.map (Node.rereadExpansion g)) :: flush letters found')
        rw [fragments_quotes, hquotes]
        simp only [List.reverse_nil, List.nil_append, List.isEmpty_cons, List.tail_cons,
          Bool.false_eq_true, if_false, hnew]
        rw [flush_eq]
        simp [Node.reread]
  | case5 letters found =>
      cases h
      refine ⟨flush ('\\' :: letters) [], ['\\'], ?_, by simp, rfl, by simp, ?_⟩
      · rw [flush_eq, List.reverse_append, reverse_flush]
      · intro parse' g _ place' found'
        rw [fragments_lastSlash, flush_eq, List.reverse_append, reverse_flush, reread_flush]
  | case6 letters found c rest ih =>
      obtain ⟨new, shown, hnodes, hspelled, _, hsame, hagain⟩ := ih h
      refine ⟨new, '\\' :: c :: shown, hnodes, by simp [hspelled], rfl,
        fun hnew => by simp [← hsame hnew], ?_⟩
      intro parse' g hg place' found'
      rw [fragments_escape]
      exact hagain parse' g hg place' found'
  | case7 => cases h
  | case8 letters found rest inner after hafter ih =>
      obtain ⟨new, shown, hnodes, hspelled, _, hsame, hagain⟩ := ih h
      refine ⟨new, '\'' :: (inner ++ '\'' :: shown), hnodes, ?_, rfl, ?_, ?_⟩
      · simp [hspelled, List.reverseAux_eq]
      · intro hnew
        rw [hsame hnew]
        exact congrArg ('\'' :: ·) (span_quote hafter)
      · intro parse' g hg place' found'
        have hinner : ∀ c ∈ inner, c ≠ '\'' := by
          intro c hc
          simpa using List.mem_takeWhile_imp hc
        rw [fragments_quote inner shown hinner]
        exact hagain parse' g hg place' found'
  | case9 => cases h
  | case10 letters found rest hnone ih =>
      obtain ⟨new, shown, hnodes, hspelled, hhead, hsame, hagain⟩ := ih h
      refine ⟨new, '$' :: shown, hnodes, by simp [hspelled], rfl,
        fun hnew => by simp [← hsame hnew], ?_⟩
      intro parse' g hg place' found'
      rw [fragments_dollar, expansion_none hnone hhead]
      exact hagain parse' g hg place' found'
  | case11 letters found rest n after hsome ih =>
      obtain ⟨new, shown, hnodes, hspelled, hhead, hsame, hagain⟩ := ih h
      obtain ⟨nshown, hrender, hreread, hprograms, hnagain⟩ := expansion_again hsome
      refine ⟨flush letters [] ++ n :: new, '$' :: (nshown ++ shown), ?_, ?_, rfl, ?_, ?_⟩
      · rw [hnodes, flush_eq]
        simp
      · simp [hrender, hspelled]
      · intro hnone
        rw [List.flatMap_append, List.flatMap_cons, hprograms] at hnone
        obtain ⟨hn, hnew⟩ : n.substituted = [] ∧ new.flatMap Node.programs = [] := by
          simpa using hnone
        have hshown := expansion_shown hsome hn
        rw [← hsame hnew, hrender] at hshown
        simpa using hshown
      · intro parse' g hg place' found'
        have hn := hnagain parse' g (fun body hbody => hg body (by
          rw [List.flatMap_append, List.flatMap_cons, hprograms]
          simp [hbody])) place' shown hhead
        have hnew := hagain parse' g (fun body hbody => hg body (by
          rw [List.flatMap_append, List.flatMap_cons]
          simp [hbody])) place' (n.rereadExpansion g :: flush letters found')
        rw [fragments_dollar, hn]
        simp only [hnew]
        rw [flush_eq]
        simp [hreread]
  | case12 letters found c rest hquotes hend hescape hquote hdollar ih =>
      obtain ⟨new, shown, hnodes, hspelled, _, hsame, hagain⟩ := ih h
      refine ⟨new, c :: shown, hnodes, by simp [hspelled], rfl,
        fun hnew => by simp [← hsame hnew], ?_⟩
      intro parse' g hg place' found'
      have hslash : c ≠ '\\' := by
        rintro rfl
        cases rest with
        | nil => exact hend rfl rfl
        | cons d more => exact hescape d more rfl rfl
      rw [fragments_letter hquotes hslash hquote hdollar]
      exact hagain parse' g hg place' found'

/-! ## A word and its rendering -/

/-- The rendering of a word is read as the word with its programs read again. -/
theorem parse_again {program program' : ProgramParser} {position : Position} {text : List Char}
    {parts : List Node} (h : parse program position text = .ok parts) {g : Program → Program}
    (hg : ∀ body ∈ parts.flatMap Node.programs, Reparses program' g body) (position' : Position) :
    parse program' position' (Node.word parts).render.toList = .ok (parts.map (Node.reread g)) := by
  obtain ⟨new, shown, hparts, hspelled, _, _, hagain⟩ := fragments_again h
  have hparts : parts = new := by simpa using hparts
  have hspelled : Node.spelled new = shown := by simpa using hspelled
  subst hparts
  rw [Node.render_word_toList, hspelled]
  have hread := hagain program' g hg
    (fun rest => ⟨position'.line, position'.column + (shown.length - rest.length)⟩) []
  rwa [List.reverse_nil, List.nil_append] at hread

/-- A word without programs is rendered to the text that it was read from. -/
theorem parse_render {program : ProgramParser} {position : Position} {text : List Char}
    {parts : List Node} (h : parse program position text = .ok parts)
    (hnone : parts.flatMap Node.programs = []) : (Node.word parts).render.toList = text := by
  obtain ⟨new, shown, hparts, hspelled, _, hsame, _⟩ := fragments_again h
  have hparts : parts = new := by simpa using hparts
  have hspelled : Node.spelled new = shown := by simpa using hspelled
  subst hparts
  rw [Node.render_word_toList, hspelled, hsame hnone]

theorem head_render {program : ProgramParser} {position : Position} {text : List Char}
    {parts : List Node} (h : parse program position text = .ok parts) :
    (Node.word parts).render.toList.head? = text.head? := by
  obtain ⟨new, shown, hparts, hspelled, hhead, _, _⟩ := fragments_again h
  have hparts : parts = new := by simpa using hparts
  have hspelled : Node.spelled new = shown := by simpa using hspelled
  subst hparts
  rw [Node.render_word_toList, hspelled, hhead]

end Word

namespace Node

theorem render_rereadExpansion {g : Program → Program} {n : Node}
    (h : ∀ body ∈ n.substituted, Program.render (g body) = Program.render body) :
    (n.rereadExpansion g).render = n.render := by
  cases n with
  | substitution body =>
      rw [rereadExpansion]
      cases harithmetic : Word.arithmeticText? (Program.render body).toList with
      | none =>
          have hbody := h body (by simp [substituted])
          simp only [Program.render] at hbody
          simp [render, hbody]
      | some expression =>
          have hbody := Word.arithmeticText?_eq_some harithmetic
          apply String.toList_inj.mp
          simp only [Program.render] at hbody
          simp [render, hbody]
  | _ => rfl

theorem spelled_map {f : Node → Node} {parts : List Node}
    (h : ∀ n ∈ parts, (f n).render = n.render) : spelled (parts.map f) = spelled parts := by
  induction parts with
  | nil => rfl
  | cons n rest ih =>
      rw [List.map_cons, spelled_cons, spelled_cons, h n (by simp),
        ih (fun m hm => h m (by simp [hm]))]

/-- Reading the programs of a fragment again keeps its text if it keeps theirs. -/
theorem render_reread {g : Program → Program} {n : Node}
    (h : ∀ body ∈ n.programs, Program.render (g body) = Program.render body) :
    (n.reread g).render = n.render := by
  cases n with
  | quoted parts =>
      have hparts : ∀ n ∈ parts, (n.rereadExpansion g).render = n.render := by
        intro n hn
        refine render_rereadExpansion (fun body hbody => h body ?_)
        exact List.mem_flatMap.mpr ⟨n, hn, hbody⟩
      apply String.toList_inj.mp
      rw [reread, render_quoted_toList, render_quoted_toList, spelled_map hparts]
  | substitution body =>
      exact render_rereadExpansion (n := .substitution body) h
  | _ => rfl

theorem render_word_reread {g : Program → Program} {parts : List Node}
    (h : ∀ body ∈ parts.flatMap Node.programs, Program.render (g body) = Program.render body) :
    (Node.word (parts.map (Node.reread g))).render = (Node.word parts).render := by
  have hparts : ∀ n ∈ parts, (n.reread g).render = n.render := by
    intro n hn
    refine render_reread (fun body hbody => h body ?_)
    exact List.mem_flatMap.mpr ⟨n, hn, hbody⟩
  apply String.toList_inj.mp
  rw [render_word_toList, render_word_toList, spelled_map hparts]

/-! ## Words that stay reserved words -/

theorem dollar_mem_substituted {n : Node} (h : n.substituted ≠ []) : '$' ∈ n.render.toList := by
  cases n with
  | substitution body => simp [render]
  | _ => exact absurd rfl h

theorem dollar_mem_programs {n : Node} (h : n.programs ≠ []) : '$' ∈ n.render.toList := by
  cases n with
  | quoted parts =>
      obtain ⟨body, hbody⟩ := List.exists_mem_of_ne_nil _ h
      obtain ⟨n, hn, hbody⟩ := List.mem_flatMap.mp hbody
      have hdollar := dollar_mem_substituted (List.ne_nil_of_mem hbody)
      rw [render_quoted_toList]
      have hspelled : '$' ∈ spelled parts := List.mem_flatMap.mpr ⟨n, hn, hdollar⟩
      simp [hspelled]
  | substitution body => exact dollar_mem_substituted h
  | _ => exact absurd rfl h

end Node

theorem Token.dollar_not_mem (token : Token) : '$' ∉ token.text.toList := by
  cases token <;> decide

namespace Word

theorem fragments_plain (program : ProgramParser) (place : List Char → Position)
    {text : List Char} (htext : ∀ c ∈ text, isPlain c = true) (letters : List Char)
    (found : List Node) :
    fragments program place letters found text =
      .ok (flush (text.reverse ++ letters) found).reverse := by
  induction text generalizing letters with
  | nil => rw [fragments.eq_def]; rfl
  | cons c rest ih =>
      have hc := htext c (by simp)
      have hrest := ih (fun d hd => htext d (by simp [hd])) (c :: letters)
      rw [fragments.eq_def]
      split <;> simp_all [isPlain]

theorem parse_plain (program : ProgramParser) (position : Position) {text : String}
    (hne : text.toList ≠ []) (htext : ∀ c ∈ text.toList, isPlain c = true) :
    parse program position text.toList = .ok [.literal text] := by
  rw [parse, fragments_plain program _ htext]
  simp [flush, hne]

/-- A word spells a reserved word where its text does. -/
theorem reserved?_render {program : ProgramParser} {position : Position} {text : String}
    {parts : List Node} (h : parse program position text.toList = .ok parts) :
    Token.reserved? (Node.word parts).render = Token.reserved? text := by
  by_cases hnone : parts.flatMap Node.programs = []
  · rw [String.toList_inj.mp (parse_render h hnone)]
  · have hrender : Token.reserved? (Node.word parts).render = none := by
      cases hreserved : Token.reserved? (Node.word parts).render with
      | none => rfl
      | some token =>
          obtain ⟨body, hbody⟩ := List.exists_mem_of_ne_nil _ hnone
          obtain ⟨n, hn, hbody⟩ := List.mem_flatMap.mp hbody
          have hdollar := Node.dollar_mem_programs (List.ne_nil_of_mem hbody)
          have hspelled : '$' ∈ (Node.word parts).render.toList := by
            rw [Node.render_word_toList]
            exact List.mem_flatMap.mpr ⟨n, hn, hdollar⟩
          rw [← Token.reserved?_text hreserved] at hspelled
          exact absurd hspelled token.dollar_not_mem
    rw [hrender]
    cases hreserved : Token.reserved? text with
    | none => rfl
    | some token =>
        have hmem : token ∈ Token.reservedWords := List.mem_of_find?_eq_some hreserved
        obtain ⟨hne, hplain, _⟩ := Token.standsAlone hmem
        rw [← Token.reserved?_text hreserved, parse_plain program position hne hplain] at h
        cases h
        exact absurd rfl hnone

/-- A word may start a command again where its text might. -/
theorem mayStart_render {program : ProgramParser} {position : Position} {text : String}
    {parts : List Node} (h : parse program position text.toList = .ok parts)
    (htext : mayStart text = true) : mayStart (Node.word parts).render = true := by
  unfold mayStart
  rw [reserved?_render h]
  exact htext

end Word

end Conch.Syntax
