import Conch.Proofs.Words.Scanning
import Conch.Proofs.Tree.Layout
import Conch.Syntax.Word
import Mathlib.Data.List.TakeWhile

/-!
# Reading a word again

The fragments of a word spell the text that they were read from, except that the body
of a command substitution is spelled by its rendering.  Such a text divides into the
same fragments again, provided that the parenthesis after each rendered body is the
one that closes it (`Program.closes`) and that the body is read again.  A rendered body
that is itself in parentheses is read as an arithmetic expression, whose text is the
same.
-/

namespace Conch.Syntax

/-- The parenthesis after the rendering of a program is taken for the end of it. -/
def Program.closes (program : Program) : Bool :=
  match (Program.render program).toList with
  | '(' :: text =>
      match Delimited.split '(' ')' ('(' :: text ++ [')']) with
      | .ok (body, rest) => body == '(' :: text && rest.isEmpty
      | .error _ => false
  | text => Substitution.split (text ++ [')']) == some (text, [])

namespace Node

/-- The texts of some fragments in a row. -/
def spelled (parts : List Node) : List Char := parts.flatMap (fun n => n.render.toList)

@[simp] theorem spelled_nil : spelled [] = [] := rfl

@[simp] theorem spelled_cons (n : Node) (parts : List Node) :
    spelled (n :: parts) = n.render.toList ++ spelled parts := rfl

@[simp] theorem spelled_append (first second : List Node) :
    spelled (first ++ second) = spelled first ++ spelled second := by
  simp [spelled]

theorem renderMore_empty_toList (written : String) (parts : List Node) :
    (renderMore "" written parts).toList = written.toList ++ spelled parts := by
  induction parts generalizing written with
  | nil => simp [renderMore]
  | cons n rest ih => simp [renderMore, ih]

theorem renderList_empty_toList (parts : List Node) :
    (renderList "" parts).toList = spelled parts := by
  cases parts with
  | nil => rfl
  | cons n rest => rw [renderList, renderMore_empty_toList]; rfl

theorem render_word_toList (parts : List Node) :
    (Node.word parts).render.toList = spelled parts := renderList_empty_toList parts

theorem render_quoted_toList (parts : List Node) :
    (Node.quoted parts).render.toList = '"' :: (spelled parts ++ ['"']) := by
  simp [render, renderList_empty_toList]

/-- The program that a fragment substitutes. -/
def substituted : Node → List Program
  | .substitution body => [body]
  | _ => []

/-- The programs that a fragment substitutes, those in a quoted stretch included. -/
def programs : Node → List Program
  | .quoted parts => parts.flatMap substituted
  | n => n.substituted

/-- The programs that a word substitutes. -/
def bodies : Node → List Program
  | .word parts => parts.flatMap programs
  | _ => []

@[simp] theorem bodies_word (parts : List Node) :
    (word parts).bodies = parts.flatMap programs := rfl

/-- How an expansion is read again when a substituted program is read as `g` gives. -/
def rereadExpansion (g : Program → Program) : Node → Node
  | .substitution body =>
      match Word.arithmeticText? (Program.render body).toList with
      | some expression => .arithmetic (String.ofList expression)
      | none => .substitution (g body)
  | n => n

def reread (g : Program → Program) : Node → Node
  | .quoted parts => .quoted (parts.map (rereadExpansion g))
  | n => n.rereadExpansion g

end Node

namespace Word

/-- The program closes where it is rendered to, and is read again as `g` gives. -/
def Reparses (parse : ProgramParser) (g : Program → Program) (program : Program) : Prop :=
  program.closes = true ∧ parse (Program.render program).toList = .ok (g program)

/-! ## The forms of an expansion -/

section Forms

variable {parse : ProgramParser} {place : List Char → Position}

theorem expansion_doubled (inside : List Char) :
    expansion parse place ('(' :: '(' :: inside) =
      match Delimited.split '(' ')' ('(' :: inside) with
      | .error cause => fail place ('$' :: '(' :: '(' :: inside) cause
      | .ok (body, rest) =>
          match arithmeticText? body with
          | some expression => .ok (some (.arithmetic (String.ofList expression), rest))
          | none => substitution parse body rest := rfl

theorem expansion_single {inside : List Char} (h : ∀ text, inside ≠ '(' :: text) :
    expansion parse place ('(' :: inside) =
      match Substitution.split inside with
      | none => fail place ('$' :: '(' :: inside) (.missingClose ')')
      | some (body, rest) => substitution parse body rest := by
  rw [expansion.eq_def]
  split
  · rename_i text heq
    exact absurd (List.cons.inj heq).2 (h text)
  · rename_i heq
    obtain rfl := (List.cons.inj heq).2
    rfl
  · rename_i heq
    exact absurd (List.cons.inj heq).1 (by decide)
  · rename_i hne _ heq
    exact absurd (List.cons.inj heq).1.symm hne
  · rename_i heq
    cases heq

theorem expansion_braces (inside : List Char) :
    expansion parse place ('\x7b' :: inside) =
      match Delimited.split '\x7b' '\x7d' inside with
      | .error cause => fail place ('$' :: '\x7b' :: inside) cause
      | .ok (body, rest) => .ok (some (.parameter false (String.ofList body), rest)) := rfl

theorem expansion_name {c : Char} (hparen : c ≠ '(') (hbrace : c ≠ '\x7b') (rest : List Char) :
    expansion parse place (c :: rest) =
      if isNameStart c then
        .ok (some (.parameter true (String.ofList (c :: rest.takeWhile isNameChar)),
          rest.dropWhile isNameChar))
      else if isSpecialParameter c then .ok (some (.parameter true (String.singleton c), rest))
      else .ok none := by
  rw [expansion.eq_def]
  split
  · rename_i heq
    exact absurd (List.cons.inj heq).1 hparen
  · rename_i heq
    exact absurd (List.cons.inj heq).1 hparen
  · rename_i heq
    exact absurd (List.cons.inj heq).1 hbrace
  · rename_i heq
    obtain ⟨rfl, rfl⟩ := List.cons.inj heq
    rfl
  · rename_i heq
    cases heq

end Forms

theorem arithmeticText?_eq_none {text : List Char} (h : ∀ inside, text ≠ '(' :: inside) :
    arithmeticText? text = none := by
  unfold arithmeticText?
  split
  · rename_i inside
    exact absurd rfl (h inside)
  · rfl

theorem substitution_again {parse : ProgramParser} {g : Program → Program} {body : Program}
    (h : Reparses parse g body) (place : List Char → Position) (rest : List Char) :
    expansion parse place ('(' :: ((Program.render body).toList ++ ')' :: rest)) =
      .ok (some ((Node.substitution body).rereadExpansion g, rest)) := by
  obtain ⟨hcloses, hparse⟩ := h
  unfold Program.closes at hcloses
  rw [Node.rereadExpansion]
  generalize (Program.render body).toList = text at hcloses hparse ⊢
  split at hcloses
  · rename_i inside
    have hclosed : Delimited.split '(' ')' ('(' :: inside ++ [')']) = .ok ('(' :: inside, []) := by
      split at hcloses
      · rename_i found more hfound
        simp only [Bool.and_eq_true, beq_iff_eq, List.isEmpty_iff] at hcloses
        rw [hfound, hcloses.1, hcloses.2]
      · cases hcloses
    have hsplit := Delimited.split_again hclosed rest
    simp only [List.cons_append] at hsplit ⊢
    simp only [expansion_doubled, hsplit]
    cases arithmeticText? ('(' :: inside) with
    | some expression => rfl
    | none => simp [substitution, hparse]
  · rename_i hparen
    have hsplit := Substitution.split_again (eq_of_beq hcloses) rest
    have hinside : ∀ inside, text ++ ')' :: rest ≠ '(' :: inside := by
      intro inside heq
      cases text with
      | nil => simp at heq
      | cons c others => exact hparen others (by rw [(List.cons.inj heq).1])
    simp only [expansion_single hinside, hsplit, arithmeticText?_eq_none hparen, substitution,
      hparse]

theorem substitution_eq_ok {parse : ProgramParser} {source rest rest' : List Char} {n : Node}
    (h : substitution parse source rest = .ok (some (n, rest'))) :
    ∃ program, n = .substitution program ∧ parse source = .ok program ∧ rest' = rest := by
  unfold substitution at h
  split at h
  · cases h
  · cases h
    exact ⟨_, rfl, by assumption, rfl⟩

/-- What is needed of an expansion to read it again before any rest with the same front. -/
def Again (n : Node) (rest : List Char) : Prop :=
  ∃ shown, n.render.toList = '$' :: shown ∧
    (∀ g, n.reread g = n.rereadExpansion g) ∧ n.programs = n.substituted ∧
    ∀ (parse' : ProgramParser) (g : Program → Program),
      (∀ body ∈ n.substituted, Reparses parse' g body) →
        ∀ (place' : List Char → Position) (rest' : List Char), rest'.head? = rest.head? →
          expansion parse' place' (shown ++ rest') = .ok (some (n.rereadExpansion g, rest'))

theorem again_substitution (program : Program) (rest : List Char) :
    Again (.substitution program) rest := by
  refine ⟨'(' :: ((Program.render program).toList ++ [')']), ?_, fun _ => rfl, rfl, ?_⟩
  · simp [Node.render, Program.render]
  · intro parse' g hg place' rest' _
    have hread := substitution_again (hg program (by simp [Node.substituted])) place' rest'
    simpa using hread

theorem arithmeticText?_eq_some {body expression : List Char}
    (h : arithmeticText? body = some expression) : body = '(' :: (expression ++ [')']) := by
  unfold arithmeticText? at h
  split at h
  · rename_i text
    split at h
    · rename_i hlast
      cases h
      obtain ⟨front, rfl⟩ := List.getLast?_eq_some_iff.mp hlast
      simp
    · cases h
  · cases h

/-- A name ends again before a rest with the same front. -/
theorem span_again {p : Char → Bool} {text rest : List Char}
    (h : rest.head? = (text.dropWhile p).head?) :
    (text.takeWhile p ++ rest).takeWhile p = text.takeWhile p ∧
      (text.takeWhile p ++ rest).dropWhile p = rest := by
  have hall : ∀ c ∈ text.takeWhile p, p c = true := fun c hc => List.mem_takeWhile_imp hc
  have hstop : rest.takeWhile p = [] ∧ rest.dropWhile p = rest := by
    cases rest with
    | nil => simp
    | cons c rest =>
        have hc := List.head?_dropWhile_not p text
        rw [← h] at hc
        have hc : p c = false := by simpa using hc
        simp [List.takeWhile, List.dropWhile, hc]
  rw [List.takeWhile_append_of_pos hall, List.dropWhile_append_of_pos hall, hstop.1, hstop.2]
  simp

theorem expansion_again {parse : ProgramParser} {place : List Char → Position}
    {text rest : List Char} {n : Node} (h : expansion parse place text = .ok (some (n, rest))) :
    Again n rest := by
  rcases text with _ | ⟨c, text⟩
  · cases h
  · by_cases hparen : c = '('
    · subst hparen
      by_cases hdoubled : ∃ inside, text = '(' :: inside
      · obtain ⟨inside, rfl⟩ := hdoubled
        rw [expansion_doubled] at h
        split at h
        · cases h
        · rename_i body after hsplit
          split at h
          · rename_i expression hexpression
            cases h
            have hbody := arithmeticText?_eq_some hexpression
            refine ⟨'(' :: (body ++ [')']), ?_, fun _ => rfl, rfl, ?_⟩
            · simp [Node.render, hbody]
            · intro parse' g _ place' rest' _
              have hagain := Delimited.split_again hsplit rest'
              rw [hbody] at hagain hexpression
              simp only [List.cons_append, List.append_assoc, List.nil_append] at hagain hexpression
              simp only [hbody, List.cons_append, List.append_assoc, List.nil_append,
                expansion_doubled, hagain, hexpression]
              rfl
          · obtain ⟨program, rfl, _, rfl⟩ := substitution_eq_ok h
            exact again_substitution program rest
      · have hsingle : ∀ inside, text ≠ '(' :: inside := fun inside heq => hdoubled ⟨inside, heq⟩
        rw [expansion_single hsingle] at h
        split at h
        · cases h
        · obtain ⟨program, rfl, _, rfl⟩ := substitution_eq_ok h
          exact again_substitution program rest
    · by_cases hbrace : c = '\x7b'
      · subst hbrace
        rw [expansion_braces] at h
        split at h
        · cases h
        · rename_i body after hsplit
          cases h
          refine ⟨'\x7b' :: (body ++ ['\x7d']), ?_, fun _ => rfl, rfl, ?_⟩
          · simp [Node.render]
          · intro parse' g _ place' rest' _
            have hagain := Delimited.split_again hsplit rest'
            simp only [List.cons_append, List.append_assoc, List.nil_append, expansion_braces,
              hagain]
            rfl
      · rw [expansion_name hparen hbrace] at h
        split at h
        · rename_i hname
          cases h
          refine ⟨c :: text.takeWhile isNameChar, by simp [Node.render], fun _ => rfl, rfl, ?_⟩
          intro parse' g _ place' rest' hrest
          obtain ⟨htake, hdrop⟩ := span_again hrest
          rw [List.cons_append, expansion_name hparen hbrace, if_pos hname, htake, hdrop]
          rfl
        · split at h
          · rename_i hname hspecial
            cases h
            refine ⟨[c], by simp [Node.render], fun _ => rfl, rfl, ?_⟩
            intro parse' g _ place' rest' _
            rw [List.singleton_append, expansion_name hparen hbrace, if_neg hname, if_pos hspecial]
            rfl
          · cases h

theorem expansion_none {parse parse' : ProgramParser} {place place' : List Char → Position}
    {text text' : List Char} (h : expansion parse place text = .ok none)
    (hfront : text'.head? = text.head?) : expansion parse' place' text' = .ok none := by
  rcases text with _ | ⟨c, text⟩
  · rw [List.head?_nil, List.head?_eq_none_iff] at hfront
    rw [hfront]
    rfl
  · obtain ⟨rest', rfl⟩ : ∃ rest', text' = c :: rest' := by
      cases text' with
      | nil => cases hfront
      | cons d rest' =>
          cases hfront
          exact ⟨rest', rfl⟩
    by_cases hparen : c = '('
    · subst hparen
      by_cases hdoubled : ∃ inside, text = '(' :: inside
      · obtain ⟨inside, rfl⟩ := hdoubled
        rw [expansion_doubled] at h
        split at h
        · cases h
        · split at h
          · cases h
          · unfold substitution at h
            split at h <;> cases h
      · rw [expansion_single (fun inside heq => hdoubled ⟨inside, heq⟩)] at h
        split at h
        · cases h
        · unfold substitution at h
          split at h <;> cases h
    · by_cases hbrace : c = '\x7b'
      · subst hbrace
        rw [expansion_braces] at h
        split at h <;> cases h
      · rw [expansion_name hparen hbrace] at h ⊢
        split at h
        · cases h
        · split at h
          · cases h
          · rename_i hname hspecial
            rw [if_neg hname, if_neg hspecial]

/-- An expansion without a program is rendered to the text it was read from. -/
theorem expansion_shown {parse : ProgramParser} {place : List Char → Position}
    {text rest : List Char} {n : Node} (h : expansion parse place text = .ok (some (n, rest)))
    (hn : n.substituted = []) : n.render.toList ++ rest = '$' :: text := by
  rcases text with _ | ⟨c, text⟩
  · cases h
  · by_cases hparen : c = '('
    · subst hparen
      by_cases hdoubled : ∃ inside, text = '(' :: inside
      · obtain ⟨inside, rfl⟩ := hdoubled
        rw [expansion_doubled] at h
        split at h
        · cases h
        · rename_i body after hsplit
          split at h
          · rename_i expression hexpression
            cases h
            have hbody := arithmeticText?_eq_some hexpression
            have htext := Delimited.split_eq_ok hsplit
            rw [hbody] at htext
            simp [Node.render, htext]
          · obtain ⟨program, rfl, _, _⟩ := substitution_eq_ok h
            cases hn
      · rw [expansion_single (fun inside heq => hdoubled ⟨inside, heq⟩)] at h
        split at h
        · cases h
        · obtain ⟨program, rfl, _, _⟩ := substitution_eq_ok h
          cases hn
    · by_cases hbrace : c = '\x7b'
      · subst hbrace
        rw [expansion_braces] at h
        split at h
        · cases h
        · rename_i body after hsplit
          cases h
          simp [Node.render, Delimited.split_eq_ok hsplit]
      · rw [expansion_name hparen hbrace] at h
        split at h
        · cases h
          simp [Node.render]
        · split at h
          · cases h
            simp [Node.render]
          · cases h

/-! ## The fragments of a quoted stretch -/

section Equations

variable {parse : ProgramParser} {place : List Char → Position} {letters : List Char}
  {found : List Node}

theorem quotedFragments_end (rest : List Char) :
    quotedFragments parse place letters found ('"' :: rest) =
      .ok ((flush letters found).reverse, '"' :: rest) := by
  rw [quotedFragments.eq_def]
  rfl

theorem quotedFragments_escape (c : Char) (rest : List Char) :
    quotedFragments parse place letters found ('\\' :: c :: rest) =
      quotedFragments parse place (c :: '\\' :: letters) found rest := by
  rw [quotedFragments.eq_def]
  rfl

theorem quotedFragments_dollar (rest : List Char) :
    quotedFragments parse place letters found ('$' :: rest) =
      match expansion parse place rest with
      | .error e => .error e
      | .ok none => quotedFragments parse place ('$' :: letters) found rest
      | .ok (some (n, after)) => quotedFragments parse place [] (n :: flush letters found) after := by
  rw [quotedFragments]
  split <;> (rename_i h; simp only [h])

theorem quotedFragments_letter {c : Char} (hquote : c ≠ '"') (hslash : c ≠ '\\') (hdollar : c ≠ '$')
    (rest : List Char) :
    quotedFragments parse place letters found (c :: rest) =
      quotedFragments parse place (c :: letters) found rest := by
  rw [quotedFragments.eq_def]
  split <;> simp_all

end Equations

theorem flush_eq (letters : List Char) (found : List Node) :
    flush letters found = flush letters [] ++ found := by
  unfold flush
  split <;> rfl

@[simp] theorem reverse_flush (letters : List Char) :
    (flush letters []).reverse = flush letters [] := by
  unfold flush
  split <;> rfl

@[simp] theorem spelled_flush (letters : List Char) :
    Node.spelled (flush letters []) = letters.reverse := by
  unfold flush
  split
  · simp_all
  · simp [Node.render]

@[simp] theorem substituted_flush (letters : List Char) :
    (flush letters []).flatMap Node.substituted = [] := by
  unfold flush
  split <;> rfl

@[simp] theorem rereadExpansion_flush (g : Program → Program) (letters : List Char) :
    (flush letters []).map (Node.rereadExpansion g) = flush letters [] := by
  unfold flush
  split <;> rfl

/-- A quoted stretch is read again from the texts of its fragments. -/
theorem quotedFragments_again {parse : ProgramParser} {place : List Char → Position}
    {letters text rest : List Char} {found nodes : List Node}
    (h : quotedFragments parse place letters found text = .ok (nodes, '"' :: rest)) :
    ∃ new shown, nodes = found.reverse ++ new ∧ Node.spelled new = letters.reverse ++ shown ∧
      (shown ++ ['"']).head? = text.head? ∧
      (new.flatMap Node.substituted = [] → shown ++ '"' :: rest = text) ∧
      ∀ (parse' : ProgramParser) (g : Program → Program),
        (∀ body ∈ new.flatMap Node.substituted, Reparses parse' g body) →
          ∀ (place' : List Char → Position) (found' : List Node) (rest' : List Char),
            quotedFragments parse' place' letters found' (shown ++ '"' :: rest') =
              .ok (found'.reverse ++ new.map (Node.rereadExpansion g), '"' :: rest') := by
  have hfront : ∀ (shown rest : List Char), (shown ++ '"' :: rest).head? = (shown ++ ['"']).head? := by
    intro shown rest
    cases shown <;> rfl
  fun_induction quotedFragments parse place letters found text with
  | case1 => cases h
  | case2 letters found rest' =>
      cases h
      refine ⟨flush letters [], [], ?_, by simp, rfl, by simp, ?_⟩
      · rw [flush_eq, List.reverse_append, reverse_flush]
      · intro parse' g _ place' found' rest'
        rw [List.nil_append, quotedFragments_end, flush_eq, List.reverse_append, reverse_flush,
          rereadExpansion_flush]
  | case3 => cases h
  | case4 letters found c rest' ih =>
      obtain ⟨new, shown, hnodes, hspelled, _, hsame, hagain⟩ := ih h
      refine ⟨new, '\\' :: c :: shown, hnodes, by simp [hspelled], rfl,
        fun hnew => by simp [← hsame hnew], ?_⟩
      intro parse' g hg place' found' rest'
      rw [List.cons_append, List.cons_append, quotedFragments_escape]
      exact hagain parse' g hg place' found' rest'
  | case5 => cases h
  | case6 letters found rest' hnone ih =>
      obtain ⟨new, shown, hnodes, hspelled, hhead, hsame, hagain⟩ := ih h
      refine ⟨new, '$' :: shown, hnodes, by simp [hspelled], rfl,
        fun hnew => by simp [← hsame hnew], ?_⟩
      intro parse' g hg place' found' more
      have hnone' : expansion parse' place' (shown ++ '"' :: more) = .ok none :=
        expansion_none hnone (by rw [hfront, hhead])
      rw [List.cons_append, quotedFragments_dollar, hnone']
      exact hagain parse' g hg place' found' more
  | case7 letters found rest' n after hsome ih =>
      obtain ⟨new, shown, hnodes, hspelled, hhead, hsame, hagain⟩ := ih h
      obtain ⟨nshown, hrender, _, _, hnagain⟩ := expansion_again hsome
      refine ⟨flush letters [] ++ n :: new, '$' :: (nshown ++ shown), ?_, ?_, rfl, ?_, ?_⟩
      · rw [hnodes, flush_eq]
        simp
      · simp [hrender, hspelled]
      · intro hnone
        rw [List.flatMap_append, List.flatMap_cons] at hnone
        obtain ⟨hn, hnew⟩ : n.substituted = [] ∧ new.flatMap Node.substituted = [] := by
          simpa using hnone
        have hshown := expansion_shown hsome hn
        rw [← hsame hnew, hrender] at hshown
        simpa using hshown
      · intro parse' g hg place' found' more
        have hn := hnagain parse' g (fun body hbody => hg body (by simp [hbody])) place'
          (shown ++ '"' :: more) (by rw [hfront, hhead])
        have hnew := hagain parse' g (fun body hbody => hg body (by
          rw [List.flatMap_append, List.flatMap_cons]
          simp [hbody])) place'
          (n.rereadExpansion g :: flush letters found') more
        rw [List.cons_append, quotedFragments_dollar, List.append_assoc, hn]
        simp only [hnew]
        rw [flush_eq]
        simp
  | case8 letters found c rest' hquote hend hescape hdollar ih =>
      obtain ⟨new, shown, hnodes, hspelled, _, hsame, hagain⟩ := ih h
      refine ⟨new, c :: shown, hnodes, by simp [hspelled], rfl,
        fun hnew => by simp [← hsame hnew], ?_⟩
      intro parse' g hg place' found' more
      have hslash : c ≠ '\\' := by
        rintro rfl
        cases rest' with
        | nil => exact hend rfl rfl
        | cons d more => exact hescape d more rfl rfl
      rw [List.cons_append, quotedFragments_letter hquote hslash hdollar]
      exact hagain parse' g hg place' found' more

end Word

end Conch.Syntax
