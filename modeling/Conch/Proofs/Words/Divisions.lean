import Conch.Proofs.Words.Expressions
import Conch.Proofs.Words.Fragments

/-!
# Words with regular fragments

Three passes find the ends of the expansions in a word: the lexer, the scan and the parser of
words.  They agree on a fragment if what is in its braces is bare, what is in its doubled
parentheses is calm and starts no choice, and the program in it does not open with a
parenthesis.  A word of such fragments is regular where it was read, and its rendering is
regular too (`Word.parse_regular`).
-/

namespace Conch.Syntax

/-! ## Fragments -/

namespace Node

/--
The expansion, within double quotes or outside of them, ends where the lexer and the scan take it
to end, before this character.
-/
def isRegularStretch (isQuoted : Bool) (next : Option Char) : Node → Bool
  | .parameter false text => isBare isQuoted .none text.toList
  | .parameter true text => text != "$" || (next != some '(' && next != some '\x7b')
  | .arithmetic text => isCalm false text.toList && decide (Substitution.Caseless text.toList)
  | .substitution body => (Program.render body).toList.head? != some '('
  | _ => true

/-- Each of the fragments is regular before those after it. -/
def areRegular (isRegular : Option Char → Node → Bool) : List Node → Bool
  | [] => true
  | n :: rest => isRegular (spelled rest).head? n && areRegular isRegular rest

def isRegularFragment (next : Option Char) : Node → Bool
  | .quoted parts => areRegular (isRegularStretch true) parts
  | n => n.isRegularStretch false next

/-- The passes over the word agree on its fragments. -/
def isRegular : Node → Bool
  | .word parts => areRegular isRegularFragment parts
  | _ => false

theorem areRegular_flush {isRegular : Option Char → Node → Bool} {letters : List Char}
    {parts : List Node} (h : areRegular isRegular (Word.flush letters [] ++ parts) = true) :
    areRegular isRegular parts = true := by
  unfold Word.flush at h
  split at h
  · exact h
  · exact (Bool.and_eq_true_iff.mp h).2

theorem areRegular_mem {isRegular : Option Char → Node → Bool} {parts : List Node} {n : Node}
    (h : areRegular isRegular parts = true) (hn : n ∈ parts) : ∃ next, isRegular next n = true := by
  induction parts with
  | nil => cases hn
  | cons m rest ih =>
      obtain ⟨hm, hrest⟩ := Bool.and_eq_true_iff.mp h
      rcases List.mem_cons.mp hn with rfl | hn
      · exact ⟨_, hm⟩
      · exact ih hrest hn

theorem areRegular_map {isRegular : Option Char → Node → Bool} {f : Node → Node}
    {parts : List Node} (hrender : ∀ n ∈ parts, (f n).render = n.render)
    (hf : ∀ n ∈ parts, ∀ next, isRegular next n = true → isRegular next (f n) = true)
    (h : areRegular isRegular parts = true) : areRegular isRegular (parts.map f) = true := by
  induction parts with
  | nil => rfl
  | cons n rest ih =>
      obtain ⟨hn, hrest⟩ := Bool.and_eq_true_iff.mp h
      obtain ⟨_, hrenders⟩ := List.forall_mem_cons.mp hrender
      obtain ⟨hfirst, hothers⟩ := List.forall_mem_cons.mp hf
      rw [List.map_cons, areRegular, spelled_map hrenders, hfirst _ hn, ih hrenders hothers hrest]
      rfl

/-! ### Programs in regular fragments -/

section Reread

variable {g : Program → Program} {n : Node} {isQuoted : Bool} {next : Option Char}

theorem rereadExpansion_single {body : Program}
    (h : (Program.render body).toList.head? ≠ some '(') :
    (substitution body).rereadExpansion g = .substitution (g body) := by
  have hnone : Word.arithmeticText? (Program.render body).toList = none :=
    Word.arithmeticText?_eq_none fun inside heq => h (by rw [heq]; rfl)
  simp only [rereadExpansion, hnone]

theorem isRegularStretch_reread
    (hg : ∀ body ∈ n.substituted, Program.render (g body) = Program.render body)
    (h : n.isRegularStretch isQuoted next = true) :
    (n.rereadExpansion g).isRegularStretch isQuoted next = true := by
  cases n with
  | substitution body =>
      have hsingle : (Program.render body).toList.head? ≠ some '(' := by
        simpa [isRegularStretch] using h
      rw [rereadExpansion_single hsingle, isRegularStretch, hg body (by simp [substituted])]
      exact h
  | _ => exact h

theorem isRegularFragment_reread
    (hg : ∀ body ∈ n.programs, Program.render (g body) = Program.render body)
    (h : n.isRegularFragment next = true) : (n.reread g).isRegularFragment next = true := by
  cases n with
  | quoted parts =>
      have hparts : ∀ n ∈ parts, ∀ body ∈ n.substituted,
          Program.render (g body) = Program.render body :=
        fun n hn body hbody => hg body (List.mem_flatMap.mpr ⟨n, hn, hbody⟩)
      exact areRegular_map (fun n hn => render_rereadExpansion (hparts n hn))
        (fun n hn _ => isRegularStretch_reread (hparts n hn)) h
  | substitution body =>
      have hstretch : (substitution body).isRegularStretch false next = true := h
      have hsingle : (Program.render body).toList.head? ≠ some '(' := by
        simpa [isRegularStretch] using hstretch
      have hagain := isRegularStretch_reread (n := substitution body) hg hstretch
      rw [rereadExpansion_single hsingle] at hagain
      change ((substitution body).rereadExpansion g).isRegularFragment next = true
      rw [rereadExpansion_single hsingle]
      exact hagain
  | _ => exact h

/-- A regular word whose programs are read again is regular. -/
theorem isRegular_reread {parts : List Node}
    (hg : ∀ body ∈ (word parts).bodies, Program.render (g body) = Program.render body)
    (h : (word parts).isRegular = true) : (word (parts.map (reread g))).isRegular = true := by
  have hparts : ∀ n ∈ parts, ∀ body ∈ n.programs, Program.render (g body) = Program.render body :=
    fun n hn body hbody => hg body (List.mem_flatMap.mpr ⟨n, hn, hbody⟩)
  exact areRegular_map (fun n hn => render_reread (hparts n hn))
    (fun n hn _ => isRegularFragment_reread (hparts n hn)) h

end Reread

/-- No program in a regular word opens with a parenthesis. -/
theorem isRegular.single {n : Node} {body : Program} (h : n.isRegular = true)
    (hbody : body ∈ n.bodies) : (Program.render body).toList.head? ≠ some '(' := by
  have hstretch : ∀ {n : Node} {isQuoted : Bool} {next : Option Char},
      n.isRegularStretch isQuoted next = true → body ∈ n.substituted →
        (Program.render body).toList.head? ≠ some '(' := by
    intro n isQuoted next hn hbody
    cases n with
    | substitution program =>
        obtain rfl := List.mem_singleton.mp hbody
        simpa [isRegularStretch] using hn
    | _ => cases hbody
  cases n with
  | word parts =>
      obtain ⟨part, hpart, hbody⟩ := List.mem_flatMap.mp hbody
      obtain ⟨next, hregular⟩ := areRegular_mem h hpart
      cases part with
      | quoted inner =>
          obtain ⟨stretch, hmem, hbody⟩ := List.mem_flatMap.mp hbody
          obtain ⟨_, hregular⟩ := areRegular_mem hregular hmem
          exact hstretch hregular hbody
      | substitution program =>
          have hregular : (substitution program).isRegularStretch false next = true := hregular
          exact hstretch hregular hbody
      | _ => cases hbody
  | _ => cases hbody

end Node

/-- What is in braces does not end in a backslash. -/
theorem Bare.endsLone {isQuoted : Bool} {quoting : Delimited.Quoting} {depth : Nat}
    {inner : List Char} (h : Bare isQuoted quoting depth inner) (before after : List Char) :
    Cursor.endsLone (before ++ (inner ++ after)) = Cursor.endsLone after := by
  induction h generalizing before with
  | close => exact Cursor.endsLone_append (by decide) before after
  | @letter _ _ c _ _ _ ih => simpa using ih (before ++ [c])
  | escape _ c _ ih => simpa using ih (before ++ ['\\', c])
  | dollar _ _ _ _ ih => simpa using ih (before ++ ['$'])
  | openSingle _ ih | closeSingle _ ih => simpa using ih (before ++ ['\''])
  | openDouble _ _ ih | closeDouble _ ih => simpa using ih (before ++ ['"'])
  | nested _ ih => simpa using ih (before ++ ['$', '\x7b'])
  | opening _ ih => simpa using ih (before ++ ['\x7b'])
  | closing _ ih => simpa using ih (before ++ ['\x7d'])

namespace Regular

variable {isQuoted : Bool} {next : Option Char} {text rest : List Char}

theorem append {first : List Char} (hfirst : Regular isQuoted (text.head?.or next) first)
    (h : Regular isQuoted next text) : Regular isQuoted next (first ++ text) := by
  generalize hnext : text.head?.or next = middle at hfirst
  induction hfirst with
  | nil => exact h
  | letter hc _ ih => exact .letter hc (ih h hnext)
  | escape hc _ ih => exact .escape hc (ih h hnext)
  | single hinner _ ih =>
      simpa using Regular.single hinner (ih h hnext)
  | double hinner _ _ ih =>
      simpa using Regular.double hinner (ih h hnext)
  | @dollar _ _ inner hparen hbrace _ ih =>
      subst hnext
      rw [← Option.or_assoc, ← List.head?_append] at hparen hbrace
      exact .dollar hparen hbrace (ih h rfl)
  | substitution hbody _ ih =>
      simpa using Regular.substitution hbody (ih h hnext)
  | parameter hinner _ ih =>
      simpa using Regular.parameter hinner (ih h hnext)

/-- A regular text does not end in a backslash. -/
theorem endsLone (h : Regular isQuoted next text) (after : List Char) :
    Cursor.endsLone (text ++ after) = Cursor.endsLone after := by
  induction h with
  | nil => rfl
  | @letter isQuoted _ c _ hc _ ih =>
      have hslash : c ≠ '\\' := by
        rintro rfl
        cases isQuoted <;> cases hc
      rw [List.cons_append, Cursor.endsLone_cons hslash, ih]
  | escape _ _ ih => exact ih
  | @single _ inner text _ _ ih =>
      rw [← ih]
      simpa using Cursor.endsLone_append (c := '\'') (by decide) ('\'' :: inner) (text ++ after)
  | @double _ inner text _ _ _ ih =>
      rw [← ih]
      simpa using Cursor.endsLone_append (c := '"') (by decide) ('"' :: inner) (text ++ after)
  | dollar _ _ _ ih => rw [List.cons_append, Cursor.endsLone_cons (by decide), ih]
  | @substitution _ _ body text _ _ ih =>
      rw [← ih]
      simpa using Cursor.endsLone_append (c := ')') (by decide) ('$' :: '(' :: body) (text ++ after)
  | @parameter _ _ inner text hinner _ ih =>
      rw [← ih]
      simpa using hinner.endsLone ['$', '\x7b'] (text ++ after)

theorem letters (h : ∀ c ∈ text, isMarked isQuoted c = false) : Regular isQuoted next text := by
  induction text with
  | nil => exact .nil
  | cons c text ih =>
      obtain ⟨hc, htext⟩ := List.forall_mem_cons.mp h
      exact .letter hc (ih htext)

end Regular

/-- The lexer reads the text, within double quotes or outside of them, up to its end. -/
def ReadsOn (isQuoted : Bool) (text rest : List Char) : Prop :=
  ∃ seen position finish, Cursor.readWord (Regular.around isQuoted) seen (text ++ rest) position =
    .ok (seen.reverse ++ text, ⟨rest, finish⟩)

namespace ReadsOn

variable {isQuoted : Bool} {text rest : List Char}

/-- A regular piece is read, and the lexer reads on behind it. -/
theorem after (piece : List Char) (hpiece : Regular isQuoted (text ++ rest).head? piece)
    (h : ReadsOn isQuoted (piece ++ text) rest) : ReadsOn isQuoted text rest := by
  obtain ⟨seen, position, finish, hread⟩ := h
  rw [List.append_assoc, hpiece.readWord rfl] at hread
  exact ⟨piece.reverse ++ seen, _, finish, by simpa using hread⟩

theorem open_quotes (h : ReadsOn false ('"' :: text) rest) : ReadsOn true text rest := by
  obtain ⟨seen, position, finish, hread⟩ := h
  have hstep : Cursor.step (Regular.around false) '"' (text ++ rest).head? =
      .one (Regular.around true) := rfl
  rw [List.cons_append, Cursor.readWord_cons, hstep] at hread
  exact ⟨'"' :: seen, _, finish, by simpa using hread⟩

theorem close_quotes (h : ReadsOn true ('"' :: text) rest) : ReadsOn false text rest := by
  obtain ⟨seen, position, finish, hread⟩ := h
  have hstep : Cursor.step (Regular.around true) '"' (text ++ rest).head? =
      .one (Regular.around false) := rfl
  rw [List.cons_append, Cursor.readWord_cons, hstep] at hread
  exact ⟨'"' :: seen, _, finish, by simpa using hread⟩

/-- A dollar sign that the word ends with starts no expansion. -/
theorem dollar_last (h : ReadsOn isQuoted ['$'] rest) :
    rest.head? ≠ some '(' ∧ rest.head? ≠ some '\x7b' := by
  obtain ⟨seen, position, finish, hread⟩ := h
  rw [List.singleton_append] at hread
  refine ⟨fun hparen => ?_, fun hbrace => ?_⟩
  · obtain ⟨more, rfl⟩ := List.head?_eq_some_iff.mp hparen
    rw [Cursor.readWord_cons, Cursor.step_dollar (Regular.around_ne_single isQuoted),
      List.head?_cons, Cursor.dollar] at hread
    simp only [List.tail_cons] at hread
    split at hread
    · cases hread
    · rename_i body after hsplit
      have hless := Substitution.split_length_lt hsplit
      have hlength := Cursor.readWord_length_le hread
      simp only [List.length_cons] at hlength
      omega
  · obtain ⟨more, rfl⟩ := List.head?_eq_some_iff.mp hbrace
    rw [Cursor.readWord_parameter (Regular.around_ne_single isQuoted)] at hread
    have hlength := Cursor.readWord_length_le hread
    simp only [List.length_cons] at hlength
    omega

theorem letter {c : Char} (hc : c ∉ ['\\', '\'', '"', '$'])
    (h : ReadsOn false (c :: text) rest) : isMarked false c = false := by
  cases hboundary : isWordBoundary c with
  | false => simp_all [isMarked, isPlain]
  | true =>
      obtain ⟨seen, position, finish, hread⟩ := h
      have hstop : Cursor.step (Regular.around false) c (text ++ rest).head? = .stop :=
        Cursor.step_boundary hboundary _
      rw [List.cons_append, Cursor.readWord_cons, hstop] at hread
      simp at hread

theorem quotedLetter {c : Char} (hc : c ∉ ['\\', '"', '$']) : isMarked true c = false := by
  simp_all [isMarked, Cursor.Bracket.marks]

/-- A continued line would be left out. -/
theorem escape {c : Char} (h : ReadsOn isQuoted ('\\' :: c :: text) rest) :
    isQuoted = false → c ≠ '\n' := by
  rintro rfl rfl
  obtain ⟨seen, position, finish, hread⟩ := h
  have hjoin : Cursor.step (Regular.around false) '\\' ('\n' :: (text ++ rest)).head? = .join := rfl
  rw [List.cons_append, List.cons_append, Cursor.readWord_cons, hjoin] at hread
  simp only at hread
  split at hread
  · cases hread
  · have hlength := Cursor.readWord_length hread
    simp only [List.length_append, List.length_reverse, List.length_cons, List.tail_cons] at hlength
    omega

/-- A backslash that the word ends with would take the character after it. -/
theorem lastSlash (h : ReadsOn false ['\\'] rest) : rest = [] := by
  obtain ⟨seen, position, finish, hread⟩ := h
  cases rest with
  | nil => rfl
  | cons c rest =>
      exfalso
      by_cases hc : c = '\n'
      · subst hc
        have hjoin : Cursor.step (Regular.around false) '\\' (some '\n') = .join := rfl
        rw [List.singleton_append, Cursor.readWord_cons, List.head?_cons, hjoin] at hread
        simp only at hread
        split at hread
        · cases hread
        · have hlength := Cursor.readWord_length_le hread
          simp only [List.length_cons, List.tail_cons] at hlength
          omega
      · have htwo : Cursor.step (Regular.around false) '\\' (some c) = .two (Regular.around false) :=
          Regular.step_escape fun _ => hc
        rw [List.singleton_append, Cursor.readWord_cons, List.head?_cons, htwo] at hread
        have hlength := Cursor.readWord_length_le hread
        simp only [List.length_cons] at hlength
        omega

end ReadsOn

namespace Word

variable {parse : ProgramParser} {place : List Char → Position}

/-- What is read from a text that opens with a parenthesis is rendered with one. -/
def ProgramParser.KeepsOpening (parse : ProgramParser) : Prop :=
  ∀ source program, parse ('(' :: source) = .ok program →
    (Program.render program).toList.head? = some '('

/-- A program that closes is one regular piece of a word, in its rendering. -/
theorem regular_closed {isQuoted : Bool} {next : Option Char} {body : Program}
    (hbody : (Program.render body).toList.head? ≠ some '(') (h : body.closes = true) :
    Regular isQuoted next (Node.substitution body).render.toList := by
  have hrender : (Node.substitution body).render.toList =
      '$' :: '(' :: ((Program.render body).toList ++ [')']) := by
    simp [Node.render, Program.render]
  rw [hrender]
  unfold Program.closes at h
  split at h
  · rename_i htext
    rw [htext] at hbody
    exact absurd rfl hbody
  · exact .substitution (eq_of_beq h) .nil

theorem isPlain_special {c : Char} (h : isSpecialParameter c = true) (hc : c ≠ '$') :
    isPlain c = true := by
  simp only [isSpecialParameter, Bool.or_eq_true, beq_iff_eq] at h
  rcases h with ((((((h | rfl) | rfl) | rfl) | rfl) | rfl) | rfl) | rfl
  · exact isPlain_of_isNameChar (isNameChar_of_isDigit h)
  all_goals first | exact absurd rfl hc | decide

theorem isMarked_of_isPlain {c : Char} (h : isPlain c = true) (isQuoted : Bool) :
    isMarked isQuoted c = false := by
  cases isQuoted with
  | false => simp [isMarked, h]
  | true =>
      simp only [isPlain, Bool.and_eq_true, bne_iff_ne] at h
      simp_all [isMarked, Cursor.Bracket.marks]

/-- A dollar sign and characters that stand for themselves. -/
theorem regular_dollar {isQuoted : Bool} {next : Option Char} {c : Char} {name : List Char}
    (hname : ∀ d ∈ c :: name, isPlain d = true) (hbrace : c ≠ '\x7b') :
    Regular isQuoted next ('$' :: c :: name) := by
  have hparen : c ≠ '(' := by
    rintro rfl
    exact absurd (hname '(' (by simp)) (by decide)
  exact .dollar (by simpa) (by simpa)
    (Regular.letters fun d hd => isMarked_of_isPlain (hname d hd) isQuoted)

/-- What was read from the piece behind a dollar sign, and is rendered as this text. -/
structure IsExpansion (isQuoted : Bool) (n : Node) (piece shown : List Char) : Prop where
  render : n.render.toList = '$' :: shown
  source : ∀ next, n.isRegularStretch isQuoted next = true → Regular isQuoted next ('$' :: piece)
  rendering : ∀ next, n.isRegularStretch isQuoted next = true →
    (∀ body ∈ n.substituted, Program.closes body = true) → Regular isQuoted next ('$' :: shown)

section

variable {isQuoted : Bool} {next : Option Char}

/-- The piece of a word with a command substitution, and how it is rendered. -/
theorem substitution_regular (hparse : parse.KeepsOpening) {body rest after : List Char} {n : Node}
    (h : substitution parse body rest = .ok (some (n, after)))
    (hsplit : body.head? ≠ some '(' → Substitution.split (body ++ [')']) = some (body, []))
    (hregular : n.isRegularStretch isQuoted next = true) :
    Regular isQuoted next ('$' :: '(' :: (body ++ [')'])) ∧
      ((∀ body ∈ n.substituted, Program.closes body = true) →
        Regular isQuoted next n.render.toList) := by
  obtain ⟨program, rfl, hprogram, _⟩ := substitution_eq_ok h
  have hrender : (Program.render program).toList.head? ≠ some '(' := by
    simpa [Node.isRegularStretch] using hregular
  refine ⟨.substitution (hsplit fun hopen => ?_) .nil, fun hcloses => ?_⟩
  · obtain ⟨source, rfl⟩ := List.head?_eq_some_iff.mp hopen
    exact hrender (hparse source program hprogram)
  · exact regular_closed hrender (hcloses program (by simp [Node.substituted]))

theorem arithmetic_regular {inside body expression rest : List Char}
    (hsplit : Delimited.split '(' ')' inside = .ok (body, rest))
    (hbody : arithmeticText? body = some expression)
    (hregular :
      (Node.arithmetic (String.ofList expression)).isRegularStretch isQuoted next = true) :
    Regular isQuoted next (Node.arithmetic (String.ofList expression)).render.toList := by
  have hbody := arithmeticText?_eq_some hbody
  obtain ⟨hcalm, hcase⟩ : isCalm false expression = true ∧ Substitution.Caseless expression := by
    simpa [Node.isRegularStretch] using hregular
  have hrender : (Node.arithmetic (String.ofList expression)).render.toList =
      '$' :: '(' :: (body ++ [')']) := by
    simp [Node.render, hbody]
  rw [hrender]
  exact .substitution (Substitution.split_arithmetic hsplit hbody hcalm hcase) .nil

theorem braces_regular {inside body rest : List Char}
    (hsplit : Delimited.split '\x7b' '\x7d' inside = .ok (body, rest))
    (hregular : (Node.parameter false (String.ofList body)).isRegularStretch isQuoted next = true) :
    Regular isQuoted next (Node.parameter false (String.ofList body)).render.toList := by
  have hbare : isBare isQuoted .none body = true := by
    simpa [Node.isRegularStretch] using hregular
  have hpiece : Regular isQuoted next ('$' :: '\x7b' :: (body ++ ['\x7d'] ++ [])) :=
    .parameter (bare_of_split hsplit hbare) .nil
  simpa [Node.render] using hpiece

theorem name_regular {c : Char} (hname : isNameStart c = true) (rest : List Char) :
    Regular isQuoted next
      (Node.parameter true (String.ofList (c :: rest.takeWhile isNameChar))).render.toList := by
  have hletters : ∀ d ∈ c :: rest.takeWhile isNameChar, isPlain d = true := by
    refine List.forall_mem_cons.mpr ⟨isPlain_of_isNameChar ?_, fun d hd => ?_⟩
    · exact isNameChar_of_isNameStart hname
    · exact isPlain_of_isNameChar (List.mem_takeWhile_imp hd)
  have hbrace : c ≠ '\x7b' := by
    rintro rfl
    exact absurd hname (by decide)
  have hpiece : Regular isQuoted next ('$' :: c :: rest.takeWhile isNameChar) :=
    regular_dollar hletters hbrace
  simpa [Node.render] using hpiece

theorem special_regular {c : Char} (hspecial : isSpecialParameter c = true)
    (hregular : (Node.parameter true (String.singleton c)).isRegularStretch isQuoted next = true) :
    Regular isQuoted next (Node.parameter true (String.singleton c)).render.toList := by
  have hrender : (Node.parameter true (String.singleton c)).render.toList = ['$', c] := by
    simp [Node.render]
  rw [hrender]
  by_cases hc : c = '$'
  · subst hc
    obtain ⟨hparen, hbrace⟩ : next ≠ some '(' ∧ next ≠ some '\x7b' := by
      simpa [Node.isRegularStretch] using hregular
    exact .dollar (by simp) (by simp) (.dollar (by simpa) (by simpa) .nil)
  · refine regular_dollar (by simpa using isPlain_special hspecial hc) ?_
    rintro rfl
    exact absurd hspecial (by decide)

end

/-- Where no program is substituted the piece is the rendering. -/
theorem isExpansion_of_shown {text after : List Char} {n : Node}
    (h : expansion parse place text = .ok (some (n, after))) (hnone : n.substituted = [])
    {isQuoted : Bool} (hregular : ∀ next, n.isRegularStretch isQuoted next = true →
      Regular isQuoted next n.render.toList) :
    ∃ piece shown, text = piece ++ after ∧ IsExpansion isQuoted n piece shown := by
  obtain ⟨shown, hshown, _⟩ := expansion_again h
  have htext := expansion_shown h hnone
  rw [hshown] at htext hregular
  exact ⟨shown, shown, (List.cons.inj htext).2.symm, hshown, hregular,
    fun next hn _ => hregular next hn⟩

/-- Behind the dollar sign, the piece of the word that an expansion is read from and the one that
it is rendered to. -/
theorem expansion_regular (hparse : parse.KeepsOpening) {text after : List Char} {n : Node}
    (h : expansion parse place text = .ok (some (n, after))) (isQuoted : Bool) :
    ∃ piece shown, text = piece ++ after ∧ IsExpansion isQuoted n piece shown := by
  have hall := h
  obtain ⟨shown, hshown, _⟩ := expansion_again h
  have hbody : ∀ {body rest : List Char}, substitution parse body rest = .ok (some (n, after)) →
      (body.head? ≠ some '(' → Substitution.split (body ++ [')']) = some (body, [])) →
        IsExpansion isQuoted n ('(' :: (body ++ [')'])) shown := fun hsubstitution hsplit =>
    ⟨hshown, fun _ hn => (substitution_regular hparse hsubstitution hsplit hn).1,
      fun _ hn => hshown ▸ (substitution_regular hparse hsubstitution hsplit hn).2⟩
  unfold expansion at h
  split at h
  · split at h
    · cases h
    · rename_i inside _ body rest hsplit
      split at h
      · rename_i expression hexpression
        cases h
        exact isExpansion_of_shown hall rfl fun _ => arithmetic_regular hsplit hexpression
      · -- the doubled parenthesis is one of the program's own
        obtain ⟨_, _, _, rfl⟩ := substitution_eq_ok h
        have htext := Delimited.split_eq_ok hsplit
        refine ⟨'(' :: (body ++ [')']), shown, by simp [htext], hbody h fun hopen => ?_⟩
        cases body with
        | nil => cases htext
        | cons c body =>
            obtain ⟨rfl, _⟩ := List.cons.inj htext
            exact absurd rfl hopen
  · split at h
    · cases h
    · rename_i inside _ body rest hsplit
      obtain ⟨_, _, _, rfl⟩ := substitution_eq_ok h
      exact ⟨'(' :: (body ++ [')']), shown, by simp [Substitution.split_eq_some hsplit],
        hbody h fun _ => Substitution.split_again hsplit []⟩
  · split at h
    · cases h
    · rename_i inside _ body rest hsplit
      cases h
      exact isExpansion_of_shown hall rfl fun _ => braces_regular hsplit
  · split at h
    · rename_i c rest _ _ _ hname
      cases h
      exact isExpansion_of_shown hall rfl fun _ _ => name_regular hname rest
    · split at h
      · rename_i c _ _ _ _ _ hspecial
        cases h
        exact isExpansion_of_shown hall rfl fun _ => special_regular hspecial
      · cases h
  · cases h

/-- Before a character that opens nothing a fragment is as regular as before the end. -/
theorem isRegularStretch_or {n : Node} {isQuoted : Bool} {next : Option Char}
    (other : Option Char) (h : n.isRegularStretch isQuoted next = true)
    (hparen : other ≠ some '(') (hbrace : other ≠ some '\x7b') :
    n.isRegularStretch isQuoted (next.or other) = true := by
  cases next with
  | some c => exact h
  | none =>
      cases n with
      | parameter short text => cases short <;> simp_all [Node.isRegularStretch]
      | _ => exact h

theorem expansion_none_head {text : List Char} (h : expansion parse place text = .ok none) :
    text.head? ≠ some '(' ∧ text.head? ≠ some '\x7b' := by
  refine ⟨fun hparen => ?_, fun hbrace => ?_⟩
  · obtain ⟨inside, rfl⟩ := List.head?_eq_some_iff.mp hparen
    have hsome : ∀ body rest, substitution parse body rest ≠ .ok none := by
      intro body rest hnone
      unfold substitution at hnone
      split at hnone <;> cases hnone
    by_cases hdoubled : ∃ more, inside = '(' :: more
    · obtain ⟨more, rfl⟩ := hdoubled
      rw [expansion_doubled] at h
      split at h
      · cases h
      · split at h
        · cases h
        · exact hsome _ _ h
    · rw [expansion_single fun more heq => hdoubled ⟨more, heq⟩] at h
      split at h
      · cases h
      · exact hsome _ _ h
  · obtain ⟨inside, rfl⟩ := List.head?_eq_some_iff.mp hbrace
    rw [expansion_braces] at h
    split at h <;> cases h

theorem head?_before_quote (inner after rest : List Char) :
    (inner ++ '"' :: after ++ rest).head? = inner.head?.or (some '"') := by
  cases inner <;> rfl

/--
Fragments read behind `letters` from the text before a closing quote, and rendered as `shown`.
Where they are regular, both texts are, and the lexer reads on behind the quote.
-/
structure IsQuotedStretch (after letters : List Char) (new : List Node) (inner shown : List Char) :
    Prop where
  spelled : Node.spelled new = letters.reverse ++ shown
  head : shown.head? = inner.head?
  regular : Node.areRegular (Node.isRegularStretch true) new = true → ∀ rest,
    ReadsOn true (inner ++ '"' :: after) rest → ReadsOn false after rest ∧
      Regular true (some '"') inner ∧
        ((∀ body ∈ new.flatMap Node.substituted, Program.closes body = true) →
          Regular true (some '"') shown)

namespace IsQuotedStretch

variable {after letters inner shown : List Char} {new : List Node}

theorem nil : IsQuotedStretch after letters (flush letters []) [] [] :=
  ⟨by simp, rfl, fun _ _ hread => ⟨hread.close_quotes, .nil, fun _ => .nil⟩⟩

/-- The piece stands for itself. -/
theorem behind (piece : List Char)
    (h : IsQuotedStretch after (piece.reverse ++ letters) new inner shown)
    (hpiece : ∀ {next text}, Regular true next text → Regular true next (piece ++ text)) :
    IsQuotedStretch after letters new (piece ++ inner) (piece ++ shown) where
  spelled := by simpa using h.spelled
  head := by rw [List.head?_append, List.head?_append, h.head]
  regular hnew rest hread := by
    rw [List.append_assoc] at hread
    have hbehind := hread.after piece (by simpa using hpiece .nil)
    obtain ⟨hafter, hinner, hshown⟩ := h.regular hnew rest hbehind
    exact ⟨hafter, hpiece hinner, fun hcloses => hpiece (hshown hcloses)⟩

theorem dollar (h : IsQuotedStretch after ('$' :: letters) new inner shown)
    (hnone : Word.expansion parse place (inner ++ '"' :: after) = .ok none) :
    IsQuotedStretch after letters new ('$' :: inner) ('$' :: shown) where
  spelled := by simpa using h.spelled
  head := rfl
  regular hnew rest hread := by
    obtain ⟨hparen, hbrace⟩ := expansion_none_head hnone
    have hfront := head?_before_quote inner after
    rw [← List.append_nil (inner ++ '"' :: after), hfront] at hparen hbrace
    obtain ⟨hafter, hinner, hshown⟩ := h.regular hnew rest
      (ReadsOn.after ['$'] (.dollar (by rwa [hfront]) (by rwa [hfront]) .nil) hread)
    exact ⟨hafter, .dollar hparen hbrace hinner,
      fun hcloses => .dollar (by rwa [h.head]) (by rwa [h.head]) (hshown hcloses)⟩

theorem expansion (h : IsQuotedStretch after [] new inner shown) {n : Node} {piece text : List Char}
    (hn : IsExpansion true n piece text) :
    IsQuotedStretch after letters (flush letters [] ++ n :: new) ('$' :: (piece ++ inner))
      ('$' :: (text ++ shown)) where
  spelled := by simp [hn.render, h.spelled]
  head := rfl
  regular hnew rest hread := by
    have hspelled : Node.spelled new = shown := by simpa using h.spelled
    obtain ⟨hstretch, hnew⟩ := Bool.and_eq_true_iff.mp (Node.areRegular_flush hnew)
    rw [hspelled, h.head] at hstretch
    have hstretch := isRegularStretch_or (some '"') hstretch (by decide) (by decide)
    have hfirst := hn.source _ hstretch
    rw [List.cons_append, List.append_assoc] at hread
    obtain ⟨hafter, hinner, hshown⟩ := h.regular hnew rest
      (ReadsOn.after ('$' :: piece) (by rwa [head?_before_quote]) hread)
    refine ⟨hafter, hfirst.append hinner, fun hcloses => ?_⟩
    rw [List.flatMap_append, List.flatMap_cons] at hcloses
    have hfirst := hn.rendering _ hstretch fun body hbody => hcloses body (by simp [hbody])
    rw [← h.head] at hfirst
    exact hfirst.append (hshown fun body hbody => hcloses body (by simp [hbody]))

end IsQuotedStretch

theorem quotedFragments_regular (hparse : parse.KeepsOpening) {letters text after more : List Char}
    {found nodes : List Node}
    (h : quotedFragments parse place letters found text = .ok (nodes, more))
    (hmore : more = '"' :: after) :
    ∃ new inner shown, nodes = found.reverse ++ new ∧ text = inner ++ '"' :: after ∧
      IsQuotedStretch after letters new inner shown := by
  fun_induction quotedFragments parse place letters found text with
  | case1 =>
      cases h
      cases hmore
  | case2 letters found rest =>
      cases h
      cases hmore
      refine ⟨flush letters [], [], [], ?_, rfl, .nil⟩
      rw [flush_eq, List.reverse_append, reverse_flush]
  | case3 =>
      cases h
      cases hmore
  | case4 letters found c rest ih =>
      obtain ⟨new, inner, shown, hnodes, rfl, hrest⟩ := ih h
      exact ⟨new, '\\' :: c :: inner, '\\' :: c :: shown, hnodes, rfl,
        hrest.behind ['\\', c] (.escape Bool.noConfusion)⟩
  | case5 => cases h
  | case6 letters found rest hnone ih =>
      obtain ⟨new, inner, shown, hnodes, rfl, hrest⟩ := ih h
      exact ⟨new, '$' :: inner, '$' :: shown, hnodes, rfl, hrest.dollar hnone⟩
  | case7 letters found rest n rest' hsome ih =>
      obtain ⟨new, inner, shown, hnodes, rfl, hrest⟩ := ih h
      obtain ⟨piece, text, rfl, hn⟩ := expansion_regular hparse hsome true
      refine ⟨flush letters [] ++ n :: new, '$' :: (piece ++ inner), '$' :: (text ++ shown), ?_,
        by simp, hrest.expansion hn⟩
      rw [hnodes, flush_eq]
      simp
  | case8 letters found c rest hquotes hend hescape hdollar ih =>
      obtain ⟨new, inner, shown, hnodes, rfl, hrest⟩ := ih h
      have hslash : c ≠ '\\' := by
        rintro rfl
        cases hbehind : inner ++ '"' :: after with
        | nil => simp at hbehind
        | cons d behind => exact hescape d behind rfl hbehind
      have hletter : isMarked true c = false := ReadsOn.quotedLetter (by simp_all)
      exact ⟨new, c :: inner, c :: shown, hnodes, rfl,
        hrest.behind [c] (.letter hletter)⟩

/-- A dollar sign that starts no expansion is followed by nothing that opens one. -/
theorem lone_dollar {text rest : List Char} (hnone : expansion parse place text = .ok none)
    (hread : ReadsOn false ('$' :: text) rest) :
    text.head?.or rest.head? ≠ some '(' ∧ text.head?.or rest.head? ≠ some '\x7b' := by
  cases text with
  | nil => exact hread.dollar_last
  | cons c text => exact expansion_none_head hnone

/-- An expansion is not a quoted stretch. -/
theorem stretch_of_dollar {n : Node} {shown : List Char} (h : n.render.toList = '$' :: shown) :
    n.programs = n.substituted ∧
      ∀ next, n.isRegularFragment next = n.isRegularStretch false next := by
  cases n with
  | quoted parts =>
      rw [Node.render_quoted_toList] at h
      exact absurd (List.cons.inj h).1 (by decide)
  | _ => exact ⟨rfl, fun _ => rfl⟩

/-- An expansion at the end of the word is as regular where the word stands. -/
theorem isRegularStretch_rest {text after rest : List Char} {n : Node}
    (h : expansion parse place text = .ok (some (n, after)))
    (hn : n.isRegularStretch false after.head? = true) (hread : ReadsOn false ('$' :: text) rest) :
    n.isRegularStretch false (after.head?.or rest.head?) = true := by
  cases after with
  | cons c after => exact hn
  | nil =>
      by_cases hdollar : n = .parameter true "$"
      · subst hdollar
        obtain rfl : text = ['$'] := by
          simpa [Node.render] using (expansion_shown h rfl).symm
        have hlast : ReadsOn false ['$'] rest :=
          ReadsOn.after ['$'] (.dollar (by simp) (by simp) .nil) hread
        simpa [Node.isRegularStretch] using hlast.dollar_last
      · cases n with
        | parameter short name =>
            cases short with
            | false => exact hn
            | true =>
                have hname : name ≠ "$" := fun heq => hdollar (by rw [heq])
                simp [Node.isRegularStretch, hname]
        | _ => exact hn

/--
Fragments read behind `letters` from the rest of a word, and rendered as `shown`.  Where they are
regular, the rest is regular before what comes after the word, and the rendering before anything
that opens no expansion.
-/
structure IsRest (letters : List Char) (new : List Node) (text shown : List Char) : Prop where
  spelled : Node.spelled new = letters.reverse ++ shown
  head : shown.head? = text.head?
  source : Node.areRegular Node.isRegularFragment new = true → ∀ rest, ReadsOn false text rest →
    rest ≠ [] → Regular false rest.head? text
  rendering : Node.areRegular Node.isRegularFragment new = true → ∀ rest,
    ReadsOn false text rest → (∀ body ∈ new.flatMap Node.programs, Program.closes body = true) →
      Cursor.endsLone shown = false → ∀ next, next ≠ some '(' → next ≠ some '\x7b' →
        Regular false next shown

namespace IsRest

variable {letters text shown : List Char} {new : List Node}

theorem nil : IsRest letters (flush letters []) [] [] :=
  ⟨by simp, rfl, fun _ _ _ _ => .nil, fun _ _ _ _ _ _ _ _ => .nil⟩

theorem lastSlash : IsRest letters (flush ('\\' :: letters) []) ['\\'] ['\\'] :=
  ⟨by simp, rfl, fun _ _ hread hrest => absurd hread.lastSlash hrest,
    fun _ _ _ _ hends => absurd hends (by decide)⟩

/-- The piece stands for itself. -/
theorem behind (piece : List Char) (h : IsRest (piece.reverse ++ letters) new text shown)
    (hpiece : ∀ rest, ReadsOn false (piece ++ text) rest → ∀ next text, Regular false next text →
      Regular false next (piece ++ text)) :
    IsRest letters new (piece ++ text) (piece ++ shown) where
  spelled := by simpa using h.spelled
  head := by rw [List.head?_append, List.head?_append, h.head]
  source hnew rest hread hrest := by
    have hpiece := hpiece rest hread
    have hbehind := hread.after piece (by simpa using hpiece _ [] .nil)
    exact hpiece _ _ (h.source hnew rest hbehind hrest)
  rendering hnew rest hread hcloses hends next hparen hbrace := by
    have hpiece := hpiece rest hread
    have halone : ∀ next, Regular false next piece := fun next => by simpa using hpiece next [] .nil
    rw [(halone none).endsLone] at hends
    exact hpiece _ _ (h.rendering hnew rest (hread.after piece (halone _)) hcloses hends next hparen
      hbrace)

theorem dollar (h : IsRest ('$' :: letters) new text shown)
    (hnone : Word.expansion parse place text = .ok none) :
    IsRest letters new ('$' :: text) ('$' :: shown) where
  spelled := by simpa using h.spelled
  head := rfl
  source hnew rest hread hrest := by
    obtain ⟨hparen, hbrace⟩ := lone_dollar hnone hread
    have hbehind := ReadsOn.after ['$'] (.dollar (by rwa [List.head?_append])
      (by rwa [List.head?_append]) .nil) hread
    exact .dollar hparen hbrace (h.source hnew rest hbehind hrest)
  rendering hnew rest hread hcloses hends next hparen' hbrace' := by
    obtain ⟨hparen, hbrace⟩ := lone_dollar hnone hread
    have hbehind := ReadsOn.after ['$'] (.dollar (by rwa [List.head?_append])
      (by rwa [List.head?_append]) .nil) hread
    rw [Cursor.endsLone_cons (by decide)] at hends
    refine .dollar ?_ ?_ (h.rendering hnew rest hbehind hcloses hends next hparen' hbrace')
    all_goals
      rw [h.head]
      cases text with
      | nil => assumption
      | cons c text => assumption

theorem expansion (h : IsRest [] new text shown) {n : Node} {piece spelling : List Char}
    (hn : IsExpansion false n piece spelling)
    (hsome : Word.expansion parse place (piece ++ text) = .ok (some (n, text))) :
    IsRest letters (flush letters [] ++ n :: new) ('$' :: (piece ++ text))
      ('$' :: (spelling ++ shown)) := by
  obtain ⟨hprograms, hfragment⟩ := stretch_of_dollar hn.render
  have hregular : Node.areRegular Node.isRegularFragment (flush letters [] ++ n :: new) = true →
      n.isRegularStretch false text.head? = true ∧
        Node.areRegular Node.isRegularFragment new = true := by
    intro hnew
    obtain ⟨hstretch, hnew⟩ := Bool.and_eq_true_iff.mp (Node.areRegular_flush hnew)
    have hspelled : Node.spelled new = shown := by simpa using h.spelled
    rw [hspelled, h.head, hfragment] at hstretch
    exact ⟨hstretch, hnew⟩
  have hsource : ∀ rest, n.isRegularStretch false text.head? = true →
      ReadsOn false ('$' :: (piece ++ text)) rest →
        Regular false (text.head?.or rest.head?) ('$' :: piece) ∧ ReadsOn false text rest := by
    intro rest hstretch hread
    have hfirst := hn.source _ (isRegularStretch_rest hsome hstretch hread)
    exact ⟨hfirst, ReadsOn.after ('$' :: piece) (by rwa [List.head?_append]) hread⟩
  refine ⟨by simp [hn.render, h.spelled], rfl, fun hnew rest hread hrest => ?_,
    fun hnew rest hread hcloses hends next hparen hbrace => ?_⟩
  · obtain ⟨hstretch, hnew⟩ := hregular hnew
    obtain ⟨hfirst, hbehind⟩ := hsource rest hstretch hread
    exact hfirst.append (h.source hnew rest hbehind hrest)
  · obtain ⟨hstretch, hnew⟩ := hregular hnew
    obtain ⟨_, hbehind⟩ := hsource rest hstretch hread
    rw [List.flatMap_append, List.flatMap_cons, hprograms] at hcloses
    have hfirst := hn.rendering _ (isRegularStretch_or _ hstretch hparen hbrace)
      fun body hbody => hcloses body (by simp [hbody])
    rw [← h.head] at hfirst
    have hends := (hfirst.endsLone shown).symm.trans hends
    exact hfirst.append (h.rendering hnew rest hbehind
      (fun body hbody => hcloses body (by simp [hbody])) hends next hparen hbrace)

theorem quoted (h : IsRest [] new text shown) {parts : List Node} {inner spelling : List Char}
    (hparts : IsQuotedStretch text [] parts inner spelling) :
    IsRest letters (flush letters [] ++ .quoted parts :: new) ('"' :: (inner ++ '"' :: text))
      ('"' :: (spelling ++ '"' :: shown)) := by
  have hinside : Node.spelled parts = spelling := by simpa using hparts.spelled
  refine ⟨by simp [Node.render_quoted_toList, hinside, h.spelled], rfl,
    fun hnew rest hread hrest => ?_, fun hnew rest hread hcloses hends next hparen hbrace => ?_⟩
  · obtain ⟨hstretch, hnew⟩ := Bool.and_eq_true_iff.mp (Node.areRegular_flush hnew)
    obtain ⟨hafter, hinner, _⟩ := hparts.regular hstretch rest hread.open_quotes
    exact .double hinner (h.source hnew rest hafter hrest)
  · obtain ⟨hstretch, hnew⟩ := Bool.and_eq_true_iff.mp (Node.areRegular_flush hnew)
    obtain ⟨hafter, _, hquoted⟩ := hparts.regular hstretch rest hread.open_quotes
    rw [List.flatMap_append, List.flatMap_cons] at hcloses
    have hquote : '"' ≠ '\\' := by decide
    have hends := (Cursor.endsLone_append hquote ('"' :: spelling) shown).symm.trans hends
    exact .double (hquoted fun body hbody => hcloses body (by simp [Node.programs, hbody]))
      (h.rendering hnew rest hafter (fun body hbody => hcloses body (by simp [hbody])) hends next
        hparen hbrace)

end IsRest

theorem fragments_regular (hparse : parse.KeepsOpening) {letters text : List Char}
    {found nodes : List Node} (h : fragments parse place letters found text = .ok nodes) :
    ∃ new shown, nodes = found.reverse ++ new ∧ IsRest letters new text shown := by
  fun_induction fragments parse place letters found text with
  | case1 letters found =>
      cases h
      refine ⟨flush letters [], [], ?_, .nil⟩
      rw [flush_eq, List.reverse_append, reverse_flush]
  | case2 => cases h
  | case3 => cases h
  | case4 letters found rest parts after hquoted hafter ih =>
      obtain ⟨new, shown, hnodes, hrest⟩ := ih h
      obtain ⟨after, rfl⟩ : ∃ more, after = '"' :: more := by
        rcases quotedFragments_rest hquoted with rfl | hmore
        · exact absurd rfl hafter
        · exact hmore
      obtain ⟨parts, inner, spelling, rfl, rfl, hparts⟩ :=
        quotedFragments_regular hparse hquoted rfl
      refine ⟨flush letters [] ++ .quoted parts :: new, '"' :: (spelling ++ '"' :: shown), ?_,
        hrest.quoted hparts⟩
      rw [hnodes, flush_eq]
      simp
  | case5 letters found =>
      cases h
      refine ⟨flush ('\\' :: letters) [], ['\\'], ?_, .lastSlash⟩
      rw [flush_eq, List.reverse_append, reverse_flush]
  | case6 letters found c rest ih =>
      obtain ⟨new, shown, hnodes, hrest⟩ := ih h
      exact ⟨new, '\\' :: c :: shown, hnodes, hrest.behind ['\\', c]
        fun _ hread _ _ => .escape hread.escape⟩
  | case7 => cases h
  | case8 letters found rest inner after hafter ih =>
      obtain ⟨new, shown, hnodes, hrest⟩ := ih h
      have hinner : '\'' ∉ inner := fun hmem => by
        simpa using List.mem_takeWhile_imp hmem
      have htext : rest = inner ++ '\'' :: after.tail := (span_quote hafter).symm
      have hletters : '\'' :: inner.reverseAux ('\'' :: letters) =
          ('\'' :: (inner ++ ['\''])).reverse ++ letters := by
        simp [List.reverseAux_eq]
      rw [hletters] at hrest
      have hquoted := hrest.behind ('\'' :: (inner ++ ['\''])) fun _ _ next text htext => by
        simpa using Regular.single hinner htext
      rw [htext]
      exact ⟨new, '\'' :: (inner ++ '\'' :: shown), hnodes, by simpa using hquoted⟩
  | case9 => cases h
  | case10 letters found rest hnone ih =>
      obtain ⟨new, shown, hnodes, hrest⟩ := ih h
      exact ⟨new, '$' :: shown, hnodes, hrest.dollar hnone⟩
  | case11 letters found rest n after hsome ih =>
      obtain ⟨new, shown, hnodes, hrest⟩ := ih h
      obtain ⟨piece, text, rfl, hn⟩ := expansion_regular hparse hsome false
      refine ⟨flush letters [] ++ n :: new, '$' :: (text ++ shown), ?_, hrest.expansion hn hsome⟩
      rw [hnodes, flush_eq]
      simp
  | case12 letters found c rest hquotes hend hescape hquote hdollar ih =>
      obtain ⟨new, shown, hnodes, hrest⟩ := ih h
      have hslash : c ≠ '\\' := by
        rintro rfl
        cases rest with
        | nil => exact hend rfl rfl
        | cons d more => exact hescape d more rfl rfl
      exact ⟨new, c :: shown, hnodes, hrest.behind [c]
        fun _ hread _ _ => .letter (hread.letter (by simp_all))⟩

/--
A word of regular fragments is regular where it is read, and where the programs in it close, its
rendering is regular too.
-/
theorem parse_regular (hparse : parse.KeepsOpening) {position : Position} {text rest : List Char}
    {parts : List Node} (h : Word.parse parse position text = .ok parts)
    (hregular : (Node.word parts).isRegular = true) (hread : ReadsOn false text rest) :
    (rest ≠ [] → Regular false rest.head? text) ∧
      ((∀ body ∈ (Node.word parts).bodies, Program.closes body = true) →
        Cursor.endsLone (Node.word parts).render.toList = false →
          ∀ next, next ≠ some '(' → next ≠ some '\x7b' →
            Regular false next (Node.word parts).render.toList) := by
  obtain ⟨new, shown, hparts, hrest⟩ := fragments_regular hparse h
  have hparts : parts = new := by simpa using hparts
  have hspelled : Node.spelled new = shown := by simpa using hrest.spelled
  subst hparts
  rw [Node.render_word_toList, hspelled]
  exact ⟨hrest.source hregular rest hread, hrest.rendering hregular rest hread⟩

end Word

end Conch.Syntax
