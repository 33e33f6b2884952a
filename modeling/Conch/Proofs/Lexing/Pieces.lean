import Conch.Proofs.Tree.Layout

/-!
# Lexing one piece of a layout

A piece is read as its symbol where the character after it does not run on: a word or
name stops at a word boundary, an operator before a character that would make it
another operator, and digits are a descriptor only before a redirection.
-/

namespace Conch.Syntax

/-- The characters of words that stand for themselves. -/
def isPlain (c : Char) : Bool :=
  !isWordBoundary c && c != '\\' && c != '\'' && c != '"' && c != '$'

theorem ne_of_isNameChar {c d : Char} (hc : isNameChar c = true) (hd : isNameChar d = false) :
    c ≠ d := by
  rintro rfl
  exact Bool.false_ne_true (hd.symm.trans hc)

theorem isPlain_of_isNameChar {c : Char} (h : isNameChar c = true) : isPlain c = true := by
  simp only [isPlain, isWordBoundary, Bool.and_eq_true, Bool.not_eq_true', Bool.or_eq_false_iff,
    bne_iff_ne, beq_eq_false_iff_ne]
  and_intros <;> exact ne_of_isNameChar h (by decide)

theorem isWordBoundary_of_isPlain {c : Char} (h : isPlain c = true) : isWordBoundary c = false := by
  simp only [isPlain, Bool.and_eq_true, Bool.not_eq_true'] at h
  exact h.1.1.1.1

theorem isDigit_of_isNameStart {c : Char} (h : isNameStart c = true) : c.isDigit = false := by
  delta isNameStart Char.isAlpha Char.isUpper Char.isLower at h
  simp only [Bool.or_eq_true, Bool.and_eq_true, decide_eq_true_eq, beq_iff_eq] at h
  simp only [UInt32.le_iff_toNat_le, Char.toNat_val, ge_iff_le] at h
  have hnine : '9'.toNat = 57 := rfl
  have hletters : 'A'.toNat = 65 ∧ 'a'.toNat = 97 ∧ '_'.toNat = 95 := by decide
  rw [Bool.eq_false_iff, ne_eq, Char.isDigit_iff_toNat]
  rcases h with (h | h) | rfl <;> omega

theorem isNameChar_of_isNameStart {c : Char} (h : isNameStart c = true) : isNameChar c = true := by
  rcases Bool.or_eq_true_iff.mp h with h | h
  · simp [isNameChar, Char.isAlphanum, h]
  · simp [isNameChar, h]

theorem isNameChar_of_isDigit {c : Char} (h : c.isDigit = true) : isNameChar c = true := by
  simp [isNameChar, Char.isAlphanum, h]

/-- Characters that stand for themselves, and do not look like a comment. -/
def StandsAlone (text : List Char) : Prop :=
  text ≠ [] ∧ (∀ c ∈ text, isPlain c = true) ∧ text.head? ≠ some '#'

theorem exists_cons_of_isName {text : String} (h : isName text = true) :
    ∃ c others, text.toList = c :: others ∧ isNameStart c = true := by
  unfold isName at h
  split at h
  · cases h
  · rename_i c others hchars
    exact ⟨c, others, hchars, (Bool.and_eq_true_iff.mp h).1⟩

theorem standsAlone_of_isName {text : String} (h : isName text = true) :
    StandsAlone text.toList := by
  unfold isName at h
  cases hchars : text.toList with
  | nil => simp [hchars] at h
  | cons c others =>
      simp only [hchars, Bool.and_eq_true, List.all_eq_true] at h
      obtain ⟨hstart, hothers⟩ := h
      refine ⟨by simp, fun d hd => isPlain_of_isNameChar ?_, ?_⟩
      · rcases List.mem_cons.mp hd with rfl | hd
        · exact isNameChar_of_isNameStart hstart
        · exact hothers d hd
      · intro hcomment
        cases hcomment
        exact absurd hstart (by decide)

theorem Token.standsAlone {token : Token} (h : token ∈ Token.reservedWords) :
    StandsAlone token.text.toList := by
  have hwords : ∀ token ∈ Token.reservedWords, token.text.toList ≠ [] ∧
      token.text.toList.all isPlain = true ∧ token.text.toList.head? ≠ some '#' := by decide
  obtain ⟨hne, hplain, hcomment⟩ := hwords token h
  exact ⟨hne, List.all_eq_true.mp hplain, hcomment⟩

/-- The token is read as itself before this character. -/
def Token.endsBefore (token : Token) (next : Option Char) : Bool :=
  match token with
  | .less => next != some '&'
  | .great => next != some '>' && next != some '&'
  | .semicolon => next != some ';'
  | .ampersand => next != some '&'
  | .pipe => next != some '|'
  | _ => token ∉ Token.reservedWords || next.all isWordBoundary

namespace Cursor

theorem step_plain {c : Char} (h : isPlain c = true) (next : Option Char) :
    step [] c next = .one [] := by
  simp only [isPlain, Bool.and_eq_true, Bool.not_eq_true', bne_iff_ne] at h
  obtain ⟨⟨⟨⟨hboundary, hslash⟩, hquote⟩, hdouble⟩, hdollar⟩ := h
  unfold step
  split <;> simp_all

theorem step_boundary {c : Char} (h : isWordBoundary c = true) (next : Option Char) :
    step [] c next = .stop := by
  unfold step
  split <;> simp_all

/-- Plain characters are read up to a word boundary or the end. -/
theorem readWord_plain {text rest : List Char} (htext : ∀ c ∈ text, isPlain c = true)
    (hrest : rest.head?.all isWordBoundary = true) (seen : List Char) (position : Position) :
    readWord [] seen (text ++ rest) position =
      .ok (seen.reverse ++ text, ⟨rest, position.afterAll text⟩) := by
  induction text generalizing seen position with
  | nil =>
      rw [List.nil_append, readWord.eq_def]
      cases rest with
      | nil => simp
      | cons c rest =>
          have hc : isWordBoundary c = true := by simpa using hrest
          simp only [step_boundary hc]
          simp
  | cons c text ih =>
      rw [List.cons_append, readWord.eq_def]
      simp only [step_plain (htext c (by simp))]
      rw [ih (fun d hd => htext d (by simp [hd]))]
      simp

theorem operator?_of_not_boundary {c : Char} (h : isWordBoundary c = false) (next : Option Char) :
    operator? c next = none := by
  unfold operator?
  split <;> first | rfl | simp [isWordBoundary] at h

theorem descriptor?_of_not_digit {c : Char} (h : c.isDigit = false) (text : List Char) :
    descriptor? (c :: text) = none := by
  simp [descriptor?, List.takeWhile, h]

/-- Digits are no descriptor in a text without redirections before something else. -/
theorem descriptor?_eq_none {text rest : List Char} (htext : ∀ c ∈ text, c ≠ '<' ∧ c ≠ '>')
    (hrest : ∀ c ∈ rest.head?, c.isDigit = false ∧ c ≠ '<' ∧ c ≠ '>') :
    descriptor? (text ++ rest) = none := by
  have hdrop : ∀ c ∈ ((text ++ rest).dropWhile Char.isDigit).head?, c ≠ '<' ∧ c ≠ '>' := by
    induction text with
    | nil =>
        cases rest with
        | nil => simp
        | cons d rest =>
            obtain ⟨hdigit, hne⟩ := hrest d rfl
            simpa [List.dropWhile, hdigit] using hne
    | cons d text ih =>
        by_cases hdigit : d.isDigit = true
        · simpa [List.dropWhile, hdigit] using ih (fun c hc => htext c (by simp [hc]))
        · simpa [List.dropWhile, hdigit] using htext d (by simp)
  unfold descriptor?
  simp only
  split <;> simp_all

theorem lexeme_plain {c : Char} {text rest : List Char}
    (htext : ∀ d ∈ c :: text, isPlain d = true) (hcomment : c ≠ '#')
    (hrest : rest.head?.all isWordBoundary = true)
    (hdescriptor : descriptor? (c :: text ++ rest) = none) (position : Position) :
    lexeme c (text ++ rest) position =
      .ok (some ⟨.word, String.ofList (c :: text), position⟩,
        ⟨rest, position.afterAll (c :: text)⟩) := by
  have hboundary := isWordBoundary_of_isPlain (htext c (by simp))
  have hnewline : c ≠ '\n' := by
    rintro rfl
    simp [isWordBoundary] at hboundary
  have hread := readWord_plain htext hrest [] position
  rw [List.cons_append] at hread hdescriptor
  simp only [lexeme, hcomment, hnewline, if_false, operator?_of_not_boundary hboundary,
    hdescriptor, hread]
  rfl

theorem skipBlanks_blank (rest : List Char) (position : Position) :
    skipBlanks (' ' :: rest) position = skipBlanks rest (position.after ' ') := by
  rfl

theorem skipBlanks_of_ne {c : Char} {rest : List Char} (hblank : c ≠ ' ') (htab : c ≠ '\t')
    (hjoin : c = '\\' → rest.head? ≠ some '\n') (position : Position) :
    skipBlanks (c :: rest) position = .ok ⟨c :: rest, position⟩ := by
  unfold skipBlanks
  split <;> simp_all

end Cursor

namespace Lexemes

/-- The equation of `read` without the proofs that its recursion needs. -/
theorem read_eq (found : List Lexeme) (text : List Char) (position : Position) :
    read found text position =
      match Cursor.skipBlanks text position with
      | .error e => .error e
      | .ok ⟨[], finish⟩ => .ok ⟨found.reverse, finish⟩
      | .ok ⟨c :: rest, position⟩ =>
          match Cursor.lexeme c rest position with
          | .error e => .error e
          | .ok (none, cursor) => read found cursor.rest cursor.position
          | .ok (some lexeme, cursor) => read (lexeme :: found) cursor.rest cursor.position := by
  rw [read.eq_def]
  split
  · rename_i h
    rw [h]
  · rename_i h
    rw [h]
  · rename_i h
    rw [h]
    split <;> (rename_i hlexeme; simp only [hlexeme])

theorem read_blank (found : List Lexeme) (rest : List Char) (position : Position) :
    read found (' ' :: rest) position = read found rest (position.after ' ') := by
  rw [read_eq, read_eq found rest, Cursor.skipBlanks_blank]

/-- A lexeme at the front of a text is read before the rest of the text. -/
theorem read_lexeme {c : Char} {rest : List Char} {position : Position} {lexeme : Lexeme}
    {cursor : Cursor} (hskip : Cursor.skipBlanks (c :: rest) position = .ok ⟨c :: rest, position⟩)
    (hlexeme : Cursor.lexeme c rest position = .ok (some lexeme, cursor)) (found : List Lexeme) :
    read found (c :: rest) position = read (lexeme :: found) cursor.rest cursor.position := by
  rw [read_eq, hskip]
  simp only [hlexeme]

end Lexemes

/-- The text of a piece, before this rest, is read as the symbol of the piece. -/
def Piece.Lexed (piece : Piece) (rest : List Char) : Prop :=
  ∀ (found : List Lexeme) (position : Position), ∃ (items : List Lexeme) (after : Position),
    items.map Lexeme.symbol = piece.symbol?.toList ∧
      Lexemes.read found (piece.text.toList ++ rest) position =
        Lexemes.read (items.reverse ++ found) rest after

namespace Piece

theorem lexed_blank (rest : List Char) : blank.Lexed rest := by
  intro found position
  exact ⟨[], position.after ' ', rfl, Lexemes.read_blank found rest position⟩

/-- Pieces with a symbol are read by reading a lexeme. -/
theorem lexed_of_lexeme {piece : Piece} {s : Symbol} {c : Char} {text rest : List Char}
    (hsymbol : piece.symbol? = some s) (htext : piece.text.toList = c :: text)
    (hskip : ∀ position, Cursor.skipBlanks (c :: (text ++ rest)) position =
      .ok ⟨c :: (text ++ rest), position⟩)
    (hlexeme : ∀ position, ∃ lexeme after, lexeme.symbol = s ∧
      Cursor.lexeme c (text ++ rest) position = .ok (some lexeme, ⟨rest, after⟩)) :
    piece.Lexed rest := by
  intro found position
  obtain ⟨lexeme, after, hs, hread⟩ := hlexeme position
  refine ⟨[lexeme], after, by simp [hsymbol, hs], ?_⟩
  rw [htext]
  exact Lexemes.read_lexeme (hskip position) hread found

/-- A word of plain characters. -/
theorem lexed_plain {piece : Piece} (word : String) {rest : List Char}
    (hpiece : piece.symbol? = some ⟨.word, word⟩) (htext : piece.text = word)
    (hne : word.toList ≠ []) (hplain : ∀ c ∈ word.toList, isPlain c = true)
    (hcomment : word.toList.head? ≠ some '#') (hrest : rest.head?.all isWordBoundary = true)
    (hdescriptor : Cursor.descriptor? (word.toList ++ rest) = none) : piece.Lexed rest := by
  cases hword : word.toList with
  | nil => exact absurd hword hne
  | cons c text =>
      rw [hword] at hplain hcomment hdescriptor
      have hc : isPlain c = true := hplain c (by simp)
      have hboundary := isWordBoundary_of_isPlain hc
      refine lexed_of_lexeme hpiece (by rw [htext, hword]) (fun position => ?_)
        (fun position => ?_)
      · refine Cursor.skipBlanks_of_ne ?_ ?_ ?_ position
        · rintro rfl
          simp [isWordBoundary] at hboundary
        · rintro rfl
          simp [isWordBoundary] at hboundary
        · rintro rfl
          simp [isPlain] at hc
      · refine ⟨_, _, ?_, Cursor.lexeme_plain hplain (by simpa using hcomment) hrest hdescriptor
          position⟩
        simp [Lexeme.symbol, ← hword]

theorem descriptor?_of_digits {digits : List Char} (hne : digits ≠ [])
    (hdigits : ∀ c ∈ digits, c.isDigit = true) {rest : List Char}
    (hrest : rest.head? = some '<' ∨ rest.head? = some '>') :
    Cursor.descriptor? (digits ++ rest) = some digits := by
  obtain ⟨c, others, rfl⟩ := List.exists_cons_of_ne_nil hne
  obtain ⟨d, tail, rfl⟩ : ∃ d tail, rest = d :: tail := by
    cases rest with
    | nil => simp at hrest
    | cons d tail => exact ⟨d, tail, rfl⟩
  have hd : d.isDigit = false := by
    rcases hrest with h | h <;> (simp at h; subst h; decide)
  have htake : (c :: others ++ d :: tail).takeWhile Char.isDigit = c :: others := by
    rw [List.takeWhile_append_of_pos (fun x hx => hdigits x hx)]
    simp [List.takeWhile, hd]
  have hdrop : (c :: others ++ d :: tail).dropWhile Char.isDigit = d :: tail := by
    rw [List.dropWhile_append_of_pos (fun x hx => hdigits x hx)]
    simp [List.dropWhile, hd]
  unfold Cursor.descriptor?
  simp only [htake, hdrop]
  rcases hrest with h | h <;> (simp at h; subst h; rfl)

theorem lexed_number {value : Nat} {rest : List Char}
    (hrest : rest.head? = some '<' ∨ rest.head? = some '>') : (number value).Lexed rest := by
  have hdigits : (toString value).toList = Nat.toDigits 10 value := Nat.toList_repr
  have hall : ∀ c ∈ Nat.toDigits 10 value, c.isDigit = true := fun c hc =>
    Nat.isDigit_of_mem_toDigits (by decide) (by decide) hc
  have hread := descriptor?_of_digits Nat.toDigits_ne_nil hall hrest
  cases htext : Nat.toDigits 10 value with
  | nil => exact absurd htext Nat.toDigits_ne_nil
  | cons c text =>
      rw [htext] at hall hread
      have hc : c.isDigit = true := hall c (by simp)
      refine lexed_of_lexeme rfl (hdigits.trans htext)
        (fun position => ?_) (fun position => ?_)
      · refine Cursor.skipBlanks_of_ne ?_ ?_ ?_ position <;> rintro rfl <;>
          exact absurd hc (by decide)
      · have hspelled : String.ofList (c :: text) = toString value := by
          rw [← htext, ← hdigits, String.ofList_toList]
        have hboundary := isWordBoundary_of_isPlain
          (isPlain_of_isNameChar (isNameChar_of_isDigit hc))
        refine ⟨⟨.descriptor, String.ofList (c :: text), position⟩,
          position.afterAll (c :: text), ?_, ?_⟩
        · simp only [Lexeme.symbol, hspelled]
        · have hcomment : c ≠ '#' := by
            rintro rfl
            exact absurd hc (by decide)
          have hnewline : c ≠ '\n' := by
            rintro rfl
            exact absurd hc (by decide)
          rw [List.cons_append] at hread
          rw [Cursor.lexeme, if_neg hcomment, if_neg hnewline,
            Cursor.operator?_of_not_boundary hboundary]
          simp only [hread]
          simp

theorem operator?_token {token : Token} (htoken : token ∉ Token.reservedWords) {rest : List Char}
    (hrest : token.endsBefore rest.head? = true) :
    ∃ c text, token.text.toList = c :: text ∧
      Cursor.operator? c (text ++ rest).head? = some (token, (c :: text).length) ∧
      c ≠ ' ' ∧ c ≠ '\t' ∧ c ≠ '\\' ∧ c ≠ '#' ∧ c ≠ '\n' := by
  cases token with
  | less =>
      refine ⟨'<', [], by decide, ?_, by decide⟩
      rcases rest with _ | ⟨d, rest⟩ <;> simp_all [Token.endsBefore, Cursor.operator?]
  | great =>
      refine ⟨'>', [], by decide, ?_, by decide⟩
      rcases rest with _ | ⟨d, rest⟩ <;> simp_all [Token.endsBefore, Cursor.operator?]
  | pipe =>
      refine ⟨'|', [], by decide, ?_, by decide⟩
      rcases rest with _ | ⟨d, rest⟩ <;> simp_all [Token.endsBefore, Cursor.operator?]
  | semicolon =>
      refine ⟨';', [], by decide, ?_, by decide⟩
      rcases rest with _ | ⟨d, rest⟩ <;> simp_all [Token.endsBefore, Cursor.operator?]
  | ampersand =>
      refine ⟨'&', [], by decide, ?_, by decide⟩
      rcases rest with _ | ⟨d, rest⟩ <;> simp_all [Token.endsBefore, Cursor.operator?]
  | greatGreat => exact ⟨'>', ['>'], by decide, rfl, by decide⟩
  | lessAnd => exact ⟨'<', ['&'], by decide, rfl, by decide⟩
  | greatAnd => exact ⟨'>', ['&'], by decide, rfl, by decide⟩
  | andAnd => exact ⟨'&', ['&'], by decide, rfl, by decide⟩
  | orOr => exact ⟨'|', ['|'], by decide, rfl, by decide⟩
  | doubleSemicolon => exact ⟨';', [';'], by decide, rfl, by decide⟩
  | leftParen => exact ⟨'(', [], by decide, rfl, by decide⟩
  | rightParen => exact ⟨')', [], by decide, rfl, by decide⟩
  | _ => exact absurd htoken (by decide)

theorem lexed_mark {token : Token} {rest : List Char}
    (hrest : token.endsBefore rest.head? = true) : (mark token).Lexed rest := by
  by_cases htoken : token ∈ Token.reservedWords
  · have hends : rest.head?.all isWordBoundary = true := by
      cases token <;> first | exact hrest | exact absurd htoken (by decide)
    have hdigits : ∀ token ∈ Token.reservedWords,
        token.text.toList.head?.any Char.isDigit = false := by decide
    have hdigit := hdigits token htoken
    obtain ⟨hne, hplain, hcomment⟩ := Token.standsAlone htoken
    refine lexed_plain token.text (by simp [symbol?, Token.symbol, htoken]) rfl hne hplain hcomment
      hends ?_
    cases htext : token.text.toList with
    | nil => exact absurd htext hne
    | cons c text =>
        rw [htext] at hdigit
        exact Cursor.descriptor?_of_not_digit hdigit (text ++ rest)
  · obtain ⟨c, text, htext, hoperator, hblank, htab, hslash, hcomment, hnewline⟩ :=
      operator?_token htoken hrest
    refine lexed_of_lexeme rfl htext (fun position => ?_)
      (fun position => ?_)
    · exact Cursor.skipBlanks_of_ne hblank htab (fun h => absurd h hslash) position
    · refine ⟨⟨.op token, token.text, position⟩, position.afterAll (c :: text), ?_, ?_⟩
      · simp [Lexeme.symbol, Token.symbol, htoken]
      · rw [Cursor.lexeme, if_neg hcomment, if_neg hnewline, hoperator]
        simp

theorem lexed_name {text : String} (htext : isName text = true) {rest : List Char}
    (hrest : rest.head?.all isWordBoundary = true) : (name text).Lexed rest := by
  obtain ⟨c, others, hchars, hstart⟩ := exists_cons_of_isName htext
  obtain ⟨hne, hplain, hcomment⟩ := standsAlone_of_isName htext
  refine lexed_plain text rfl rfl hne hplain hcomment hrest ?_
  rw [hchars]
  exact Cursor.descriptor?_of_not_digit (isDigit_of_isNameStart hstart) (others ++ rest)

end Piece

end Conch.Syntax
