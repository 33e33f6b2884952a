import Conch.Syntax.ParseError
import Conch.Syntax.Substitution

/-!
# Lexemes

A source text is a sequence of operators, descriptor numbers, newlines and words,
with blanks, comments and line continuations between them.  The text of a word is
kept as written, quotes and expansions included.  `Lexemes.ofText` reads a whole
text and either names the construct that the text leaves open or returns every
lexeme with its place.
-/

namespace Conch.Syntax

inductive LexemeKind where
  | op (token : Token)
  | word
  /-- Digits directly before a redirection operator. -/
  | descriptor
  | newline
  deriving DecidableEq, Repr

structure Lexeme where
  kind : LexemeKind
  text : String
  position : Position
  deriving DecidableEq, Repr

namespace Lexeme

/-- The reserved word that an unquoted word spells. -/
def reserved? (lexeme : Lexeme) : Option Token :=
  match lexeme.kind with
  | .word => Token.reserved? lexeme.text
  | _ => none

/-- The token a lexeme stands for, as an operator or as a reserved word. -/
def token? (lexeme : Lexeme) : Option Token :=
  match lexeme.kind with
  | .op token => some token
  | .word => Token.reserved? lexeme.text
  | _ => none

/-- How a lexeme is named in an error message. -/
def describe (lexeme : Lexeme) : String :=
  match lexeme.kind with
  | .op token => token.text
  | .newline => "newline"
  | .word | .descriptor => lexeme.text

end Lexeme

/-- The lexemes of a text and the place where the text ends. -/
structure Lexemes where
  items : List Lexeme
  finish : Position
  deriving DecidableEq, Repr

/-- The rest of a text and the place where it starts. -/
structure Cursor where
  rest : List Char
  position : Position
  deriving DecidableEq, Repr

namespace Cursor

def start (text : List Char) : Cursor := ⟨text, .start⟩

def fail (cursor : Cursor) (construct : Unclosed) : ParseError :=
  ⟨.unclosed construct, cursor.position⟩

/-- The quotes and expansions that the text of a word is inside of. -/
inductive Bracket where
  | single
  | double
  | braces (depth : Nat)
  deriving DecidableEq, Repr

def Bracket.construct : Bracket → Unclosed
  | single => .singleQuote
  | double => .doubleQuote
  | braces _ => .parameter

/-- What the next character of a word means. -/
inductive Step where
  /-- The word ends before the character. -/
  | stop
  | one (stack : List Bracket)
  /-- The character and the one after it are read together. -/
  | two (stack : List Bracket)
  /-- A backslash before a newline: both are left out. -/
  | join
  /-- A command substitution starts. -/
  | substitution
  deriving DecidableEq, Repr

def dollar (stack : List Bracket) (next : Option Char) : Step :=
  match next with
  | some '(' => .substitution
  | some '\x7b' => .two (.braces 0 :: stack)
  | _ => .one stack

def step : List Bracket → Char → Option Char → Step
  | [], c, next =>
      if isWordBoundary c then .stop
      else
        match c with
        | '\\' => if next = some '\n' then .join else .two []
        | '\'' => .one [.single]
        | '"' => .one [.double]
        | '$' => dollar [] next
        | _ => .one []
  | .single :: below, c, _ => .one (if c = '\'' then below else .single :: below)
  | .double :: below, c, next =>
      match c with
      | '"' => .one below
      | '\\' => .two (.double :: below)
      | '$' => dollar (.double :: below) next
      | _ => .one (.double :: below)
  | .braces depth :: below, c, next =>
      match c, depth with
      | '\\', _ => .two (.braces depth :: below)
      | '\'', _ => .one (.single :: .braces depth :: below)
      | '"', _ => .one (.double :: .braces depth :: below)
      | '$', _ => dollar (.braces depth :: below) next
      | '\x7b', _ => .one (.braces (depth + 1) :: below)
      | '\x7d', 0 => .one below
      | '\x7d', n + 1 => .one (.braces n :: below)
      | _, _ => .one (.braces depth :: below)

/-- Reads the text of a word, collected backwards in `seen`, up to the first character outside
all quotes and expansions that ends a word. -/
def readWord (stack : List Bracket) (seen : List Char) (rest : List Char) (position : Position) :
    Except ParseError (List Char × Cursor) :=
  match rest with
  | [] =>
      match stack with
      | [] => .ok (seen.reverse, ⟨[], position⟩)
      | bracket :: _ => .error ⟨.unclosed bracket.construct, position⟩
  | c :: after =>
      match step stack c after.head? with
      | .stop => .ok (seen.reverse, ⟨c :: after, position⟩)
      | .one stack => readWord stack (c :: seen) after (position.after c)
      | .two stack =>
          match after with
          | [] => readWord stack (c :: seen) [] (position.after c)
          | d :: after => readWord stack (d :: c :: seen) after ((position.after c).after d)
      | .join =>
          let position := (position.after c).after '\n'
          if after.tail.isEmpty then .error ⟨.unclosed .continuation, position⟩
          else readWord stack seen after.tail position
      | .substitution =>
          let position := position.after c
          match _h : Substitution.split after.tail with
          | none => .error ⟨.unclosed .substitution, position⟩
          | some (body, rest) =>
              readWord stack (')' :: body.reverseAux ('(' :: c :: seen)) rest
                (((position.after '(').afterAll body).after ')')
termination_by rest.length
decreasing_by
  all_goals simp_all
  all_goals (try have := Substitution.split_length_lt _h)
  all_goals (try simp at this)
  all_goals omega

/-- Skips blanks and continued lines. -/
def skipBlanks : List Char → Position → Except ParseError Cursor
  | ' ' :: rest, position => skipBlanks rest (position.after ' ')
  | '\t' :: rest, position => skipBlanks rest (position.after '\t')
  | '\\' :: '\n' :: rest, position =>
      let position := (position.after '\\').after '\n'
      if rest.isEmpty then .error ⟨.unclosed .continuation, position⟩
      else skipBlanks rest position
  | rest, position => .ok ⟨rest, position⟩

def operator? : Char → Option Char → Option (Token × Nat)
  | '&', some '&' => some (.andAnd, 2)
  | '|', some '|' => some (.orOr, 2)
  | ';', some ';' => some (.doubleSemicolon, 2)
  | '>', some '>' => some (.greatGreat, 2)
  | '>', some '&' => some (.greatAnd, 2)
  | '<', some '&' => some (.lessAnd, 2)
  | '|', _ => some (.pipe, 1)
  | '&', _ => some (.ampersand, 1)
  | ';', _ => some (.semicolon, 1)
  | '(', _ => some (.leftParen, 1)
  | ')', _ => some (.rightParen, 1)
  | '<', _ => some (.less, 1)
  | '>', _ => some (.great, 1)
  | _, _ => none

/-- The digits at the head of a text, if a redirection operator follows them. -/
def descriptor? (text : List Char) : Option (List Char) :=
  let digits := text.takeWhile Char.isDigit
  match digits, text.dropWhile Char.isDigit with
  | _ :: _, '<' :: _ | _ :: _, '>' :: _ => some digits
  | _, _ => none

/-- The lexeme that starts at a character; a comment has none. -/
def lexeme (c : Char) (rest : List Char) (position : Position) :
    Except ParseError (Option Lexeme × Cursor) :=
  if c = '#' then
    let comment := (c :: rest).takeWhile (· ≠ '\n')
    .ok (none, ⟨(c :: rest).dropWhile (· ≠ '\n'), position.afterAll comment⟩)
  else if c = '\n' then
    .ok (some ⟨.newline, "\n", position⟩, ⟨rest, position.after c⟩)
  else
    match operator? c rest.head? with
    | some (token, size) =>
        .ok (some ⟨.op token, token.text, position⟩,
          ⟨(c :: rest).drop size, position.afterAll ((c :: rest).take size)⟩)
    | none =>
        match descriptor? (c :: rest) with
        | some digits =>
            .ok (some ⟨.descriptor, String.ofList digits, position⟩,
              ⟨(c :: rest).drop digits.length, position.afterAll digits⟩)
        | none =>
            match readWord [] [] (c :: rest) position with
            | .error e => .error e
            | .ok (text, cursor) => .ok (some ⟨.word, String.ofList text, position⟩, cursor)

theorem readWord_length_le {stack : List Bracket} {seen rest : List Char} {position : Position}
    {text : List Char} {cursor : Cursor}
    (h : readWord stack seen rest position = .ok (text, cursor)) :
    cursor.rest.length ≤ rest.length := by
  fun_induction readWord stack seen rest position with
  | case1 => simp_all [← (Prod.mk.inj (Except.ok.inj h)).2]
  | case2 => simp at h
  | case3 => simp [← (Prod.mk.inj (Except.ok.inj h)).2]
  | case4 _ _ _ _ _ _ _ ih => exact Nat.le_succ_of_le (ih h)
  | case5 _ _ _ _ _ _ ih => exact Nat.le_succ_of_le (ih h)
  | case6 _ _ _ _ _ _ _ _ ih => exact Nat.le_succ_of_le (Nat.le_succ_of_le (ih h))
  | case7 => simp at h
  | case8 _ _ _ after _ _ _ _ ih =>
      have := ih h
      simp at this ⊢
      omega
  | case9 => simp at h
  | case10 _ _ _ after _ _ _ body rest hs ih =>
      have := ih h
      have := Substitution.split_length_lt hs
      simp at this ⊢
      omega

/-- A word that starts with a character of words uses up text. -/
theorem readWord_length_lt {seen rest : List Char} {c : Char} {position : Position}
    {text : List Char} {cursor : Cursor} (hc : isWordBoundary c = false)
    (h : readWord [] seen (c :: rest) position = .ok (text, cursor)) :
    cursor.rest.length < (c :: rest).length := by
  rw [readWord] at h
  simp only [List.length_cons]
  split at h
  · rename_i hs
    unfold step dollar at hs
    simp only [hc] at hs
    split at hs
    · simp_all
    · split at hs <;> (try split at hs) <;> simp_all
  · exact Nat.lt_succ_of_le (readWord_length_le h)
  · split at h
    · exact Nat.lt_succ_of_le (Nat.le_trans (readWord_length_le h) (by simp))
    · exact Nat.lt_succ_of_le (Nat.le_trans (readWord_length_le h) (by simp))
  · simp only at h
    split at h
    · simp at h
    · have := readWord_length_le h
      simp at this
      omega
  · simp only at h
    split at h
    · simp at h
    · have := readWord_length_le h
      have := Substitution.split_length_lt (by assumption)
      simp at this
      omega

theorem boundary_of_operator? {c : Char} {next : Option Char} (h : operator? c next = none)
    (hb : isWordBoundary c = true) : c = ' ' ∨ c = '\t' ∨ c = '\n' := by
  simp only [isWordBoundary, Bool.or_eq_true, beq_iff_eq] at hb
  rcases hb with ((((((((hb | hb) | hb) | hb) | hb) | hb) | hb) | hb) | hb) | hb <;> subst hb <;>
    simp_all [operator?] <;> (split at h <;> simp_all)

theorem operator?_size {c : Char} {next : Option Char} {token : Token} {size : Nat}
    (h : operator? c next = some (token, size)) : 0 < size := by
  unfold operator? at h
  split at h <;> simp_all <;> omega

theorem descriptor?_ne_nil {text digits : List Char} (h : descriptor? text = some digits) :
    0 < digits.length := by
  unfold descriptor? at h
  simp only at h
  split at h
  · rename_i hd _
    simp only [Option.some.injEq] at h
    simp [← h, hd]
  · rename_i hd _
    simp only [Option.some.injEq] at h
    simp [← h, hd]
  · simp at h

/-- Reading a lexeme uses up text. -/
theorem lexeme_length_lt {c : Char} {rest : List Char} {position : Position}
    {found : Option Lexeme} {cursor : Cursor} (hb : c ≠ ' ' ∧ c ≠ '\t')
    (h : lexeme c rest position = .ok (found, cursor)) :
    cursor.rest.length < (c :: rest).length := by
  unfold lexeme at h
  split at h
  · rename_i hc
    have hle : (rest.dropWhile (fun x => decide (x ≠ '\n'))).length ≤ rest.length :=
      (List.dropWhile_sublist _).length_le
    simp only [Except.ok.injEq, Prod.mk.injEq] at h
    rw [← h.2, hc]
    simp [List.dropWhile]
    simpa using Nat.lt_succ_of_le hle
  · split at h
    · simp only [Except.ok.injEq, Prod.mk.injEq] at h
      simp [← h.2]
    · rename_i hn
      split at h
      · rename_i token size ho
        have := operator?_size ho
        simp only [Except.ok.injEq, Prod.mk.injEq] at h
        simp [← h.2]; omega
      · rename_i ho
        split at h
        · rename_i digits hd
          have := descriptor?_ne_nil hd
          simp only [Except.ok.injEq, Prod.mk.injEq] at h
          simp [← h.2]; omega
        · split at h
          · simp at h
          · rename_i text cursor' hr
            simp only [Except.ok.injEq, Prod.mk.injEq] at h
            rw [← h.2]
            refine readWord_length_lt ?_ hr
            cases hb' : isWordBoundary c with
            | false => rfl
            | true =>
                have := boundary_of_operator? ho hb'
                simp_all

theorem skipBlanks_spec {text : List Char} {position : Position} {cursor : Cursor}
    (h : skipBlanks text position = .ok cursor) :
    cursor.rest.length ≤ text.length ∧ ∀ c ∈ cursor.rest.head?, c ≠ ' ' ∧ c ≠ '\t' := by
  fun_induction skipBlanks text position with
  | case1 _ _ ih => exact ⟨Nat.le_succ_of_le (ih h).1, (ih h).2⟩
  | case2 _ _ ih => exact ⟨Nat.le_succ_of_le (ih h).1, (ih h).2⟩
  | case3 => simp at h
  | case4 _ _ _ _ ih =>
      exact ⟨Nat.le_succ_of_le (Nat.le_succ_of_le (ih h).1), (ih h).2⟩
  | case5 text position h1 h2 _ =>
      simp only [Except.ok.injEq] at h
      subst h
      refine ⟨Nat.le_refl _, ?_⟩
      intro c hc
      cases text with
      | nil => simp at hc
      | cons d rest =>
          simp only [List.head?_cons, Option.mem_def, Option.some.injEq] at hc
          subst hc
          exact ⟨fun hd => h1 rest (by rw [hd]), fun hd => h2 rest (by rw [hd])⟩

end Cursor

namespace Lexemes

/-- Reads lexemes up to the end of the text, collecting them backwards in `found`. -/
def read (found : List Lexeme) (text : List Char) (position : Position) :
    Except ParseError Lexemes :=
  match _hs : Cursor.skipBlanks text position with
  | .error e => .error e
  | .ok ⟨[], finish⟩ => .ok ⟨found.reverse, finish⟩
  | .ok ⟨c :: rest, position⟩ =>
      match _hl : Cursor.lexeme c rest position with
      | .error e => .error e
      | .ok (none, cursor) => read found cursor.rest cursor.position
      | .ok (some lexeme, cursor) => read (lexeme :: found) cursor.rest cursor.position
termination_by text.length
decreasing_by
  all_goals
    have hskip := Cursor.skipBlanks_spec _hs
    have hread := Cursor.lexeme_length_lt (hskip.2 c rfl) _hl
    exact Nat.lt_of_lt_of_le hread hskip.1

/-- The lexemes of a whole text. -/
def ofText (text : List Char) : Except ParseError Lexemes := read [] text .start

end Lexemes

end Conch.Syntax
