import Conch.Syntax.Token

/-!
# The extent of a command substitution

Finds the parenthesis that ends the body of a command substitution.  Parentheses
are counted, except that the patterns of a `case` end with a parenthesis of their
own; so the scan follows the reserved words of `case` well enough to know whether
it stands among patterns.  Quotes, comments and nested expansions are skipped.

`Substitution.split` divides a text at that parenthesis; the scan reads one or two
characters at a time and loses none of them (`split_eq_some`).
-/

namespace Conch.Syntax

/-- The characters that end an unquoted word. -/
def isWordBoundary (c : Char) : Bool :=
  c == ' ' || c == '\t' || c == '\n' || c == ';' || c == '&' || c == '|' ||
    c == '(' || c == ')' || c == '<' || c == '>'

namespace Substitution

/-- Where the scan stands with respect to `case` statements. -/
structure Cases where
  /-- How many `case` statements are open. -/
  depth : Nat
  /-- The word `case` was read and its `in` is still to come. -/
  awaitingIn : Bool
  /-- Among patterns: the next closing parenthesis ends them. -/
  inPattern : Bool
  /-- The next word stands where a command starts. -/
  commandStart : Bool
  deriving DecidableEq, Repr

def Cases.start : Cases := ⟨0, false, false, true⟩

/-- After these reserved words a command starts. -/
def opensCommand : Option Token → Bool
  | some .ifWord | some .thenWord | some .elifWord | some .elseWord | some .whileWord
  | some .doWord | some .leftBrace => true
  | _ => false

/-- Takes note of a finished word; a word with quotes or expansions is never reserved. -/
def Cases.word (cases : Cases) (word : Option String) : Cases :=
  let token := word.bind Token.reserved?
  let noted :=
    match token with
    | some .caseWord =>
        if cases.commandStart && !cases.inPattern then
          { cases with depth := cases.depth + 1, awaitingIn := true }
        else cases
    | some .inWord =>
        if cases.awaitingIn then { cases with awaitingIn := false, inPattern := true } else cases
    | some .esacWord =>
        if 0 < cases.depth && (cases.commandStart || cases.inPattern) then
          { cases with depth := cases.depth - 1, inPattern := false }
        else cases
    | _ => cases
  { noted with commandStart := opensCommand token }

/-- The state of the scan inside one substitution body. -/
structure Body where
  /-- Closing parentheses still needed beyond the next one. -/
  unmatched : Nat
  cases : Cases
  /-- The letters of the current word, the last one first. -/
  word : List Char
  /-- The current word has no quotes, escapes or expansions so far. -/
  plain : Bool
  comment : Bool
  deriving DecidableEq, Repr

def Body.start : Body := ⟨0, .start, [], true, false⟩

/-- Closes the current word, if there is one. -/
def Body.endWord (body : Body) : Body :=
  if body.word.isEmpty && body.plain then body
  else
    { body with
      cases := body.cases.word (if body.plain then some (String.ofList body.word.reverse) else none)
      word := []
      plain := true }

/-- The constructs that the scan can be inside of. -/
inductive Frame where
  | body (state : Body)
  | quote
  | string
  | braces (depth : Nat)
  deriving DecidableEq, Repr

/-- What reading one character means for the open constructs. -/
inductive Step where
  /-- The character is read and these constructs are open. -/
  | one (stack : List Frame)
  /-- The character and the one after it are read. -/
  | two (stack : List Frame)
  /-- The character is the parenthesis that ends the whole body. -/
  | close
  deriving DecidableEq, Repr

/-- A word boundary inside a body; `next` is the character after it. -/
def Body.boundary (body : Body) (below : List Frame) (c : Char) (next : Option Char) : Step :=
  let ended := { body with comment := false }.endWord
  let cases := ended.cases
  match c with
  | '(' =>
      .one (.body { ended with
        unmatched := if cases.inPattern then ended.unmatched else ended.unmatched + 1
        cases := { cases with commandStart := true } } :: below)
  | ')' =>
      if cases.inPattern then
        .one (.body { ended with
          cases := { cases with inPattern := false, commandStart := true } } :: below)
      else
        match ended.unmatched, below with
        | 0, [] => .close
        | 0, _ => .one below
        | n + 1, _ => .one (.body { ended with unmatched := n } :: below)
  | ';' =>
      if next = some ';' then
        .two (.body { ended with
          cases := { cases with
            inPattern := cases.inPattern || 0 < cases.depth
            commandStart := true } } :: below)
      else .one (.body { ended with cases := { cases with commandStart := true } } :: below)
  | '\n' | '&' | '|' =>
      .one (.body { ended with cases := { cases with commandStart := true } } :: below)
  | _ => .one (.body ended :: below)

/-- A character inside a body that belongs to a word or starts a comment. -/
def Body.inner (body : Body) (below : List Frame) (c : Char) (next : Option Char) : Step :=
  let marked := Frame.body { body with plain := false }
  match c with
  | '\\' => .two (marked :: below)
  | '\'' => .one (.quote :: marked :: below)
  | '"' => .one (.string :: marked :: below)
  | '$' =>
      match next with
      | some '(' => .two (.body .start :: marked :: below)
      | some '\x7b' => .two (.braces 0 :: marked :: below)
      | _ => .one (marked :: below)
  | '#' =>
      if body.word.isEmpty && body.plain then .one (.body { body with comment := true } :: below)
      else .one (.body { body with word := c :: body.word } :: below)
  | _ => .one (.body { body with word := c :: body.word } :: below)

def step : List Frame → Char → Option Char → Step
  | [], _, _ => .one []
  | .quote :: below, c, _ => .one (if c = '\'' then below else .quote :: below)
  | .string :: below, c, next =>
      match c with
      | '\\' => .two (.string :: below)
      | '"' => .one below
      | '$' =>
          if next = some '(' then .two (.body .start :: .string :: below)
          else .one (.string :: below)
      | _ => .one (.string :: below)
  | .braces depth :: below, c, _ =>
      match c, depth with
      | '\\', _ => .two (.braces depth :: below)
      | '\x7b', _ => .one (.braces (depth + 1) :: below)
      | '\x7d', 0 => .one below
      | '\x7d', n + 1 => .one (.braces n :: below)
      | _, _ => .one (.braces depth :: below)
  | .body body :: below, c, next =>
      if body.comment && c ≠ '\n' then .one (.body body :: below)
      else if isWordBoundary c then body.boundary below c next
      else body.inner below c next

/-- Follows the open constructs in `stack`; `seen` is the body read so far, backwards. -/
def scan : List Frame → List Char → List Char → Option (List Char × List Char)
  | _, _, [] => none
  | stack, seen, c :: rest =>
      match step stack c rest.head? with
      | .one stack => scan stack (c :: seen) rest
      | .two stack =>
          match rest with
          | [] => none
          | d :: rest => scan stack (d :: c :: seen) rest
      | .close => some (seen.reverse, rest)

/-- Divides the text after an opening `$(` into the body and what follows its parenthesis. -/
def split (text : List Char) : Option (List Char × List Char) := scan [.body .start] [] text

theorem Body.boundary_close {body : Body} {below : List Frame} {c : Char} {next : Option Char}
    (h : body.boundary below c next = .close) : c = ')' := by
  unfold Body.boundary at h
  simp only at h
  split at h <;> (try split at h) <;> simp_all

theorem Body.inner_ne_close (body : Body) (below : List Frame) (c : Char) (next : Option Char) :
    body.inner below c next ≠ .close := by
  unfold Body.inner
  simp only
  split <;> (try split) <;> simp

/-- Only a closing parenthesis ends a body. -/
theorem step_close {stack : List Frame} {c : Char} {next : Option Char}
    (h : step stack c next = .close) : c = ')' := by
  match stack with
  | [] => simp [step] at h
  | .quote :: _ => simp [step] at h
  | .string :: _ =>
      simp only [step] at h
      split at h <;> (try split at h) <;> simp_all
  | .braces depth :: _ =>
      simp only [step] at h
      split at h <;> simp_all
  | .body body :: below =>
      simp only [step] at h
      split at h
      · simp at h
      · split at h
        · exact Body.boundary_close h
        · exact absurd h (Body.inner_ne_close body below c next)

/-- The scan loses nothing but the closing parenthesis. -/
theorem scan_eq_some {stack : List Frame} {seen text body rest : List Char}
    (h : scan stack seen text = some (body, rest)) :
    seen.reverse ++ text = body ++ ')' :: rest := by
  fun_induction scan stack seen text with
  | case1 => simp at h
  | case2 stack seen c rest' stack' _ ih => simpa using ih h
  | case3 => simp at h
  | case4 stack seen c stack' _ d rest' ih => simpa using ih h
  | case5 stack seen c rest' hs =>
      simp only [Option.some.injEq, Prod.mk.injEq] at h
      simp [← h.1, ← h.2, step_close hs]

theorem split_eq_some {text body rest : List Char} (h : split text = some (body, rest)) :
    text = body ++ ')' :: rest := by
  simpa using scan_eq_some h

theorem split_length_lt {text body rest : List Char} (h : split text = some (body, rest)) :
    rest.length < text.length := by
  have := congrArg List.length (split_eq_some h)
  simp at this
  omega

end Substitution

end Conch.Syntax
