import Conch.Proofs.Lexing.Extents

/-!
# How words are written

Which slices of a text are words, told without the lexer's stack: quotes and expansions have
a grammar of their own (`Bracket.Closes`), and between them a word goes on up to the first
character that ends it (`Written`).  The text of a word is its slice with the continued lines
taken out.  The lexer reads those words and no others (`readWord_iff_written`).
-/

namespace Conch.Syntax

namespace Cursor

/-- The characters that have a meaning inside a bracket. -/
def Bracket.marks : Bracket → List Char
  | single => ['\'']
  | double => ['"', '\\', '$']
  | braces _ => ['\\', '\'', '"', '$', '\x7b', '\x7d']

/--
The text starts inside of an open bracket and goes up to and with the mark that closes it.  What is
open inside is closed again on the way, and the body of a command substitution is taken as a whole.
-/
inductive Bracket.Closes : Bracket → List Char → Prop
  | quote : Closes .single ['\'']
  | doubleQuote : Closes .double ['"']
  | brace : Closes (.braces 0) ['\x7d']
  | letter {bracket : Bracket} {c : Char} {text : List Char} (hc : c ∉ bracket.marks)
      (h : Closes bracket text) : Closes bracket (c :: text)
  | escape {bracket : Bracket} {text : List Char} (hbracket : bracket ≠ .single) (c : Char)
      (h : Closes bracket text) : Closes bracket ('\\' :: c :: text)
  | dollar {bracket : Bracket} {text : List Char} (hbracket : bracket ≠ .single)
      (hparen : text.head? ≠ some '(') (hbrace : text.head? ≠ some '\x7b')
      (h : Closes bracket text) : Closes bracket ('$' :: text)
  | substitution {bracket : Bracket} {body text : List Char} (hbracket : bracket ≠ .single)
      (hbody : Substitution.split (body ++ [')']) = some (body, [])) (h : Closes bracket text) :
      Closes bracket ('$' :: '(' :: (body ++ ')' :: text))
  | parameter {bracket : Bracket} {inner text : List Char} (hbracket : bracket ≠ .single)
      (hinner : Closes (.braces 0) inner) (h : Closes bracket text) :
      Closes bracket ('$' :: '\x7b' :: (inner ++ text))
  | quoted {depth : Nat} {inner text : List Char} (hinner : Closes .single inner)
      (h : Closes (.braces depth) text) : Closes (.braces depth) ('\'' :: (inner ++ text))
  | doubleQuoted {depth : Nat} {inner text : List Char} (hinner : Closes .double inner)
      (h : Closes (.braces depth) text) : Closes (.braces depth) ('"' :: (inner ++ text))
  | opening {depth : Nat} {text : List Char} (h : Closes (.braces (depth + 1)) text) :
      Closes (.braces depth) ('\x7b' :: text)
  | closing {depth : Nat} {text : List Char} (h : Closes (.braces depth) text) :
      Closes (.braces (depth + 1)) ('\x7d' :: text)

/--
A word stands in a text as `slice`, with `rest` behind it, and `value` is the slice without the
continued lines: a backslash and a newline outside of quotes and expansions.  A continued line
needs more text behind it, while a backslash alone may be the last character of a text.
-/
inductive Written : List Char → List Char → List Char → Prop
  | done {rest : List Char} (h : rest.head?.all isWordBoundary = true) : Written [] [] rest
  | letter {c : Char} {slice value rest : List Char} (hboundary : isWordBoundary c = false)
      (hc : c ∉ ['\\', '\'', '"', '$']) (h : Written slice value rest) :
      Written (c :: slice) (c :: value) rest
  | escape {c : Char} {slice value rest : List Char} (hc : c ≠ '\n')
      (h : Written slice value rest) : Written ('\\' :: c :: slice) ('\\' :: c :: value) rest
  | backslash : Written ['\\'] ['\\'] []
  | join {slice value rest : List Char} (hmore : slice ++ rest ≠ [])
      (h : Written slice value rest) : Written ('\\' :: '\n' :: slice) value rest
  | quoted {inner slice value rest : List Char} (hinner : Bracket.single.Closes inner)
      (h : Written slice value rest) :
      Written ('\'' :: (inner ++ slice)) ('\'' :: (inner ++ value)) rest
  | doubleQuoted {inner slice value rest : List Char} (hinner : Bracket.double.Closes inner)
      (h : Written slice value rest) :
      Written ('"' :: (inner ++ slice)) ('"' :: (inner ++ value)) rest
  | dollar {slice value rest : List Char} (hparen : (slice ++ rest).head? ≠ some '(')
      (hbrace : (slice ++ rest).head? ≠ some '\x7b') (h : Written slice value rest) :
      Written ('$' :: slice) ('$' :: value) rest
  | substitution {body slice value rest : List Char}
      (hbody : Substitution.split (body ++ [')']) = some (body, [])) (h : Written slice value rest) :
      Written ('$' :: '(' :: (body ++ ')' :: slice)) ('$' :: '(' :: (body ++ ')' :: value)) rest
  | parameter {inner slice value rest : List Char} (hinner : (Bracket.braces 0).Closes inner)
      (h : Written slice value rest) :
      Written ('$' :: '\x7b' :: (inner ++ slice)) ('$' :: '\x7b' :: (inner ++ value)) rest

/-! ## What is read is written -/

/-- The open brackets are closed in the text, the innermost first, and then the word goes on. -/
def Finishes : List Bracket → List Char → List Char → List Char → Prop
  | [], slice, value, rest => Written slice value rest
  | bracket :: below, slice, value, rest =>
      ∃ inner slice' value', slice = inner ++ slice' ∧ value = inner ++ value' ∧
        bracket.Closes inner ∧ Finishes below slice' value' rest

theorem Bracket.Closes.ne_nil {bracket : Bracket} {inner : List Char} (h : bracket.Closes inner) :
    inner ≠ [] := by
  rintro rfl
  cases h

theorem head?_ne_single {bracket : Bracket} (h : bracket ≠ .single) (below : List Bracket) :
    (bracket :: below).head? ≠ some .single := fun heq => h (Option.some.inj heq)

variable {stack next : List Bracket} {slice value rest : List Char}

/-- An open bracket may have more text in it. -/
theorem finishes_more {bracket : Bracket} {below : List Bracket} (piece : List Char)
    (h : Finishes (bracket :: below) slice value rest)
    (hcloses : ∀ inner, bracket.Closes inner → (slice ++ rest).head? = inner.head? →
      bracket.Closes (piece ++ inner)) :
    Finishes (bracket :: below) (piece ++ slice) (piece ++ value) rest := by
  obtain ⟨inner, slice, value, rfl, rfl, hinner, hbelow⟩ := h
  refine ⟨piece ++ inner, slice, value, by simp, by simp, hcloses inner hinner ?_, hbelow⟩
  rw [List.append_assoc, head?_append_of_ne_nil hinner.ne_nil]

theorem finishes_dollar {below : List Bracket} (hbelow : below.head? ≠ some .single)
    (hstep : dollar below (slice ++ rest).head? = .one next)
    (h : Finishes next slice value rest) : Finishes below ('$' :: slice) ('$' :: value) rest := by
  obtain ⟨rfl, hparen, hbrace⟩ : next = below ∧ (slice ++ rest).head? ≠ some '(' ∧
      (slice ++ rest).head? ≠ some '\x7b' := by
    unfold dollar at hstep
    split at hstep <;> cases hstep
    exact ⟨rfl, by assumption, by assumption⟩
  cases next with
  | nil => exact .dollar hparen hbrace h
  | cons bracket below =>
      refine finishes_more ['$'] h fun inner hinner hhead => ?_
      rw [hhead] at hparen hbrace
      exact .dollar (fun hsingle => hbelow (congrArg some hsingle)) hparen hbrace hinner

theorem step_nil (c : Char) (follower : Option Char) :
    step [] c follower =
      if isWordBoundary c then .stop
      else
        match c with
        | '\\' => if follower = some '\n' then .join else .two []
        | '\'' => .one [.single]
        | '"' => .one [.double]
        | '$' => dollar [] follower
        | _ => .one [] := rfl

theorem finishes_one {c : Char} (hstep : step stack c (slice ++ rest).head? = .one next)
    (h : Finishes next slice value rest) : Finishes stack (c :: slice) (c :: value) rest := by
  match stack with
  | [] =>
      rw [step_nil] at hstep
      split at hstep
      · cases hstep
      · rename_i hboundary
        split at hstep
        · split at hstep <;> cases hstep
        · cases hstep
          obtain ⟨inner, slice, value, rfl, rfl, hinner, hword⟩ := h
          exact .quoted hinner hword
        · cases hstep
          obtain ⟨inner, slice, value, rfl, rfl, hinner, hword⟩ := h
          exact .doubleQuoted hinner hword
        · exact finishes_dollar (by simp) hstep h
        · cases hstep
          exact .letter (by simpa using hboundary) (by simp_all) h
  | .single :: below =>
      cases hstep
      by_cases hc : c = '\''
      · rw [if_pos hc] at h
        exact ⟨['\''], slice, value, by rw [hc]; rfl, by rw [hc]; rfl, .quote, h⟩
      · rw [if_neg hc] at h
        exact finishes_more [c] h fun inner hinner _ =>
          .letter (by simpa [Bracket.marks]) hinner
  | .double :: below =>
      rw [step_double] at hstep
      split at hstep
      · cases hstep
        exact ⟨['"'], slice, value, rfl, rfl, .doubleQuote, h⟩
      · cases hstep
      · exact finishes_dollar (by simp) hstep h
      · cases hstep
        exact finishes_more [c] h fun inner hinner _ =>
          .letter (by simp_all [Bracket.marks]) hinner
  | .braces depth :: below =>
      rw [step_braces] at hstep
      split at hstep
      · cases hstep
      · cases hstep
        obtain ⟨first, slice, value, rfl, rfl, hfirst, h⟩ := h
        exact finishes_more ('\'' :: first) h fun inner hinner _ => .quoted hfirst hinner
      · cases hstep
        obtain ⟨first, slice, value, rfl, rfl, hfirst, h⟩ := h
        exact finishes_more ('"' :: first) h fun inner hinner _ =>
          .doubleQuoted hfirst hinner
      · exact finishes_dollar (by simp) hstep h
      · cases hstep
        obtain ⟨inner, slice, value, rfl, rfl, hinner, h⟩ := h
        exact ⟨'\x7b' :: inner, slice, value, rfl, rfl, .opening hinner, h⟩
      · cases hstep
        exact ⟨['\x7d'], slice, value, rfl, rfl, .brace, h⟩
      · cases hstep
        obtain ⟨inner, slice, value, rfl, rfl, hinner, h⟩ := h
        exact ⟨'\x7d' :: inner, slice, value, rfl, rfl, .closing hinner, h⟩
      · rename_i hslash hquote hquotes hdollar hbrace hzero hsucc
        cases hstep
        refine finishes_more [c] h fun inner hinner _ => .letter ?_ hinner
        have hclose : c ≠ '\x7d' := by
          rintro rfl
          cases depth with
          | zero => exact hzero rfl rfl
          | succ n => exact hsucc n rfl rfl
        simp_all [Bracket.marks]

theorem finishes_brace {below : List Bracket} {d : Char} (hbelow : below.head? ≠ some .single)
    (hstep : dollar below (some d) = .two next) (h : Finishes next slice value rest) :
    Finishes below ('$' :: d :: slice) ('$' :: d :: value) rest := by
  obtain ⟨hbrace, rfl⟩ := dollar_two hstep
  obtain rfl := Option.some.inj hbrace
  obtain ⟨first, slice, value, rfl, rfl, hfirst, h⟩ := h
  cases below with
  | nil => exact .parameter hfirst h
  | cons bracket below =>
      exact finishes_more ('$' :: '\x7b' :: first) h fun inner hinner _ =>
        .parameter (fun hsingle => hbelow (congrArg some hsingle)) hfirst hinner

theorem finishes_two {c d : Char} (hstep : step stack c (some d) = .two next)
    (h : Finishes next slice value rest) :
    Finishes stack (c :: d :: slice) (c :: d :: value) rest := by
  match stack with
  | [] =>
      rw [step_nil] at hstep
      split at hstep
      · cases hstep
      · split at hstep
        · split at hstep
          · cases hstep
          · rename_i hnewline
            cases hstep
            exact .escape (fun hd => hnewline (congrArg some hd)) h
        · cases hstep
        · cases hstep
        · exact finishes_brace (by simp) hstep h
        · cases hstep
  | .single :: below => cases hstep
  | .double :: below =>
      rw [step_double] at hstep
      split at hstep
      · cases hstep
      · cases hstep
        exact finishes_more ['\\', d] h fun inner hinner _ =>
          .escape Bracket.noConfusion d hinner
      · exact finishes_brace (by simp) hstep h
      · cases hstep
  | .braces depth :: below =>
      rw [step_braces] at hstep
      split at hstep
      · cases hstep
        exact finishes_more ['\\', d] h fun inner hinner _ =>
          .escape Bracket.noConfusion d hinner
      · cases hstep
      · cases hstep
      · exact finishes_brace (by simp) hstep h
      · cases hstep
      · cases hstep
      · cases hstep
      · cases hstep

theorem step_substitution_open {c : Char} {follower : Option Char} {bracket : Bracket}
    {below : List Bracket} (h : step (bracket :: below) c follower = .substitution) :
    bracket ≠ .single := by
  rintro rfl
  cases h

theorem finishes_substitution {c : Char} {body : List Char} {follower : Option Char}
    (hstep : step stack c follower = .substitution)
    (hbody : Substitution.split (body ++ [')']) = some (body, []))
    (h : Finishes stack slice value rest) :
    Finishes stack (c :: '(' :: (body ++ ')' :: slice)) (c :: '(' :: (body ++ ')' :: value))
      rest := by
  obtain ⟨rfl, _⟩ := step_substitution hstep
  cases stack with
  | nil => exact .substitution hbody h
  | cons bracket below =>
      have hbracket := step_substitution_open hstep
      have hmore := finishes_more ('$' :: '(' :: (body ++ [')'])) h fun inner hinner _ => by
        simpa using Bracket.Closes.substitution hbracket hbody hinner
      simpa using hmore

/-- Where the text ends after a character that takes another one, no bracket is open. -/
theorem finishes_last {c : Char} (hstep : step stack c none = .two next)
    (h : Finishes next [] value rest) : stack = [] ∧ c = '\\' ∧ next = [] := by
  have hnext : next = [] := by
    cases next with
    | nil => rfl
    | cons bracket below =>
        obtain ⟨inner, slice, value, hslice, _, hinner, _⟩ := h
        obtain ⟨rfl, rfl⟩ := List.append_eq_nil_iff.mp hslice.symm
        exact absurd rfl hinner.ne_nil
  refine ⟨?_, step_two_none hstep, hnext⟩
  by_contra hopen
  exact step_two_open hopen hstep hnext

variable {seen text : List Char} {position : Position} {cursor : Cursor}

/-- The lexer stops where all brackets are closed and the word is at its end. -/
theorem readWord_finishes (h : readWord stack seen text position = .ok (value, cursor)) :
    ∃ slice value', text = slice ++ cursor.rest ∧ value = seen.reverse ++ value' ∧
      cursor.position = position.afterAll slice ∧ Finishes stack slice value' cursor.rest := by
  fun_induction readWord stack seen text position with
  | case1 seen position =>
      cases h
      exact ⟨[], [], rfl, by simp, rfl, .done rfl⟩
  | case2 => cases h
  | case3 stack seen position c after hstep =>
      cases h
      obtain ⟨rfl, hc⟩ := step_stop hstep
      exact ⟨[], [], rfl, by simp, rfl, .done hc⟩
  | case4 stack seen position c after next hstep ih =>
      obtain ⟨slice, value', rfl, rfl, hposition, hrest⟩ := ih h
      exact ⟨c :: slice, c :: value', rfl, by simp, hposition, finishes_one hstep hrest⟩
  | case5 stack seen position c next hstep ih =>
      obtain ⟨slice, value', htext, rfl, hposition, hrest⟩ := ih h
      obtain ⟨rfl, hend⟩ := List.append_eq_nil_iff.mp htext.symm
      obtain ⟨rfl, rfl, rfl⟩ := finishes_last hstep hrest
      cases hrest
      refine ⟨['\\'], ['\\'], by rw [hend]; rfl, by simp, hposition, ?_⟩
      rw [hend]
      exact .backslash
  | case6 stack seen position c next d after hstep ih =>
      obtain ⟨slice, value', rfl, rfl, hposition, hrest⟩ := ih h
      exact ⟨c :: d :: slice, c :: d :: value', rfl, by simp, hposition, finishes_two hstep hrest⟩
  | case7 => cases h
  | case8 stack seen position c after hstep position' hnonempty ih =>
      obtain ⟨rfl, rfl, hnext⟩ := step_join hstep
      obtain ⟨more, rfl⟩ := List.head?_eq_some_iff.mp hnext
      obtain ⟨slice, value', hmore, rfl, hposition, hrest⟩ := ih h
      rw [List.tail_cons] at hmore
      subst hmore
      have hmore : slice ++ cursor.rest ≠ [] := by simpa using hnonempty
      exact ⟨'\\' :: '\n' :: slice, value', rfl, rfl, hposition, .join hmore hrest⟩
  | case9 => cases h
  | case10 stack seen position c after hstep position' body middle hsplit ih =>
      obtain ⟨slice, value', rfl, rfl, hposition, hrest⟩ := ih h
      obtain ⟨rfl, hnext⟩ := step_substitution hstep
      obtain ⟨inside, rfl⟩ := List.head?_eq_some_iff.mp hnext
      rw [List.tail_cons] at hsplit
      have hinside := Substitution.split_eq_some hsplit
      subst hinside
      refine ⟨'$' :: '(' :: (body ++ ')' :: slice), '$' :: '(' :: (body ++ ')' :: value'), by simp,
        by simp [List.reverseAux_eq], ?_,
        finishes_substitution hstep (Substitution.split_again hsplit []) hrest⟩
      rw [hposition]
      simp [position', Position.afterAll_append]

/-! ## What is written is read -/

section

variable {below : List Bracket} (hbelow : below.head? ≠ some .single)

include hbelow

theorem readWord_dollar {text : List Char} (hparen : text.head? ≠ some '(')
    (hbrace : text.head? ≠ some '\x7b') (seen : List Char) (position : Position) :
    readWord below seen ('$' :: text) position =
      readWord below ('$' :: seen) text (position.after '$') := by
  have hstep : dollar below text.head? = .one below := by
    unfold dollar
    split
    · exact absurd ‹_› hparen
    · exact absurd ‹_› hbrace
    · rfl
  rw [readWord_cons, step_dollar hbelow, hstep]

theorem readWord_substitution {body : List Char}
    (hbody : Substitution.split (body ++ [')']) = some (body, [])) (seen rest : List Char)
    (position : Position) :
    readWord below seen ('$' :: '(' :: (body ++ ')' :: rest)) position =
      readWord below (('$' :: '(' :: (body ++ [')'])).reverse ++ seen) rest
        (position.afterAll ('$' :: '(' :: (body ++ [')']))) := by
  rw [readWord_cons, step_dollar hbelow, List.head?_cons, dollar]
  simp [Substitution.split_again hbody, List.reverseAux_eq, Position.afterAll_append]

theorem readWord_parameter (text seen : List Char) (position : Position) :
    readWord below seen ('$' :: '\x7b' :: text) position =
      readWord (.braces 0 :: below) ('\x7b' :: '$' :: seen) text
        ((position.after '$').after '\x7b') := by
  rw [readWord_cons, step_dollar hbelow, List.head?_cons, dollar]

end

/-- A bracket is read up to the mark that closes it. -/
theorem Bracket.Closes.readWord {bracket : Bracket} {inner : List Char} (h : bracket.Closes inner)
    (below : List Bracket) (seen rest : List Char) (position : Position) :
    Cursor.readWord (bracket :: below) seen (inner ++ rest) position =
      Cursor.readWord below (inner.reverse ++ seen) rest (position.afterAll inner) := by
  induction h generalizing below seen rest position with
  | quote =>
      rw [List.cons_append, readWord_cons, step_single]
      rfl
  | doubleQuote =>
      rw [List.cons_append, readWord_cons, step_double]
      rfl
  | brace =>
      rw [List.cons_append, readWord_cons, step_braces]
      rfl
  | @letter bracket c text hc h ih =>
      have hstep : step (bracket :: below) c (text ++ rest).head? = .one (bracket :: below) := by
        cases bracket with
        | single => simp_all [step_single, Bracket.marks]
        | double => simp_all [step_double, Bracket.marks]
        | braces depth => simp_all [step_braces, Bracket.marks]
      rw [List.cons_append, readWord_cons, hstep]
      simp [ih]
  | @escape bracket text hbracket c h ih =>
      have hstep : step (bracket :: below) '\\' (c :: (text ++ rest)).head? =
          .two (bracket :: below) := by
        cases bracket with
        | single => exact absurd rfl hbracket
        | double => rfl
        | braces depth => rfl
      rw [List.cons_append, List.cons_append, readWord_cons, hstep]
      simp [ih]
  | @dollar bracket text hbracket hparen hbrace h ih =>
      rw [← head?_append_of_ne_nil h.ne_nil rest] at hparen hbrace
      rw [List.cons_append, readWord_dollar (head?_ne_single hbracket below) hparen hbrace]
      simp [ih]
  | @substitution bracket body text hbracket hbody h ih =>
      have hread := readWord_substitution (head?_ne_single hbracket below) hbody seen
        (text ++ rest) position
      simp only [List.cons_append, List.append_assoc, hread]
      simp [ih, Position.afterAll_append]
  | @parameter bracket inner text hbracket hinner h ihinner ih =>
      simp only [List.cons_append, List.append_assoc]
      rw [readWord_parameter (head?_ne_single hbracket below)]
      simp [ihinner, ih, Position.afterAll_append]
  | @quoted depth inner text hinner h ihinner ih =>
      simp only [List.cons_append, List.append_assoc]
      rw [readWord_cons, step_braces]
      simp [ihinner, ih, Position.afterAll_append]
  | @doubleQuoted depth inner text hinner h ihinner ih =>
      simp only [List.cons_append, List.append_assoc]
      rw [readWord_cons, step_braces]
      simp [ihinner, ih, Position.afterAll_append]
  | @opening depth text h ih =>
      rw [List.cons_append, readWord_cons, step_braces]
      simp [ih]
  | @closing depth text h ih =>
      rw [List.cons_append, readWord_cons, step_braces]
      simp [ih]

/-- A written word is read as its value. -/
theorem Written.readWord (h : Written slice value rest) (seen : List Char) (position : Position) :
    Cursor.readWord [] seen (slice ++ rest) position =
      .ok (seen.reverse ++ value, ⟨rest, position.afterAll slice⟩) := by
  induction h generalizing seen position with
  | @done rest hrest =>
      cases rest with
      | nil => simp [readWord_nil]
      | cons c rest =>
          have hc : isWordBoundary c = true := by simpa using hrest
          rw [List.nil_append, readWord_cons, step_boundary hc, List.append_nil]
          rfl
  | @letter c slice value rest hboundary hc h ih =>
      have hstep : step [] c (slice ++ rest).head? = .one [] := by simp_all [step_nil]
      rw [List.cons_append, readWord_cons, hstep]
      simp [ih]
  | @escape c slice value rest hc h ih =>
      have hstep : step [] '\\' (c :: (slice ++ rest)).head? = .two [] := by
        simp [step_nil, hc, isWordBoundary]
      rw [List.cons_append, List.cons_append, readWord_cons, hstep]
      simp [ih]
  | backslash =>
      rw [List.append_nil, readWord_cons]
      simp [readWord_nil, step_nil, isWordBoundary]
  | @join slice value rest hmore h ih =>
      have hstep : step [] '\\' ('\n' :: (slice ++ rest)).head? = .join := rfl
      rw [List.cons_append, List.cons_append, readWord_cons, hstep]
      simp only [List.tail_cons, List.isEmpty_iff, if_neg hmore]
      exact ih seen _
  | @quoted inner slice value rest hinner h ih =>
      have hstep : step [] '\'' (inner ++ (slice ++ rest)).head? = .one [.single] := rfl
      rw [List.cons_append, List.append_assoc, readWord_cons, hstep]
      simp [hinner.readWord, ih, Position.afterAll_append]
  | @doubleQuoted inner slice value rest hinner h ih =>
      have hstep : step [] '"' (inner ++ (slice ++ rest)).head? = .one [.double] := rfl
      rw [List.cons_append, List.append_assoc, readWord_cons, hstep]
      simp [hinner.readWord, ih, Position.afterAll_append]
  | @dollar slice value rest hparen hbrace h ih =>
      rw [List.cons_append, readWord_dollar (by simp) hparen hbrace]
      simp [ih]
  | @substitution body slice value rest hbody h ih =>
      have hnil : ([] : List Bracket).head? ≠ some .single := by simp
      have hread := readWord_substitution hnil hbody seen (slice ++ rest) position
      simp only [List.cons_append, List.append_assoc, hread]
      simp [ih, Position.afterAll_append]
  | @parameter inner slice value rest hinner h ih =>
      simp only [List.cons_append, List.append_assoc]
      rw [readWord_parameter (by simp)]
      simp [hinner.readWord, ih, Position.afterAll_append]

theorem Written.unique {other : List Char} (h : Written slice value rest)
    (hother : Written slice other rest) : value = other := by
  have hread := (h.readWord [] .start).symm.trans (hother.readWord [] .start)
  simpa using hread

/-- The lexer reads a word exactly where one is written. -/
theorem readWord_iff_written : Cursor.readWord [] [] text position = .ok (value, cursor) ↔
    ∃ slice, text = slice ++ cursor.rest ∧ cursor.position = position.afterAll slice ∧
      Written slice value cursor.rest := by
  constructor
  · intro h
    obtain ⟨slice, value, htext, rfl, hposition, hwritten⟩ := readWord_finishes h
    exact ⟨slice, htext, hposition, hwritten⟩
  · rintro ⟨slice, rfl, hposition, hwritten⟩
    rw [hwritten.readWord, ← hposition]
    rfl

/-! ## Words written by themselves -/

/-- The text ends in a backslash that no other backslash stands for. -/
def endsLone : List Char → Bool
  | [] => false
  | ['\\'] => true
  | '\\' :: _ :: rest => endsLone rest
  | _ :: rest => endsLone rest

theorem endsLone_cons {c : Char} (hc : c ≠ '\\') (rest : List Char) :
    endsLone (c :: rest) = endsLone rest := by
  refine endsLone.eq_4 c rest ?_ ?_
  · exact fun hslash _ => hc hslash
  · exact fun _ _ hslash _ => hc hslash

/-- A backslash is paired with no character behind another one. -/
theorem endsLone_append {c : Char} (hc : c ≠ '\\') (before after : List Char) :
    endsLone (before ++ c :: after) = endsLone after := by
  fun_induction endsLone before with
  | case1 => exact endsLone_cons hc after
  | case2 => rfl
  | case3 d rest ih => exact ih
  | case4 d rest hlast hpair ih =>
      have hd : d ≠ '\\' := by
        rintro rfl
        cases rest with
        | nil => exact hlast rfl rfl
        | cons e rest => exact hpair e rest rfl rfl
      rw [List.cons_append, endsLone_cons hd, ih]

/-- No dollar sign stands directly before a continued line. -/
def Spares (text : List Char) : Prop := ¬ ['$', '\\', '\n'] <:+: text

instance (text : List Char) : Decidable (Spares text) := inferInstanceAs (Decidable (¬ _))

theorem Spares.of_isInfix {inside text : List Char} (h : Spares text) (hinside : inside <:+: text) :
    Spares inside := fun hdollar => h (hdollar.trans hinside)

/-- A bracket does not end in a backslash. -/
theorem Bracket.Closes.endsLone {bracket : Bracket} {inner : List Char} (h : bracket.Closes inner)
    (before after : List Char) :
    Cursor.endsLone (before ++ (inner ++ after)) = Cursor.endsLone after := by
  induction h generalizing before with
  | quote => exact endsLone_append (by decide) before after
  | doubleQuote => exact endsLone_append (by decide) before after
  | brace => exact endsLone_append (by decide) before after
  | @letter _ c _ _ _ ih => simpa using ih (before ++ [c])
  | escape _ c _ ih => simpa using ih (before ++ ['\\', c])
  | dollar _ _ _ _ ih => simpa using ih (before ++ ['$'])
  | @substitution _ body _ _ _ _ ih => simpa using ih (before ++ '$' :: '(' :: (body ++ [')']))
  | @parameter _ inner _ _ _ _ _ ih => simpa using ih (before ++ '$' :: '\x7b' :: inner)
  | @quoted _ inner _ _ _ _ ih => simpa using ih (before ++ '\'' :: inner)
  | @doubleQuoted _ inner _ _ _ _ ih => simpa using ih (before ++ '"' :: inner)
  | opening _ ih => simpa using ih (before ++ ['\x7b'])
  | closing _ ih => simpa using ih (before ++ ['\x7d'])

/-- A word starts like its slice, unless that starts with a continued line. -/
theorem Written.head? (h : Written slice value rest) (hjoin : ¬ ['\\', '\n'] <+: slice) :
    value.head? = slice.head? := by
  cases h with
  | join => exact absurd ⟨_, rfl⟩ hjoin
  | _ => rfl

/-- A word does not start with a continued line, nor with a newline. -/
theorem Written.not_prefix (h : Written slice value rest) :
    value.head? ≠ some '\n' ∧ ¬ ['\\', '\n'] <+: value := by
  induction h with
  | letter hboundary hc =>
      refine ⟨?_, fun ⟨_, hslash⟩ => ?_⟩
      · rintro hnewline
        obtain rfl := Option.some.inj hnewline
        exact absurd hboundary (by decide)
      · obtain ⟨rfl, _⟩ := List.cons.inj hslash
        exact hc (by decide)
  | escape hc =>
      refine ⟨by simp, fun ⟨_, hslash⟩ => ?_⟩
      exact hc (List.cons.inj (List.cons.inj hslash).2).1.symm
  | backslash => exact ⟨by simp, fun ⟨_, hslash⟩ => by simp at hslash⟩
  | join _ _ ih => exact ih
  | _ => simp

/-- A dollar sign before a continued line stands in one of two parts, if the line does not start
at their border or before it. -/
theorem isInfix_append_cases {before after : List Char}
    (h : ['$', '\\', '\n'] <:+: before ++ after)
    (hafter : after.head? ≠ some '\n' ∧ ¬ ['\\', '\n'] <+: after) :
    ['$', '\\', '\n'] <:+: before ∨ ['$', '\\', '\n'] <:+: after := by
  induction before with
  | nil => exact .inr h
  | cons c before ih =>
      rcases List.infix_cons_iff.mp h with hprefix | hinfix
      · obtain ⟨hc, hslash⟩ := List.cons_prefix_cons.mp hprefix
        cases before with
        | nil => exact absurd hslash hafter.2
        | cons d before =>
            obtain ⟨hd, hnewline⟩ := List.cons_prefix_cons.mp hslash
            cases before with
            | nil =>
                obtain ⟨more, hmore⟩ := hnewline
                exact absurd (congrArg List.head? hmore).symm hafter.1
            | cons e before =>
                obtain ⟨he, _⟩ := List.cons_prefix_cons.mp hnewline
                subst hc hd he
                exact .inl ⟨[], before, rfl⟩
      · exact (ih hinfix).imp_left fun hbefore => hbefore.trans (List.suffix_cons ..).isInfix

/-- No dollar sign gets before a continued line by taking continued lines out. -/
theorem Written.spares (h : Written slice value rest) (hslice : Spares slice) : Spares value := by
  -- each piece of the word is one of its slice, and no continued line starts behind it
  have hpiece : ∀ {slice value rest : List Char} (piece : List Char), Written slice value rest →
      (Spares slice → Spares value) → Spares (piece ++ slice) → Spares (piece ++ value) := by
    intro slice value rest piece hword ih hspares hdollar
    rcases isInfix_append_cases hdollar hword.not_prefix with hbefore | hafter
    · exact hspares (hbefore.trans (List.prefix_append ..).isInfix)
    · exact ih (hspares.of_isInfix (List.suffix_append ..).isInfix) hafter
  induction h with
  | done => exact hslice
  | @letter c _ _ _ _ _ h ih => exact hpiece [c] h ih hslice
  | @escape c _ _ _ _ h ih => exact hpiece ['\\', c] h ih hslice
  | backslash => exact hslice
  | join _ _ ih => exact ih (hslice.of_isInfix (List.suffix_append ['\\', '\n'] _).isInfix)
  | @quoted inner _ _ _ _ h ih => exact hpiece ('\'' :: inner) h ih hslice
  | @doubleQuoted inner _ _ _ _ h ih => exact hpiece ('"' :: inner) h ih hslice
  | dollar _ _ h ih => exact hpiece ['$'] h ih hslice
  | @substitution body _ _ _ _ h ih =>
      have hmore := hpiece ('$' :: '(' :: (body ++ [')'])) h ih (by simpa using hslice)
      simpa using hmore
  | @parameter inner _ _ _ _ h ih => exact hpiece ('$' :: '\x7b' :: inner) h ih hslice

/-- A word is written by itself before every end of a word.  A word that ends in a lone backslash is
the last of a text. -/
theorem Written.again (h : Written slice value rest) (hspares : Spares slice) {more : List Char}
    (hends : endsLone value = true → more = []) (hmore : Piece.endsWord more.head?) :
    Written value value more := by
  have hbehind : ∀ {slice value rest : List Char}, Written slice value rest →
      Spares ('$' :: slice) → ∀ c, c ≠ ' ' ∧ c ≠ ';' ∧ c ≠ ')' →
        (slice ++ rest).head? ≠ some c → (value ++ more).head? ≠ some c := by
    intro slice value rest hword hspares c hc hnext
    have hjoin : ¬ ['\\', '\n'] <+: slice := by
      rintro ⟨after, rfl⟩
      exact hspares ⟨[], after, rfl⟩
    have hsame := hword.head? hjoin
    cases slice with
    | nil =>
        rw [List.head?_nil, List.head?_eq_none_iff] at hsame
        rw [hsame, List.nil_append]
        intro hfirst
        rcases hmore c hfirst with rfl | rfl | rfl <;> simp at hc
    | cons d slice =>
        rw [List.head?_cons] at hsame
        rw [List.head?_append, hsame]
        exact hnext
  have hafter : ∀ {text : List Char} (piece : List Char), Spares (piece ++ text) → Spares text :=
    fun piece hspares => hspares.of_isInfix (List.suffix_append piece _).isInfix
  induction h with
  | done => exact .done hmore.boundary
  | @letter c _ _ _ hboundary hc h ih =>
      have hslash : c ≠ '\\' := by
        rintro rfl
        exact hc (by decide)
      rw [endsLone_cons hslash] at hends
      exact .letter hboundary hc (ih (hafter [c] hspares) hends)
  | @escape c _ _ _ hc h ih => exact .escape hc (ih (hafter ['\\', c] hspares) hends)
  | backslash =>
      rw [hends (by decide)]
      exact .backslash
  | join _ _ ih => exact ih (hafter ['\\', '\n'] hspares) hends
  | @quoted inner _ _ _ hinner h ih =>
      exact .quoted hinner (ih (hafter ('\'' :: inner) hspares) fun hvalue =>
        hends ((hinner.endsLone ['\''] _).trans hvalue))
  | @doubleQuoted inner _ _ _ hinner h ih =>
      exact .doubleQuoted hinner (ih (hafter ('"' :: inner) hspares) fun hvalue =>
        hends ((hinner.endsLone ['"'] _).trans hvalue))
  | dollar hparen hbrace h ih =>
      have hopens := hbehind h hspares
      rw [endsLone_cons (by decide)] at hends
      exact .dollar (hopens '(' (by decide) hparen) (hopens '\x7b' (by decide) hbrace)
        (ih (hafter ['$'] hspares) hends)
  | @substitution body slice value _ hbody h ih =>
      have hparen : ')' ≠ '\\' := by decide
      exact .substitution hbody
        (ih (hafter ('$' :: '(' :: (body ++ [')'])) (by simpa using hspares)) fun hvalue =>
          hends ((endsLone_append hparen ('$' :: '(' :: body) value).trans hvalue))
  | @parameter inner _ _ _ hinner h ih =>
      exact .parameter hinner (ih (hafter ('$' :: '\x7b' :: inner) hspares) fun hvalue =>
        hends ((hinner.endsLone ['$', '\x7b'] _).trans hvalue))

end Cursor

end Conch.Syntax
