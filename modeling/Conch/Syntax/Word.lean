import Conch.Syntax.Delimited
import Conch.Syntax.Node
import Conch.Syntax.Substitution

/-!
# The fragments of a word

Divides the text of a word into literals, double-quoted stretches and expansions.
Literals keep their single quotes and backslashes.  The body of a command
substitution is handed to a parser of programs, so the division is given that
parser as an argument.
-/

namespace Conch.Syntax.Word

/-- The parameters named by one character after a dollar sign. -/
def isSpecialParameter (c : Char) : Bool :=
  c.isDigit || c == '?' || c == '#' || c == '@' || c == '*' || c == '$' || c == '!' || c == '-'

/-- The expression between doubled parentheses, when a substitution body is one. -/
def arithmeticText? : List Char → Option (List Char)
  | '(' :: text => if text.getLast? = some ')' then some text.dropLast else none
  | _ => none

/-- A parser of programs, used for the bodies of command substitutions. -/
abbrev ProgramParser := List Char → Except ParseError Program

/-- An error in a word, at the place where `rest` is left. -/
def fail {α : Type} (place : List Char → Position) (rest : List Char) (cause : ParseError.Cause) :
    Except ParseError α :=
  .error ⟨cause, place rest⟩

def substitution (parse : ProgramParser) (body rest : List Char) :
    Except ParseError (Option (Node × List Char)) :=
  match parse body with
  | .error e => .error e
  | .ok program => .ok (some (.substitution program, rest))

/-- The expansion that starts with the dollar sign before `text`, and what follows it. -/
def expansion (parse : ProgramParser) (place : List Char → Position) (text : List Char) :
    Except ParseError (Option (Node × List Char)) :=
  match text with
  | '(' :: '(' :: inside =>
      match Delimited.split '(' ')' ('(' :: inside) with
      | .error cause => fail place ('$' :: text) cause
      | .ok (body, rest) =>
          match arithmeticText? body with
          | some expression => .ok (some (.arithmetic (String.ofList expression), rest))
          | none => substitution parse body rest
  | '(' :: inside =>
      match Substitution.split inside with
      | none => fail place ('$' :: text) (.missingClose ')')
      | some (body, rest) => substitution parse body rest
  | '\x7b' :: inside =>
      match Delimited.split '\x7b' '\x7d' inside with
      | .error cause => fail place ('$' :: text) cause
      | .ok (body, rest) => .ok (some (.parameter false (String.ofList body), rest))
  | c :: rest =>
      if isNameStart c then
        .ok (some (.parameter true (String.ofList (c :: rest.takeWhile isNameChar)),
          rest.dropWhile isNameChar))
      else if isSpecialParameter c then .ok (some (.parameter true (String.singleton c), rest))
      else .ok none
  | [] => .ok none

theorem substitution_rest {parse : ProgramParser} {body rest rest' : List Char} {node : Node}
    (h : substitution parse body rest = .ok (some (node, rest'))) : rest' = rest := by
  unfold substitution at h
  split at h <;> simp_all

theorem expansion_length_le {parse : ProgramParser} {place : List Char → Position}
    {text rest : List Char} {node : Node}
    (h : expansion parse place text = .ok (some (node, rest))) : rest.length ≤ text.length := by
  unfold expansion at h
  split at h
  · split at h
    · simp [fail] at h
    · rename_i hd
      have := Delimited.split_length_lt hd
      split at h
      · simp only [Except.ok.injEq, Option.some.injEq, Prod.mk.injEq] at h
        simp at this
        simp [← h.2]
        omega
      · rw [substitution_rest h]
        simp at this ⊢
        omega
  · split at h
    · simp [fail] at h
    · rename_i hd
      have := Substitution.split_length_lt hd
      rw [substitution_rest h]
      simp
      omega
  · split at h
    · simp [fail] at h
    · rename_i hd
      have := Delimited.split_length_lt hd
      simp only [Except.ok.injEq, Option.some.injEq, Prod.mk.injEq] at h
      simp [← h.2]
      omega
  · split at h
    · simp only [Except.ok.injEq, Option.some.injEq, Prod.mk.injEq] at h
      rw [← h.2]
      exact Nat.le_succ_of_le (List.dropWhile_sublist _).length_le
    · split at h
      · simp only [Except.ok.injEq, Option.some.injEq, Prod.mk.injEq] at h
        simp [← h.2]
      · simp at h
  · simp at h

/-- Adds the literal collected backwards in `letters` to the fragments found. -/
def flush (letters : List Char) (found : List Node) : List Node :=
  if letters.isEmpty then found else .literal (String.ofList letters.reverse) :: found

/-- The fragments up to a double quote or the end, in a double-quoted stretch. -/
def quotedFragments (parse : ProgramParser) (place : List Char → Position)
    (letters : List Char) (found : List Node) (text : List Char) :
    Except ParseError (List Node × List Char) :=
  match text with
  | [] => .ok ((flush letters found).reverse, [])
  | '"' :: rest => .ok ((flush letters found).reverse, '"' :: rest)
  | ['\\'] => .ok ((flush ('\\' :: letters) found).reverse, [])
  | '\\' :: c :: rest => quotedFragments parse place (c :: '\\' :: letters) found rest
  | '$' :: rest =>
      match _h : expansion parse place rest with
      | .error e => .error e
      | .ok none => quotedFragments parse place ('$' :: letters) found rest
      | .ok (some (node, after)) => quotedFragments parse place [] (node :: flush letters found) after
  | c :: rest => quotedFragments parse place (c :: letters) found rest
termination_by text.length
decreasing_by
  all_goals simp_all
  all_goals (try have := expansion_length_le _h)
  all_goals omega

theorem quotedFragments_length_le {parse : ProgramParser} {place : List Char → Position}
    {letters : List Char} {found nodes : List Node} {text rest : List Char}
    (h : quotedFragments parse place letters found text = .ok (nodes, rest)) :
    rest.length ≤ text.length := by
  fun_induction quotedFragments parse place letters found text with
  | case1 => simp_all
  | case2 => simp [← (Prod.mk.inj (Except.ok.inj h)).2]
  | case3 => simp [← (Prod.mk.inj (Except.ok.inj h)).2]
  | case4 _ _ _ _ ih => exact Nat.le_succ_of_le (Nat.le_succ_of_le (ih h))
  | case5 => simp at h
  | case6 _ _ _ _ ih => exact Nat.le_succ_of_le (ih h)
  | case7 _ _ _ _ _ hs ih =>
      exact Nat.le_succ_of_le (Nat.le_trans (ih h) (expansion_length_le hs))
  | case8 _ _ _ _ _ _ _ _ ih => exact Nat.le_succ_of_le (ih h)

/-- The fragments of the text of a whole word. -/
def fragments (parse : ProgramParser) (place : List Char → Position)
    (letters : List Char) (found : List Node) (text : List Char) :
    Except ParseError (List Node) :=
  match text with
  | [] => .ok (flush letters found).reverse
  | '"' :: rest =>
      match _h : quotedFragments parse place [] [] rest with
      | .error e => .error e
      | .ok (inner, after) =>
          if after.isEmpty then fail place [] (.openQuote .doubleQuote)
          else fragments parse place [] (.quoted inner :: flush letters found) after.tail
  | ['\\'] => .ok (flush ('\\' :: letters) found).reverse
  | '\\' :: c :: rest => fragments parse place (c :: '\\' :: letters) found rest
  | '\'' :: rest =>
      let inner := rest.takeWhile (· ≠ '\'')
      let after := rest.dropWhile (· ≠ '\'')
      if after.isEmpty then fail place text (.openQuote .singleQuote)
      else
        fragments parse place ('\'' :: inner.reverseAux ('\'' :: letters)) found after.tail
  | '$' :: rest =>
      match _h : expansion parse place rest with
      | .error e => .error e
      | .ok none => fragments parse place ('$' :: letters) found rest
      | .ok (some (node, after)) => fragments parse place [] (node :: flush letters found) after
  | c :: rest => fragments parse place (c :: letters) found rest
termination_by text.length
decreasing_by
  · have := quotedFragments_length_le _h
    simp
    omega
  · simp only [List.length_cons]
    omega
  · have := (List.dropWhile_sublist (l := rest) (· ≠ '\'')).length_le
    simp at this ⊢
    omega
  · simp
  · have := expansion_length_le _h
    simp
    omega
  · simp

/-- The fragments of a word written at a place; columns count characters of the word. -/
def parse (program : ProgramParser) (position : Position) (text : List Char) :
    Except ParseError (List Node) :=
  fragments program
    (fun rest => ⟨position.line, position.column + (text.length - rest.length)⟩) [] [] text

end Conch.Syntax.Word
