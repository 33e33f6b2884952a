import Conch.Arithmetic.Expression
import Conch.Syntax.Token
import Conch.Text.Character
import Conch.Text.Numeral

/-!
# The tokens of an expression

Numbers, names and symbols with blanks between them.  A number may be written in
base ten, eight or sixteen, and must fit a signed 64-bit word; of several symbols
the longest is read.
-/

namespace Conch.Arithmetic

/-- A number as written: hexadecimal after `0x`, octal after another zero. -/
def numberOf (text : List Char) : Except Fault Int64 :=
  let value? :=
    match text with
    | '0' :: 'x' :: rest | '0' :: 'X' :: rest => Text.digits? 16 rest
    | '0' :: c :: rest => Text.digits? 8 (c :: rest)
    | _ => Text.digits? 10 text
  match value? with
  | some value =>
      if value < 0x8000000000000000 then .ok (Int64.ofNat value) else .error (.badNumber (String.ofList text))
  | none => .error (.badNumber (String.ofList text))

/-- The symbol at the head of a text. -/
def symbolAt (text : List Char) : Option Symbol :=
  Symbol.all.find? (fun symbol => symbol.text.toList.isPrefixOf text)

namespace Token

/-- The token that starts at a character, and the text after it. -/
def read (c : Char) (rest : List Char) : Except Fault (Token × List Char) :=
  if c.isDigit then
    match numberOf (c :: rest.takeWhile Char.isAlphanum) with
    | .ok value => .ok (.number value, rest.dropWhile Char.isAlphanum)
    | .error fault => .error fault
  else if Syntax.isNameStart c then
    .ok (.name (String.ofList (c :: rest.takeWhile Syntax.isNameChar)),
      rest.dropWhile Syntax.isNameChar)
  else
    match symbolAt (c :: rest) with
    | some found => .ok (.symbol found, rest.drop (found.text.length - 1))
    | none => .error (.invalidOperator c)

theorem read_length_le {c : Char} {rest after : List Char} {token : Token}
    (h : read c rest = .ok (token, after)) : after.length ≤ rest.length := by
  unfold read at h
  split at h
  · split at h
    · simp only [Except.ok.injEq, Prod.mk.injEq] at h
      rw [← h.2]
      exact (List.dropWhile_sublist _).length_le
    · simp at h
  · split at h
    · simp only [Except.ok.injEq, Prod.mk.injEq] at h
      rw [← h.2]
      exact (List.dropWhile_sublist _).length_le
    · split at h
      · simp only [Except.ok.injEq, Prod.mk.injEq] at h
        simp [← h.2]
      · simp at h

def readAll (found : List Token) (text : List Char) : Except Fault (List Token) :=
  match text with
  | [] => .ok found.reverse
  | c :: rest =>
      if Text.isBlank c then readAll found rest
      else
        match _h : read c rest with
        | .error fault => .error fault
        | .ok (token, after) => readAll (token :: found) after
termination_by text.length
decreasing_by
  · simp
  · exact Nat.lt_succ_of_le (read_length_le _h)

/-- The tokens of a text. -/
def ofText (text : List Char) : Except Fault (List Token) := readAll [] text

end Token

end Conch.Arithmetic
