import Conch.Text.Numeral

/-!
# Escapes in output

The backslash escapes that an interpreter's `echo` takes in its arguments: control
characters, characters by their octal number, and the end of all output.
-/

namespace Conch.Builtin

/-- A character, by a letter after a backslash. -/
def escapedChar? : Char → Option Char
  | 'a' => some (Char.ofNat 7)
  | 'b' => some (Char.ofNat 8)
  | 'f' => some (Char.ofNat 12)
  | 'n' => some '\n'
  | 'r' => some '\r'
  | 't' => some '\t'
  | 'v' => some (Char.ofNat 11)
  | '\\' => some '\\'
  | _ => none

/-- Up to so many octal digits, and the text after them. -/
def octalDigits : Nat → Nat → List Char → Nat × List Char
  | 0, value, text => (value, text)
  | _, value, [] => (value, [])
  | count + 1, value, c :: rest =>
      match Text.digit? 8 c with
      | some d => octalDigits count (value * 8 + d) rest
      | none => (value, c :: rest)

theorem octalDigits_length_le (count value : Nat) (text : List Char) :
    (octalDigits count value text).2.length ≤ text.length := by
  induction text generalizing count value with
  | nil => cases count <;> simp [octalDigits]
  | cons c rest ih =>
      cases count with
      | zero => simp [octalDigits]
      | succ count =>
          simp only [octalDigits]
          split
          · exact Nat.le_succ_of_le (ih ..)
          · exact Nat.le_refl _

/-- The text that escapes stand for, and whether output ends with it. -/
def unescape (written : List Char) (text : List Char) : List Char × Bool :=
  match text with
  | [] => (written.reverse, false)
  | '\\' :: 'c' :: _ => (written.reverse, true)
  | '\\' :: '0' :: rest =>
      unescape (Char.ofNat ((octalDigits 3 0 rest).1 % 256) :: written) (octalDigits 3 0 rest).2
  | '\\' :: c :: rest =>
      match escapedChar? c with
      | some shown => unescape (shown :: written) rest
      | none => unescape (c :: '\\' :: written) rest
  | c :: rest => unescape (c :: written) rest
termination_by text.length
decreasing_by
  all_goals simp_wf
  all_goals have := octalDigits_length_le 3 0 rest
  all_goals omega

/-- What `echo` writes; a first argument `-n` leaves out the newline. -/
def echoEscapedText (args : List String) : String :=
  let (shown, last) :=
    match args with
    | "-n" :: rest => (rest, "")
    | _ => (args, "\n")
  let (text, ends) := unescape [] (" ".intercalate shown).toList
  String.ofList text ++ (if ends then "" else last)

end Conch.Builtin
