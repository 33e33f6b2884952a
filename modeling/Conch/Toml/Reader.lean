/-!
# Readers

A reader takes something from the head of a text, or fails and takes nothing.  Lines
of a document end with a newline or with the text, after blanks and a comment.
-/

namespace Conch.Toml

abbrev Reader := StateT (List Char) Option

namespace Reader

def satisfying (p : Char → Bool) : Reader Char
  | c :: rest => if p c then some (c, rest) else none
  | [] => none

def char (c : Char) : Reader Unit := discard (satisfying (· == c))

/-- The given characters in order. -/
def chars (expected : List Char) : Reader Unit := fun text =>
  if expected.isPrefixOf text then some ((), text.drop expected.length) else none

def takeWhile (p : Char → Bool) : Reader (List Char) := fun text =>
  some (text.takeWhile p, text.dropWhile p)

/-- As many items as there are, up to the given number; an item that takes nothing is none. -/
def manyUpTo {α : Type} (item : Reader α) (found : List α) : Nat → List Char → List α × List Char
  | 0, text => (found.reverse, text)
  | bound + 1, text =>
      match item text with
      | none => (found.reverse, text)
      | some (a, rest) =>
          if text.length ≤ rest.length then (found.reverse, text)
          else manyUpTo item (a :: found) bound rest

def many {α : Type} (item : Reader α) : Reader (List α) := fun text =>
  some (manyUpTo item [] text.length text)

/-- At least one item, with a separator between them. -/
def separated {α : Type} (separator : Reader Unit) (item : Reader α) : Reader (List α) := do
  let first ← item
  let others ← many (do separator; item)
  return first :: others

/-- The whole text. -/
def finished : Reader Unit
  | [] => some ((), [])
  | _ => none

def isBlank (c : Char) : Bool := c == ' ' || c == '\t'

def blanks : Reader Unit := discard (takeWhile isBlank)

def newline : Reader Unit := char '\n' <|> chars ['\r', '\n']

/-- Characters that may stand in comments and literal strings. -/
def isPlain (c : Char) : Bool := c == '\t' || (0x20 ≤ c.toNat && c.toNat ≠ 0x7F)

def comment : Reader Unit := do
  char '#'
  discard (takeWhile isPlain)

/-- The end of a line after blanks and a comment. -/
def lineEnd : Reader Unit := do
  blanks
  discard (optional comment)
  newline <|> finished

/-- Blanks, comments and line ends between the items of an array. -/
def gap : Reader Unit := do
  discard (many (blanksOrNewline <|> (do comment; newline)))
where
  blanksOrNewline : Reader Unit := discard (satisfying isBlank) <|> newline

end Reader

end Conch.Toml
