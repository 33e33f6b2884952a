import Conch.Text.Numeral
import Conch.Toml.Reader

/-!
# Strings and keys

Strings stand between quotes, with escapes between double ones, on one line between
single quotes marks and on several between triple ones.  A key is a bare word or a
string on one line, and a dotted key is a path of such.
-/

namespace Conch.Toml

open Reader

/-- A character by its code point, which is no surrogate. -/
def charOf? (code : Nat) : Option Char :=
  if h : code.isValidChar then some (Char.ofNatAux code h) else none

/-- A number of hexadecimal digits that name a character. -/
def codePoint (count : Nat) : Reader Char := fun text =>
  if (text.take count).length < count then none
  else
    match (Text.digits? 16 (text.take count)).bind charOf? with
    | some c => some (c, text.drop count)
    | none => none

/-- What follows a backslash. -/
def escaped : Reader Char := do
  match ← satisfying (fun _ => true) with
  | 'b' => return Char.ofNat 8
  | 't' => return '\t'
  | 'n' => return '\n'
  | 'f' => return Char.ofNat 12
  | 'r' => return '\r'
  | '"' => return '"'
  | '\\' => return '\\'
  | 'u' => codePoint 4
  | 'U' => codePoint 8
  | _ => failure

/-- One character between double quotes. -/
def basicChar : Reader Char :=
  satisfying (fun c => isPlain c && c != '"' && c != '\\') <|> (do char '\\'; escaped)

def basicString : Reader String := do
  char '"'
  let content ← many basicChar
  char '"'
  return String.ofList content

def literalString : Reader String := do
  char '\''
  let content ← takeWhile (fun c => isPlain c && c != '\'')
  char '\''
  return String.ofList content

/-- A backslash at the end of a line: it leaves out the blanks and newlines up to the next
character. -/
def continuedLine : Reader (List Char) := do
  char '\\'
  blanks
  newline
  discard (many (discard (satisfying isBlank) <|> newline))
  return []

def newlineChar : Reader (List Char) := do
  newline
  return ['\n']

/-- One or two quotes that do not end the string. -/
def innerQuotes (quote : Char) : Reader (List Char) := fun text =>
  match text.takeWhile (· == quote) with
  | [_] => some ([quote], text.drop 1)
  | [_, _] => some ([quote, quote], text.drop 2)
  | _ => none

/-- The end of a string on several lines; up to two quotes may stand before the last three. -/
def closingQuotes (quote : Char) : Reader (List Char) := fun text =>
  let run := (text.takeWhile (· == quote)).length
  if 3 ≤ run && run ≤ 5 then some (List.replicate (run - 3) quote, text.drop run) else none

/-- A string between triple quotes; a newline right after the first three is left out. -/
def longString (quote : Char) (piece : Reader (List Char)) : Reader String := do
  chars [quote, quote, quote]
  discard (optional newline)
  let content ← many (piece <|> newlineChar <|> innerQuotes quote)
  let last ← closingQuotes quote
  return String.ofList (content.flatten ++ last)

def longBasicString : Reader String :=
  longString '"' ((do return [← basicChar]) <|> continuedLine)

def longLiteralString : Reader String :=
  longString '\'' (do return [← satisfying (fun c => isPlain c && c != '\'')])

def string : Reader String :=
  longBasicString <|> longLiteralString <|> basicString <|> literalString

def isBare (c : Char) : Bool := c.isAlphanum || c == '_' || c == '-'

def bareKey : Reader String := do
  let first ← satisfying isBare
  let rest ← takeWhile isBare
  return String.ofList (first :: rest)

def simpleKey : Reader String := do
  blanks
  let key ← basicString <|> literalString <|> bareKey
  blanks
  return key

/-- How many parts a key may not reach, and how many values may not be nested. -/
def maxDepth : Nat := 80

/-- The parts of a dotted key; the last one is given apart. -/
def dottedKey : Reader (List String × String) := do
  let parts ← separated (char '.') simpleKey
  match parts.reverse with
  | last :: front => if parts.length < maxDepth then return (front.reverse, last) else failure
  | [] => failure

end Conch.Toml
