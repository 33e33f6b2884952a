import Conch.Text.Character
import Conch.Text.Utf8

/-!
# Reading variables

How `read` divides a line among variables.  A backslash takes the next character as
it is, and the last variable gets what is left, separators included.
-/

namespace Conch.Builtin

/-- A character, and whether a backslash stood before it. -/
abbrev LineChar := Char × Bool

/-- The characters of a line; in a raw one backslashes mean nothing. -/
def lineChars (isRaw : Bool) : List Char → List LineChar
  | [] => []
  | '\\' :: c :: rest => if isRaw then ('\\', false) :: lineChars isRaw (c :: rest)
      else (c, true) :: lineChars isRaw rest
  | ['\\'] => if isRaw then [('\\', false)] else []
  | c :: rest => (c, false) :: lineChars isRaw rest

def isSeparator (separators : String) (c : LineChar) : Bool :=
  !c.2 && separators.toList.contains c.1

def isBlankSeparator (separators : String) (c : LineChar) : Bool :=
  isSeparator separators c && Text.isBlank c.1

def lineText (line : List LineChar) : String := String.ofList (line.map Prod.fst)

/-- The rest of a line after a field: one separator that is no blank may stand among blanks. -/
def afterField (separators : String) (line : List LineChar) : List LineChar :=
  match line.dropWhile (isBlankSeparator separators) with
  | c :: rest =>
      if isSeparator separators c then rest.dropWhile (isBlankSeparator separators) else c :: rest
  | [] => []

/-- What each of the variables gets. -/
def shareLine (separators : String) (line : List LineChar) : List String → List (String × String)
  | [] => []
  | [name] =>
      [(name, lineText (line.reverse.dropWhile (isBlankSeparator separators)).reverse)]
  | name :: names =>
      (name, lineText (line.takeWhile (fun c => !isSeparator separators c))) ::
        shareLine separators
          (afterField separators (line.dropWhile (fun c => !isSeparator separators c))) names

/-- The values of the variables after a line was read. -/
def lineValues (separators : String) (isRaw : Bool) (names : List String) (line : Text.Bytes) :
    List (String × String) :=
  shareLine separators
    ((lineChars isRaw (Text.decodeLossy line).toList).dropWhile (isBlankSeparator separators)) names

/-- A backslash stands before the end of what was read, and none before it. -/
def endsEscaped (read : Text.Bytes) : Bool := (read.takeWhile (· = 92)).length % 2 = 1

end Conch.Builtin
