import Conch.Pattern.Element
import Conch.Text.Character

/-!
# Fields

The fields that a word expands to.  A field has its text and the same text as a
pattern, in which quoted characters stand for themselves.  Unquoted results of
expansions are split at separator characters: a blank one ends the current field if
there is one, any other ends a field even if it is empty.
-/

namespace Conch

structure Field where
  text : String
  pattern : String
  /-- It holds an unquoted wildcard. -/
  isWild : Bool
  deriving DecidableEq, Repr, Inhabited

def Field.empty : Field := ⟨"", "", false⟩

/-- Fields under construction. -/
structure Fields where
  /-- The finished fields, the last one first. -/
  finished : List Field
  current : Field
  /-- The current field exists even if its text is empty. -/
  started : Bool
  /-- Unquoted results are split. -/
  splits : Bool
  separators : String
  deriving DecidableEq, Repr

namespace Fields

def new (splits : Bool) (separators : String) : Fields := ⟨[], .empty, false, splits, separators⟩

def addQuoted (fields : Fields) (text : String) : Fields :=
  { fields with
    current := { fields.current with
      text := fields.current.text ++ text
      pattern := fields.current.pattern ++ Pattern.escape text }
    started := true }

def addUnquoted (fields : Fields) (text : String) : Fields :=
  if text.isEmpty then fields
  else
    { fields with
      current :=
        ⟨fields.current.text ++ text, fields.current.pattern ++ text,
          fields.current.isWild || Pattern.hasWildcard text⟩
      started := true }

/-- Ends the current field. -/
def finish (fields : Fields) : Fields :=
  { fields with finished := fields.current :: fields.finished, current := .empty, started := false }

/-- Adds text and splits it; `run` holds the characters since the last separator, backwards. -/
def addSplit (fields : Fields) (run : List Char) : List Char → Fields
  | [] => fields.addUnquoted (String.ofList run.reverse)
  | c :: rest =>
      if !fields.separators.toList.contains c then fields.addSplit (c :: run) rest
      else
        let fields := fields.addUnquoted (String.ofList run.reverse)
        if Text.isBlank c then (if fields.started then fields.finish else fields).addSplit [] rest
        else fields.finish.addSplit [] rest

/-- Adds the unquoted result of an expansion. -/
def addExpansion (fields : Fields) (text : String) : Fields :=
  if fields.splits then fields.addSplit [] text.toList else fields.addUnquoted text

/-- Adds the result of an expansion. -/
def addValue (fields : Fields) (isQuoted : Bool) (text : String) : Fields :=
  if isQuoted then fields.addQuoted text else fields.addExpansion text

/-- All fields, in order. -/
def toList (fields : Fields) : List Field :=
  (if fields.started then fields.finish else fields).finished.reverse

/-- The fields as one text with blanks between them. -/
def joined (fields : Fields) : String := " ".intercalate (fields.toList.map Field.text)

def joinedPattern (fields : Fields) : String := " ".intercalate (fields.toList.map Field.pattern)

end Fields

end Conch
