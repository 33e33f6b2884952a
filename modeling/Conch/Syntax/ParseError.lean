/-!
# Parse errors

What can be wrong with a source text, and where.  An error is incomplete exactly
when the text ended inside a construct, so that more lines could still repair it.
-/

namespace Conch.Syntax

/-- A place in a text, counted from one. -/
structure Position where
  line : Nat
  column : Nat
  deriving DecidableEq, Repr, Inhabited

namespace Position

def start : Position := ⟨1, 1⟩

/-- The place just after a character. -/
def after (p : Position) (c : Char) : Position :=
  if c = '\n' then ⟨p.line + 1, 1⟩ else ⟨p.line, p.column + 1⟩

def afterAll (p : Position) (text : List Char) : Position := text.foldl after p

@[simp] theorem afterAll_nil (p : Position) : p.afterAll [] = p := rfl

@[simp] theorem afterAll_cons (p : Position) (c : Char) (text : List Char) :
    p.afterAll (c :: text) = (p.after c).afterAll text := rfl

theorem afterAll_append (p : Position) (s t : List Char) :
    p.afterAll (s ++ t) = (p.afterAll s).afterAll t := by
  simp [afterAll]

end Position

/-- The lexical constructs that a text can leave open at its end. -/
inductive Unclosed where
  | singleQuote | doubleQuote | substitution | parameter | continuation
  deriving DecidableEq, Repr

def Unclosed.text : Unclosed → String
  | singleQuote => "unterminated single quote"
  | doubleQuote => "unterminated double quote"
  | substitution => "unterminated command substitution"
  | parameter => "unterminated parameter expansion"
  | continuation => "line continuation"

namespace ParseError

inductive Cause where
  /-- The text ended where the grammar needs more. -/
  | endOfInput
  | unclosed (construct : Unclosed)
  | unexpectedToken (text : String)
  | notAnIdentifier (name : String)
  /-- An ampersand after anything but a simple command. -/
  | backgroundCompound
  | badDescriptor (digits : String)
  | tooDeep
  | tooLarge (bytes : Nat)
  /-- A quote left open inside the text of a word. -/
  | openQuote (construct : Unclosed)
  | missingClose (close : Char)
  deriving DecidableEq, Repr

end ParseError

/-- Sources above this many bytes are refused unread. -/
def maxInputSize : Nat := 1000000

/-- How deep compound commands and substitutions may nest. -/
def maxNesting : Nat := 200

def ParseError.Cause.message : ParseError.Cause → String
  | .endOfInput => "unexpected end of input"
  | .unclosed construct => "unexpected end of input: " ++ construct.text
  | .unexpectedToken text => "syntax error near unexpected token `" ++ text ++ "'"
  | .notAnIdentifier name => "`" ++ name ++ "': not a valid identifier"
  | .backgroundCompound => "`&' is only supported after a simple command"
  | .badDescriptor digits => "bad file descriptor `" ++ digits ++ "'"
  | .tooDeep => "maximum nesting depth exceeded"
  | .tooLarge bytes =>
      "input too large: " ++ toString bytes ++ " bytes (max " ++ toString maxInputSize ++ ")"
  | .openQuote construct => construct.text
  | .missingClose close => "missing closing '" ++ String.singleton close ++ "'"

structure ParseError where
  cause : ParseError.Cause
  position : Position
  deriving DecidableEq, Repr

namespace ParseError

def message (e : ParseError) : String := e.cause.message

/-- More input could still complete the text. -/
def incomplete (e : ParseError) : Bool :=
  match e.cause with
  | .endOfInput | .unclosed _ => true
  | _ => false

def display (e : ParseError) : String :=
  toString e.position.line ++ ":" ++ toString e.position.column ++ ": " ++ e.message

end ParseError

end Conch.Syntax
