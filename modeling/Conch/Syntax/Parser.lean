import Conch.Syntax.Compound

/-!
# Parsing whole texts

`parse` reads a program.  A `Parser` is a parser kept for several texts: it
remembers how deep it is nested, and a refusal to nest deeper leaves the refused
level counted.  `Attempt.ofText` classifies interactive input that may still be
incomplete.
-/

namespace Conch.Syntax

structure Parser where
  depth : Nat
  deriving DecidableEq, Repr

namespace Parser

def new : Parser := ⟨0⟩

/-- The program in a text, and the parser ready for another text. -/
def parse (parser : Parser) (text : String) : Except ParseError Program × Parser :=
  let result :=
    if maxNesting < parser.depth then refusedProgram text.toList
    else programOf (Level.atRoom (maxNesting - parser.depth)).command text.toList
  match result with
  | .ok program => (.ok program, parser)
  | .error ⟨e, overflowed⟩ => (.error e, if overflowed then ⟨parser.depth + 1⟩ else parser)

end Parser

def parse (text : String) : Except ParseError Program := (Parser.new.parse text).1

/-- What one chunk of interactive input amounts to. -/
inductive Attempt where
  | complete (program : Program)
  | incomplete
  | error (e : ParseError)

def Attempt.ofResult : Except ParseError Program → Attempt
  | .ok program => .complete program
  | .error e => if e.incomplete then .incomplete else .error e

def Attempt.ofText (text : String) : Attempt := .ofResult (parse text)

/-- The fragments of the text of a word that stands at a place and nesting depth. -/
def parseWord (text : String) (position : Position) (depth : Nat) : Except ParseError (List Node) :=
  Word.parse (Level.atRoom (maxNesting - depth)).program position text.toList

end Conch.Syntax
