import Conch.Syntax.Lexeme
import Conch.Syntax.Word

/-!
# The grammar

A recursive descent over lexemes.  Commands nest through compound commands, function
bodies and substitutions, and every such step uses up one of the levels that nesting
allows; so the parser for one level is written in terms of the parser for the next
level, and `command` is a recursion on the number of levels left.  Within a level
each repetition reads a lexeme, so the number of lexemes bounds it.

A failure because of nesting is special: the level that was refused stays counted in
the parser that refused it.
-/

namespace Conch.Syntax

/-- Why parsing stopped; `overflowed` says that this parser itself ran out of levels. -/
structure Failure where
  error : ParseError
  overflowed : Bool
  deriving DecidableEq, Repr

/-- A parser of part of a program from a stream of lexemes. -/
def Grammar (α : Type) := Lexemes → Except Failure (α × Lexemes)

namespace Grammar

def run {α : Type} (g : Grammar α) (stream : Lexemes) : Except Failure (α × Lexemes) := g stream

instance : Monad Grammar where
  pure a := fun stream => .ok (a, stream)
  bind g f := fun stream =>
    match g stream with
    | .error failure => .error failure
    | .ok (a, stream) => f a stream

/-- The lexeme at the front, none at the end of the text. -/
def current : Grammar (Option Lexeme) := fun stream => .ok (stream.items.head?, stream)

/-- The lexemes not yet read. -/
def remaining : Grammar (List Lexeme) := fun stream => .ok (stream.items, stream)

def advance : Grammar Unit := fun stream => .ok ((), { stream with items := stream.items.tail })

def failAt {α : Type} (position : Position) (cause : ParseError.Cause) : Grammar α := fun _ =>
  .error ⟨⟨cause, position⟩, false⟩

/-- Fails at the front lexeme. -/
def failHere {α : Type} (cause : ParseError.Cause) : Grammar α := fun stream =>
  .error ⟨⟨cause, (stream.items.head?.map Lexeme.position).getD stream.finish⟩, false⟩

/-- The front lexeme does not fit; at the end of the text more input is wanted. -/
def unexpected {α : Type} : Grammar α := fun stream =>
  match stream.items with
  | [] => .error ⟨⟨.endOfInput, stream.finish⟩, false⟩
  | lexeme :: _ => .error ⟨⟨.unexpectedToken lexeme.describe, lexeme.position⟩, false⟩

def lift {α : Type} (result : Except ParseError α) : Grammar α := fun stream =>
  match result with
  | .ok a => .ok (a, stream)
  | .error e => .error ⟨e, false⟩

/-- The front lexeme is this operator. -/
def atOperator (token : Token) : Grammar Bool := do
  return (← current).any (fun lexeme => lexeme.kind == .op token)

/-- The front lexeme is this token, as an operator or a reserved word. -/
def atToken (token : Token) : Grammar Bool := do
  return (← current).any (fun lexeme => lexeme.token? == some token)

/-- The lexeme after the front one is this token. -/
def nextIs (token : Token) : Grammar Bool := do
  return (← remaining).tail.head?.any (fun lexeme => lexeme.token? == some token)

def expect (token : Token) : Grammar Unit := do
  if ← atToken token then advance else unexpected

def skipNewlines : Grammar Unit := fun stream =>
  .ok ((), { stream with items := stream.items.dropWhile (fun lexeme => lexeme.kind == .newline) })

/-- A semicolon before the end of a choice belongs to a rendering and means nothing. -/
def skipEmptyEnd : Grammar Unit := do
  if (← atOperator .semicolon) && (← nextIs .esacWord) then advance

/-- Collects results while the step finds one; a lexeme of `bound` stands for every repetition. -/
def collect {α : Type} (step : Grammar (Option α)) (bound : List Lexeme) (found : List α) :
    Grammar (List α) := do
  match ← step with
  | none => return found.reverse
  | some a =>
      match bound with
      | [] => return (a :: found).reverse
      | _ :: bound => collect step bound (a :: found)

/-- Collects results until the step finds none; each one found must use up a lexeme. -/
def many {α : Type} (step : Grammar (Option α)) : Grammar (List α) := do
  collect step (← remaining) []

/-- Extends a result while the step finds an extension; a lexeme of `bound` stands for every
repetition. -/
def extend {α : Type} (step : α → Grammar (Option α)) (bound : List Lexeme) (a : α) :
    Grammar α := do
  match ← step a with
  | none => return a
  | some a =>
      match bound with
      | [] => return a
      | _ :: bound => extend step bound a

end Grammar

open Grammar

/-! ## Simple commands -/

section Words

variable (program : Word.ProgramParser)

def wordOf (lexeme : Lexeme) : Grammar Node := do
  let parts ← lift (Word.parse program lexeme.position lexeme.text.toList)
  return .word parts

/-- The front lexeme as a word, whatever it spells. -/
def anyWord : Grammar Node := do
  match ← current with
  | some lexeme =>
      if lexeme.kind == .word then
        advance
        wordOf program lexeme
      else unexpected
  | none => unexpected

def words : Grammar (List Node) :=
  many do
    match ← current with
    | some lexeme =>
        if lexeme.kind == .word then
          advance
          return some (← wordOf program lexeme)
        else return none
    | none => return none

/-- The operator of a redirection and its target. -/
def redirection (descriptor : Option Nat) : Grammar Node := do
  match (← current).map Lexeme.kind with
  | some (.op token) =>
      if token.isRedirection then
        advance
        return .redirection descriptor token (← anyWord program)
      else unexpected
  | _ => unexpected

/-- Descriptors are numbers of 32 bits. -/
def descriptorLimit : Nat := 0x100000000

def digitsValue (digits : String) : Nat :=
  digits.toList.foldl (fun n c => n * 10 + (c.toNat - '0'.toNat)) 0

def argument : Grammar (Option Node) := do
  match ← current with
  | some lexeme =>
      match lexeme.kind with
      | .word =>
          advance
          return some (← wordOf program lexeme)
      | .descriptor =>
          advance
          let value := digitsValue lexeme.text
          if value < descriptorLimit then return some (← redirection program (some value))
          else failHere (.badDescriptor lexeme.text)
      | .op token => if token.isRedirection then return some (← redirection program none) else return none
      | .newline => return none
  | none => return none

def simpleCommand : Grammar Node := do
  let args ← many (argument program)
  if args.isEmpty then unexpected else return .command args false

end Words

/-- The tokens that end a list of statements. -/
def stopsAt (stops : List Token) (lexeme : Lexeme) : Bool :=
  lexeme.token?.any (fun token => stops.contains token)

/-! ## Lists of statements -/

section Statements

variable (command : Grammar Node)

def pipeline : Grammar Node := do
  let first ← command
  extend (fun left => do
    if ← atOperator .pipe then
      advance
      skipNewlines
      return some (.binary .pipe left (← command))
    else return none) (← remaining) first

/-- The operator that joins two pipelines at the front, if there is one. -/
def listOperator : Grammar (Option Token) := do
  match (← current).map Lexeme.kind with
  | some (.op .andAnd) => return some .andAnd
  | some (.op .orOr) => return some .orOr
  | _ => return none

def andOrList : Grammar Node := do
  let first ← pipeline command
  extend (fun left => do
    match ← listOperator with
    | some token =>
        advance
        skipNewlines
        return some (.binary token left (← pipeline command))
    | none => return none) (← remaining) first

/-- What may follow a statement inside a list. -/
inductive Following where
  | more | last

def endOfStatement (stops : List Token) : Grammar Following := do
  match ← current with
  | none => return .last
  | some lexeme =>
      if lexeme.kind == .op .semicolon || lexeme.kind == .newline then
        advance
        return .more
      else if stopsAt stops lexeme then return .last
      else unexpected

/-- The next statement up to the end of the text or a token of `stops` where a command could
start, and whether more may follow it. -/
def nextStatement (stops : List Token) : Grammar (Option (Node × Following)) := do
  skipNewlines
  let front ← current
  if front.all (stopsAt stops) then return none
  let statement ← andOrList command
  if ← atOperator .ampersand then
    match statement with
    | .command args _ =>
        advance
        if ← atOperator .semicolon then advance
        return some (.command args true, .more)
    | _ => failHere .backgroundCompound
  else return some (statement, ← endOfStatement stops)

/-- Collects statements; a lexeme of `bound` stands for every repetition. -/
def statements (stops : List Token) (bound : List Lexeme) (found : List Node) :
    Grammar (List Node) := do
  match ← nextStatement command stops with
  | none => return found.reverse
  | some (statement, .last) => return (statement :: found).reverse
  | some (statement, .more) =>
      match bound with
      | [] => return (statement :: found).reverse
      | _ :: bound => statements stops bound (statement :: found)

def statementList (stops : List Token) : Grammar (List Node) := do
  statements command stops (← remaining) []

/-- A list of at least one statement. -/
def statementBody (stops : List Token) : Grammar (List Node) := do
  let body ← statementList command stops
  if body.isEmpty then unexpected else return body

/-- A condition: one statement, or a group of several. -/
def condition (stop : Token) : Grammar Node := do
  match ← statementBody command [stop] with
  | [statement] => return statement
  | body => return .group body

end Statements

end Conch.Syntax
