import Conch.Syntax.Grammar

/-!
# Compound commands

Conditionals, loops, choices, groups and function definitions.  They are parsed one
nesting level further down than the command that they are, so everything here is
given the parser of that level.
-/

namespace Conch.Syntax

open Grammar

/-- The parsers of one nesting level. -/
structure Level where
  command : Grammar Node
  /-- Programs inside the substitutions that words of this level hold. -/
  program : Word.ProgramParser

namespace Level

variable (level : Level)

def elifBranch : Grammar (Option Branch) := do
  if ← atToken .elifWord then
    advance
    let test ← condition level.command .thenWord
    expect .thenWord
    let body ← statementBody level.command [.elifWord, .elseWord, .fiWord]
    return some (.mk test body)
  else return none

def conditional : Grammar Node := do
  expect .ifWord
  let test ← condition level.command .thenWord
  expect .thenWord
  let body ← statementBody level.command [.elifWord, .elseWord, .fiWord]
  let elifs ← many level.elifBranch
  let otherwise ←
    if ← atToken .elseWord then do
      advance
      statementBody level.command [.fiWord]
    else pure []
  expect .fiWord
  return .conditional test body elifs otherwise

def whileLoop : Grammar Node := do
  expect .whileWord
  let test ← condition level.command .doWord
  expect .doWord
  let body ← statementBody level.command [.doneWord]
  expect .doneWord
  return .whileLoop test body

/-- The name that a loop assigns to. -/
def loopName : Grammar String := do
  match ← current with
  | some lexeme =>
      if lexeme.kind == .word then
        if isName lexeme.text then
          advance
          return lexeme.text
        else failHere (.notAnIdentifier lexeme.text)
      else unexpected
  | none => unexpected

/-- The semicolon or newline after the words of a loop. -/
def endOfWords : Grammar Unit := do
  match (← current).map Lexeme.kind with
  | some (.op .semicolon) | some .newline => advance
  | _ => unexpected

def forLoop : Grammar Node := do
  expect .forWord
  let name ← loopName
  skipNewlines
  expect .inWord
  let values ← words level.program
  endOfWords
  skipNewlines
  expect .doWord
  let body ← statementBody level.command [.doneWord]
  expect .doneWord
  return .forLoop name values body

def furtherPattern : Grammar (Option Node) := do
  if ← atOperator .pipe then
    advance
    return some (← anyWord level.program)
  else return none

def arm : Grammar Arm := do
  if ← atOperator .leftParen then advance
  let first ← anyWord level.program
  let others ← many level.furtherPattern
  expect .rightParen
  skipEmptyEnd
  let body ← statementList level.command [.doubleSemicolon, .esacWord]
  return .mk (first :: others) body

/-- The next arm of a choice, none at its end. -/
def nextArm : Grammar (Option Arm) := do
  skipNewlines
  if ← atToken .esacWord then return none
  let found ← level.arm
  if ← atOperator .doubleSemicolon then
    advance
    return some found
  else
    skipNewlines
    if ← atToken .esacWord then return some found else unexpected

def choice : Grammar Node := do
  expect .caseWord
  let subject ← anyWord level.program
  skipNewlines
  expect .inWord
  skipNewlines
  skipEmptyEnd
  let arms ← many level.nextArm
  expect .esacWord
  return .choice subject arms

def subshell : Grammar Node := do
  expect .leftParen
  let body ← statementBody level.command [.rightParen]
  expect .rightParen
  return .subshell body

def group : Grammar Node := do
  expect .leftBrace
  let body ← statementBody level.command [.rightBrace]
  expect .rightBrace
  return .group body

def function : Grammar Node := do
  match ← current with
  | none => unexpected
  | some lexeme =>
      advance
      if isName lexeme.text then
        expect .leftParen
        expect .rightParen
        skipNewlines
        return .function lexeme.text (← level.command)
      else failAt lexeme.position (.notAnIdentifier lexeme.text)

end Level

/-- A word, then a pair of parentheses: the head of a function definition. -/
def startsFunction : List Lexeme → Bool
  | _ :: second :: third :: _ => second.kind == .op .leftParen && third.kind == .op .rightParen
  | _ => false

/-- The compound command that starts at the front lexeme. -/
def compound? (items : List Lexeme) : Option (Level → Grammar Node) :=
  match items with
  | [] => none
  | lexeme :: _ =>
      match lexeme.kind with
      | .op .leftParen => some Level.subshell
      | .word =>
          match lexeme.reserved? with
          | some .ifWord => some Level.conditional
          | some .whileWord => some Level.whileLoop
          | some .forWord => some (fun level => level.forLoop)
          | some .caseWord => some Level.choice
          | some .leftBrace => some Level.group
          | some token =>
              if token.neverStarts then none
              else if startsFunction items then some Level.function
              else none
          | none => if startsFunction items then some Level.function else none
      | _ => none

/-- The front lexeme can begin a simple command. -/
def startsSimple (lexeme : Lexeme) : Bool :=
  match lexeme.kind with
  | .word => !lexeme.reserved?.any Token.neverStarts
  | .descriptor => true
  | .op token => token.isRedirection
  | .newline => false

/-- Runs a compound command on the level below, which nesting may not allow. -/
def nested (below : Option Level) (compound : Level → Grammar Node) : Grammar Node :=
  match below with
  | some level => compound level
  | none => fun stream =>
      .error ⟨⟨.tooDeep, (stream.items.head?.map Lexeme.position).getD stream.finish⟩, true⟩

/-- The commands of one level. -/
def commandOn (below : Option Level) (program : Word.ProgramParser) : Grammar Node := do
  match compound? (← remaining) with
  | some compound => nested below compound
  | none =>
      if (← current).any startsSimple then simpleCommand program else unexpected

/-- A whole program whose commands are those of the given parser. -/
def wholeProgram (command : Grammar Node) : Grammar Program := do
  let body ← statementList command []
  match ← current with
  | none => return body
  | some _ => unexpected

def byteSize (text : List Char) : Nat := text.foldl (fun n c => n + c.utf8Size) 0

/-- Refuses a text that is too large before anything else is done with it. -/
def sized (text : List Char) : Except Failure Unit :=
  let bytes := byteSize text
  if maxInputSize < bytes then .error ⟨⟨.tooLarge bytes, .start⟩, false⟩ else .ok ()

/-- Reads a text as a program. -/
def programOf (command : Grammar Node) (text : List Char) : Except Failure Program := do
  sized text
  match Lexemes.ofText text with
  | .error e => .error ⟨e, false⟩
  | .ok stream =>
      let (program, _) ← (wholeProgram command).run stream
      return program

/-- Programs where nesting is used up. -/
def refusedProgram (text : List Char) : Except Failure Program := do
  sized text
  .error ⟨⟨.tooDeep, .start⟩, false⟩

def Failure.errorOf {α : Type} : Except Failure α → Except ParseError α
  | .ok a => .ok a
  | .error failure => .error failure.error

namespace Level

/-- The parsers of a level below which so many levels are left. -/
def atRoom : Nat → Level
  | 0 =>
      let program := fun text => Failure.errorOf (refusedProgram text)
      ⟨commandOn none program, program⟩
  | room + 1 =>
      let below := atRoom room
      let program := fun text => Failure.errorOf (programOf below.command text)
      ⟨commandOn (some below) program, program⟩

end Level

end Conch.Syntax
