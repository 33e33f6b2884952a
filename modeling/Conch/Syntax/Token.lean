/-!
# Operators and reserved words

The fixed spellings of the shell grammar.  `Token.text` writes a token and
`Token.reserved?` recognises the spellings that are reserved words; braces count
as reserved words because they are only special where a command may start.
-/

namespace Conch.Syntax

inductive Token where
  | less | great | greatGreat | lessAnd | greatAnd
  | andAnd | orOr | pipe
  | semicolon | doubleSemicolon | ampersand | leftParen | rightParen
  | leftBrace | rightBrace
  | ifWord | thenWord | elifWord | elseWord | fiWord
  | whileWord | forWord | inWord | doWord | doneWord | caseWord | esacWord
  deriving DecidableEq, Repr

namespace Token

def text : Token → String
  | less => "<"
  | great => ">"
  | greatGreat => ">>"
  | lessAnd => "<&"
  | greatAnd => ">&"
  | andAnd => "&&"
  | orOr => "||"
  | pipe => "|"
  | semicolon => ";"
  | doubleSemicolon => ";;"
  | ampersand => "&"
  | leftParen => "("
  | rightParen => ")"
  | leftBrace => "\x7b"
  | rightBrace => "\x7d"
  | ifWord => "if"
  | thenWord => "then"
  | elifWord => "elif"
  | elseWord => "else"
  | fiWord => "fi"
  | whileWord => "while"
  | forWord => "for"
  | inWord => "in"
  | doWord => "do"
  | doneWord => "done"
  | caseWord => "case"
  | esacWord => "esac"

def all : List Token :=
  [less, great, greatGreat, lessAnd, greatAnd, andAnd, orOr, pipe, semicolon,
    doubleSemicolon, ampersand, leftParen, rightParen, leftBrace, rightBrace, ifWord,
    thenWord, elifWord, elseWord, fiWord, whileWord, forWord, inWord, doWord, doneWord,
    caseWord, esacWord]

/-- The words that are reserved where a command may start. -/
def reservedWords : List Token :=
  [ifWord, thenWord, elifWord, elseWord, fiWord, whileWord, forWord, inWord, doWord,
    doneWord, caseWord, esacWord, leftBrace, rightBrace]

def reserved? (word : String) : Option Token :=
  reservedWords.find? (fun token => token.text == word)

def ofText? (word : String) : Option Token :=
  all.find? (fun token => token.text == word)

def isRedirection : Token → Bool
  | less | great | greatGreat | lessAnd | greatAnd => true
  | _ => false

/-- Reserved words that close or continue a construct and so never start a command. -/
def neverStarts : Token → Bool
  | thenWord | elifWord | elseWord | fiWord | doWord | doneWord | esacWord | rightBrace => true
  | _ => false

theorem reserved?_text {word : String} {token : Token} (h : reserved? word = some token) :
    token.text = word := by
  have := List.find?_some h
  simpa using this

end Token

/-- A variable or function name: a letter or underscore, then letters, digits and underscores. -/
def isNameChar (c : Char) : Bool := c.isAlphanum || c == '_'

def isNameStart (c : Char) : Bool := c.isAlpha || c == '_'

def isName (word : String) : Bool :=
  match word.toList with
  | [] => false
  | c :: rest => isNameStart c && rest.all isNameChar

end Conch.Syntax
