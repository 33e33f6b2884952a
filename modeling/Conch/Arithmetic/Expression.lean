/-!
# Arithmetic expressions

The trees of arithmetic over signed 64-bit words, and what can be wrong with an
expression.
-/

namespace Conch.Arithmetic

inductive BinaryOperator where
  | add | sub | mul | div | mod | pow
  | shiftLeft | shiftRight
  | less | lessEq | greater | greaterEq | equal | notEqual
  | bitAnd | bitOr | bitXor
  | and | or
  deriving DecidableEq, Repr

inductive UnaryOperator where
  | negate | plus | not | complement
  deriving DecidableEq, Repr

inductive Expression where
  | number (value : Int64)
  | variable (name : String)
  | unary (op : UnaryOperator) (operand : Expression)
  | binary (op : BinaryOperator) (left right : Expression)
  | conditional (test consequent alternative : Expression)
  /-- An assignment, which first combines the old value when it has an operator. -/
  | assign (name : String) (op : Option BinaryOperator) (value : Expression)
  deriving DecidableEq, Repr

/-- The symbols of an expression, the longer spellings before their prefixes. -/
inductive Symbol where
  | shiftLeftAssign | shiftRightAssign
  | starStar | lessLess | greaterGreater | lessEq | greaterEq | equalEqual | notEqual
  | andAnd | orOr | plusAssign | minusAssign | starAssign | slashAssign | percentAssign
  | plus | minus | star | slash | percent | less | greater | ampersand | bar | caret | bang
  | tilde | question | colon | opening | closing | assign
  deriving DecidableEq, Repr

namespace Symbol

def text : Symbol → String
  | shiftLeftAssign => "<<="
  | shiftRightAssign => ">>="
  | starStar => "**"
  | lessLess => "<<"
  | greaterGreater => ">>"
  | lessEq => "<="
  | greaterEq => ">="
  | equalEqual => "=="
  | notEqual => "!="
  | andAnd => "&&"
  | orOr => "||"
  | plusAssign => "+="
  | minusAssign => "-="
  | starAssign => "*="
  | slashAssign => "/="
  | percentAssign => "%="
  | plus => "+"
  | minus => "-"
  | star => "*"
  | slash => "/"
  | percent => "%"
  | less => "<"
  | greater => ">"
  | ampersand => "&"
  | bar => "|"
  | caret => "^"
  | bang => "!"
  | tilde => "~"
  | question => "?"
  | colon => ":"
  | opening => "("
  | closing => ")"
  | assign => "="

def all : List Symbol :=
  [shiftLeftAssign, shiftRightAssign, starStar, lessLess, greaterGreater, lessEq, greaterEq,
    equalEqual, notEqual, andAnd, orOr, plusAssign, minusAssign, starAssign, slashAssign,
    percentAssign, plus, minus, star, slash, percent, less, greater, ampersand, bar, caret,
    bang, tilde, question, colon, opening, closing, assign]

/-- The binary operator a symbol stands for and how tightly it binds. -/
def binary? : Symbol → Option (BinaryOperator × Nat)
  | orOr => some (.or, 1)
  | andAnd => some (.and, 2)
  | bar => some (.bitOr, 3)
  | caret => some (.bitXor, 4)
  | ampersand => some (.bitAnd, 5)
  | equalEqual => some (.equal, 6)
  | notEqual => some (.notEqual, 6)
  | less => some (.less, 7)
  | lessEq => some (.lessEq, 7)
  | greater => some (.greater, 7)
  | greaterEq => some (.greaterEq, 7)
  | lessLess => some (.shiftLeft, 8)
  | greaterGreater => some (.shiftRight, 8)
  | plus => some (.add, 9)
  | minus => some (.sub, 9)
  | star => some (.mul, 10)
  | slash => some (.div, 10)
  | percent => some (.mod, 10)
  | starStar => some (.pow, 11)
  | _ => none

def unary? : Symbol → Option UnaryOperator
  | minus => some .negate
  | plus => some .plus
  | bang => some .not
  | tilde => some .complement
  | _ => none

/-- The operator that an assignment symbol combines with, none for a plain assignment. -/
def assignment? : Symbol → Option (Option BinaryOperator)
  | assign => some none
  | plusAssign => some (some .add)
  | minusAssign => some (some .sub)
  | starAssign => some (some .mul)
  | slashAssign => some (some .div)
  | percentAssign => some (some .mod)
  | shiftLeftAssign => some (some .shiftLeft)
  | shiftRightAssign => some (some .shiftRight)
  | _ => none

end Symbol

inductive Token where
  | number (value : Int64)
  | name (text : String)
  | symbol (symbol : Symbol)
  deriving DecidableEq, Repr

/-- How a left-over token is shown. -/
def Token.display : Token → String
  | .number value => "Num(" ++ toString value.toInt ++ ")"
  | .name text => "Ident(\"" ++ text ++ "\")"
  | .symbol found => "Op(\"" ++ found.text ++ "\")"

/-- What is wrong with an expression or its value. -/
inductive Fault where
  | badNumber (text : String)
  | invalidOperator (c : Char)
  | expected (symbol : Symbol)
  /-- An operand is missing, at a symbol or at the end. -/
  | operandExpected (found : Option Symbol)
  | leftOver (token : Token)
  | divisionByZero
  | negativeExponent
  /-- The values of variables refer to each other too deeply. -/
  | tooDeep (name : String)
  | notVariable (name : String)
  deriving DecidableEq, Repr

def Fault.message : Fault → String
  | badNumber text => text ++ ": value too great for base"
  | invalidOperator c =>
      "syntax error: invalid arithmetic operator (error token is \"" ++ String.singleton c ++ "\")"
  | expected symbol => "syntax error: `" ++ symbol.text ++ "' expected"
  | operandExpected none => "syntax error: operand expected"
  | operandExpected (some symbol) =>
      "syntax error: operand expected (error token is \"" ++ symbol.text ++ "\")"
  | leftOver token => "syntax error in expression (error token is \"" ++ token.display ++ "\")"
  | divisionByZero => "division by 0"
  | negativeExponent => "exponent less than 0"
  | tooDeep name => name ++ ": expression recursion level exceeded"
  | notVariable name => name ++ ": attempted assignment to non-variable"

end Conch.Arithmetic
