/-!
# Numerals

Reads decimal numerals with an optional sign, and digits of another base.  A
numeral has at least one digit and nothing but digits after its sign; a value
outside the range asked for is no numeral.
-/

namespace Conch.Text

/-- The value of a digit in bases up to sixteen. -/
def digit? (base : Nat) (c : Char) : Option Nat :=
  let value? :=
    if c.isDigit then some (c.toNat - '0'.toNat)
    else if 'a' ≤ c && c ≤ 'f' then some (c.toNat - 'a'.toNat + 10)
    else if 'A' ≤ c && c ≤ 'F' then some (c.toNat - 'A'.toNat + 10)
    else none
  value?.filter (fun value => value < base)

def readDigits (base : Nat) : Nat → List Char → Option Nat
  | value, [] => some value
  | value, c :: rest =>
      match digit? base c with
      | some d => readDigits base (value * base + d) rest
      | none => none

/-- A number without a sign. -/
def digits? (base : Nat) : List Char → Option Nat
  | [] => none
  | text => readDigits base 0 text

/-- A natural number up to a limit; a plus sign may stand before it. -/
def natural? (limit : Nat) (text : String) : Option Nat :=
  let value? :=
    match text.toList with
    | '+' :: rest => digits? 10 rest
    | rest => digits? 10 rest
  value?.filter (fun value => value ≤ limit)

/-- An integer between two limits; a sign may stand before it. -/
def integer? (least greatest : Int) (text : String) : Option Int :=
  let value? : Option Int :=
    match text.toList with
    | '+' :: rest => (digits? 10 rest).map Int.ofNat
    | '-' :: rest => (digits? 10 rest).map (fun value => -Int.ofNat value)
    | rest => (digits? 10 rest).map Int.ofNat
  value?.filter (fun value => least ≤ value && value ≤ greatest)

/-- The greatest values of unsigned words. -/
def maxWord32 : Nat := 0xFFFFFFFF

def maxWord64 : Nat := 0xFFFFFFFFFFFFFFFF

def word32? (text : String) : Option Nat := natural? maxWord32 text

def word64? (text : String) : Option Nat := natural? maxWord64 text

def signed32? (text : String) : Option Int := integer? (-0x80000000) 0x7FFFFFFF text

def signed64? (text : String) : Option Int := integer? (-0x8000000000000000) 0x7FFFFFFFFFFFFFFF text

end Conch.Text
