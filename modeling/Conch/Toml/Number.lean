import Conch.Text.Character
import Conch.Text.Numeral
import Conch.Toml.Reader

/-!
# Numbers and times

Integers in four bases, decimal fractions, dates and times of day.  Underscores may
stand between digits, an integer fits a signed 64-bit word, and a fraction that is
too large for a 64-bit float is refused.
-/

namespace Conch.Toml

open Reader

def sign : Reader (Option Char) := optional (satisfying (fun c => c == '+' || c == '-'))

/-- Digits of a base with underscores between them. -/
def digits (base : Nat) : Reader (List Char) := do
  let isDigit := fun c => (Text.digit? base c).isSome
  let first ← satisfying isDigit
  let rest ← many (satisfying isDigit <|> (do char '_'; satisfying isDigit))
  return first :: rest

/-- Decimal digits without a needless zero in front. -/
def wholeDigits : Reader (List Char) := fun text =>
  match text with
  | '0' :: rest => some (['0'], rest)
  | _ => digits 10 text

def inRange (n : Int) : Reader Int :=
  if -0x8000000000000000 ≤ n && n < 0x8000000000000000 then return n else failure

def basedInteger (mark : Char) (base : Nat) : Reader Int := do
  chars ['0', mark]
  inRange ((Text.digits? base (← digits base)).getD 0)

def decimalInteger : Reader Int := do
  let negative := (← sign) = some '-'
  let n : Int := (Text.digits? 10 (← wholeDigits)).getD 0
  inRange (if negative then -n else n)

def integer : Reader Int :=
  basedInteger 'x' 16 <|> basedInteger 'o' 8 <|> basedInteger 'b' 2 <|> decimalInteger

def exponent : Reader Int := do
  discard (satisfying (fun c => c == 'e' || c == 'E'))
  let negative := (← sign) = some '-'
  let n : Int := (Text.digits? 10 (← digits 10)).getD 0
  return if negative then -n else n

/-- The least number that is rounded to infinity: half a step above the largest float. -/
def leastInfinite : Nat := Nat.pow 2 1024 - Nat.pow 2 970

/-- The number of digits `m`, shifted by a power of ten, is too large for a float. -/
def overflows (m : Nat) (power : Int) : Bool :=
  m ≠ 0 &&
    if 400 < power then true
    else if 0 ≤ power then leastInfinite ≤ m * Nat.pow 10 power.toNat
    else if (Nat.toDigits 10 m).length < power.natAbs then false
    else leastInfinite * Nat.pow 10 power.natAbs ≤ m

/-- A fraction, an exponent or both after decimal digits. -/
def fraction : Reader Unit := do
  let negative := (← sign) = some '-'
  let whole ← wholeDigits
  let places ← optional (do char '.'; digits 10)
  let power ← optional exponent
  if places.isNone && power.isNone then failure
  let m := (Text.digits? 10 (whole ++ places.getD [])).getD 0
  if overflows m (power.getD 0 - (places.getD []).length) && !negative then failure

def real : Reader Unit :=
  fraction <|> (do discard sign; chars ['i', 'n', 'f'] <|> chars ['n', 'a', 'n'])

/-- A number of exactly so many digits between two bounds. -/
def field (size least greatest : Nat) : Reader Nat := fun text =>
  if (text.take size).length < size then none
  else
    match Text.digits? 10 (text.take size) with
    | some n => if least ≤ n && n ≤ greatest then some (n, text.drop size) else none
    | none => none

def isLeapYear (year : Nat) : Bool := year % 4 = 0 && (year % 100 ≠ 0 || year % 400 = 0)

def daysIn (year month : Nat) : Nat :=
  if month = 2 then if isLeapYear year then 29 else 28
  else if month ∈ [4, 6, 9, 11] then 30
  else 31

/-- What a reader takes. -/
def taken (reader : Reader Unit) : Reader (List Char) := fun text =>
  (reader text).map fun (_, rest) => (text.take (text.length - rest.length), rest)

def date : Reader (List Char) :=
  taken do
    let year ← field 4 0 9999
    char '-'
    let month ← field 2 1 12
    char '-'
    discard (field 2 1 (daysIn year month))

/-- How many places of a second count. -/
def secondPlaces : Nat := 9

/-- The places of a second, without zeros at their end. -/
def secondFraction : Reader (List Char) := do
  char '.'
  let first ← satisfying Char.isDigit
  let rest ← takeWhile Char.isDigit
  match Text.dropLastWhile (· == '0') ((first :: rest).take secondPlaces) with
  | [] => return []
  | places => return '.' :: places

/-- A time of day; the second 60 is a leap second. -/
def time : Reader (List Char) := do
  let whole ← taken do
    discard (field 2 0 23)
    char ':'
    discard (field 2 0 59)
    char ':'
    discard (field 2 0 60)
  let places ← optional secondFraction
  return whole ++ places.getD []

/-- The distance from universal time, which is never a negative zero. -/
def offset : Reader (List Char) :=
  (do discard (satisfying (fun c => c == 'Z' || c == 'z')); return ['Z']) <|> do
    let direction ← satisfying (fun c => c == '+' || c == '-')
    let distance ← taken do
      discard (field 2 0 23)
      char ':'
      discard (field 2 0 59)
    return (if distance = ['0', '0', ':', '0', '0'] then '+' else direction) :: distance

/-- A date, a time of day, or both with or without an offset, as it is written in full. -/
def moment : Reader String := do
  return String.ofList (← dated <|> time)
where
  dated : Reader (List Char) := do
    let day ← date
    let rest ← optional (do
      discard (satisfying (fun c => c == 'T' || c == 't' || c == ' '))
      let hour ← time
      let zone ← optional offset
      return 'T' :: hour ++ zone.getD [])
    return day ++ rest.getD []

end Conch.Toml
