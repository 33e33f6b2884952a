import Conch.Text.Character

/-!
# Quoted text

A text between double quotes in which quotes, backslashes and characters without a
shape of their own are written as escapes, and a text as a JSON string, where the escapes are
for quotes, backslashes and control characters.
-/

namespace Conch.Text

def hexDigits (n : Nat) : String := String.ofList (Nat.toDigits 16 n)

def escapeQuoted (c : Char) : String :=
  if c = '"' then "\\\""
  else if c = '\\' then "\\\\"
  else if c = '\n' then "\\n"
  else if c = '\r' then "\\r"
  else if c = '\t' then "\\t"
  else if c.toNat = 0 then "\\0"
  else if shapeless.contains c.toNat then
    "\\u\x7b" ++ hexDigits c.toNat ++ "\x7d"
  else String.singleton c

/-- The text between double quotes. -/
def quoted (text : String) : String :=
  "\"" ++ text.foldl (fun written c => written ++ escapeQuoted c) "" ++ "\""

/-! ## JSON strings -/

/-- One hexadecimal digit, in lower case. -/
def hexDigit (n : Nat) : Char := Nat.digitChar (n % 16)

/-- The escape of a character, or the character itself. -/
def escapeJson (c : Char) : List Char :=
  if c = '"' then ['\\', '"']
  else if c = '\\' then ['\\', '\\']
  else if c = '\n' then ['\\', 'n']
  else if c = '\r' then ['\\', 'r']
  else if c = '\t' then ['\\', 't']
  else if c.toNat = 8 then ['\\', 'b']
  else if c.toNat = 12 then ['\\', 'f']
  else if c.toNat < 0x20 then
    ['\\', 'u', '0', '0', hexDigit (c.toNat / 16), hexDigit c.toNat]
  else [c]

def jsonString (text : String) : String :=
  "\"" ++ String.ofList (text.toList.flatMap escapeJson) ++ "\""

end Conch.Text
