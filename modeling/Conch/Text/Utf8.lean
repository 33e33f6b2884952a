/-!
# Text as bytes

The UTF-8 form of a text, and two readings of bytes as text: one that fails on
bytes that are no text, and a lossy one that writes the replacement character for
every longest stretch that starts a character and does not complete it.
-/

namespace Conch.Text

abbrev Bytes := List UInt8

def encode (text : String) : Bytes := text.toUTF8.toList

/-- The number of bytes after a leading byte, and the range of the first of them. -/
def following (lead : UInt8) : Option (Nat × UInt8 × UInt8) :=
  if lead < 0xC2 then none
  else if lead < 0xE0 then some (1, 0x80, 0xBF)
  else if lead = 0xE0 then some (2, 0xA0, 0xBF)
  else if lead = 0xED then some (2, 0x80, 0x9F)
  else if lead < 0xF0 then some (2, 0x80, 0xBF)
  else if lead = 0xF0 then some (3, 0x90, 0xBF)
  else if lead < 0xF4 then some (3, 0x80, 0xBF)
  else if lead = 0xF4 then some (3, 0x80, 0x8F)
  else none

/-- Reads the bytes after a leading byte onto the bits read so far. -/
def continued : Nat → UInt8 → UInt8 → Nat → Bytes → Option Char × Bytes
  | 0, _, _, bits, rest => (some (Char.ofNat bits), rest)
  | _ + 1, _, _, _, [] => (none, [])
  | needed + 1, least, greatest, bits, b :: rest =>
      if least ≤ b && b ≤ greatest then
        continued needed 0x80 0xBF (bits * 64 + (b.toNat - 0x80)) rest
      else (none, b :: rest)

/-- The character at the head of some bytes, none when they start no character, and the bytes
after it. -/
def decodeHead (b : UInt8) (rest : Bytes) : Option Char × Bytes :=
  if b < 0x80 then (some (Char.ofNat b.toNat), rest)
  else
    match following b with
    | none => (none, rest)
    | some (needed, least, greatest) =>
        let marks := if needed = 1 then 0xC0 else if needed = 2 then 0xE0 else 0xF0
        continued needed least greatest (b.toNat - marks) rest

theorem continued_length_le (needed : Nat) (least greatest : UInt8) (bits : Nat) (rest : Bytes) :
    (continued needed least greatest bits rest).2.length ≤ rest.length := by
  induction needed generalizing least greatest bits rest with
  | zero => simp [continued]
  | succ needed ih =>
      cases rest with
      | nil => simp [continued]
      | cons b rest =>
          simp only [continued]
          split
          · exact Nat.le_succ_of_le (ih ..)
          · exact Nat.le_refl _

theorem decodeHead_length_le (b : UInt8) (rest : Bytes) :
    (decodeHead b rest).2.length ≤ rest.length := by
  unfold decodeHead
  split
  · exact Nat.le_refl _
  · split
    · exact Nat.le_refl _
    · exact continued_length_le ..

def replacement : Char := Char.ofNat 0xFFFD

def decodeLossyOnto (written : String) (bytes : Bytes) : String :=
  match bytes with
  | [] => written
  | b :: rest =>
      decodeLossyOnto (written.push ((decodeHead b rest).1.getD replacement)) (decodeHead b rest).2
termination_by bytes.length
decreasing_by exact Nat.lt_succ_of_le (decodeHead_length_le b rest)

def decodeLossy (bytes : Bytes) : String := decodeLossyOnto "" bytes

def decodeOnto? (written : String) (bytes : Bytes) : Option String :=
  match bytes with
  | [] => some written
  | b :: rest =>
      match (decodeHead b rest).1 with
      | some c => decodeOnto? (written.push c) (decodeHead b rest).2
      | none => none
termination_by bytes.length
decreasing_by exact Nat.lt_succ_of_le (decodeHead_length_le b rest)

/-- The text that the bytes are, if they are one. -/
def decode? (bytes : Bytes) : Option String := decodeOnto? "" bytes

end Conch.Text
