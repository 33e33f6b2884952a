/-!
# Patterns

A pattern is a sequence of elements: characters, classes in brackets, a question
mark for any character, a star for any stretch of characters, and a doubled star
for any number of path components.  A doubled star must be a whole component, more
stars in a row are refused, and a bracket must be closed.
-/

namespace Conch

/-- What a class lists: a character, or a range by code point. -/
inductive Specifier where
  | single (c : Char)
  | range (least greatest : Char)
  deriving DecidableEq, Repr

def Specifier.admits (specifier : Specifier) (c : Char) : Bool :=
  match specifier with
  | .single d => c == d
  | .range least greatest => least ≤ c && c ≤ greatest

namespace Pattern

inductive Element where
  | exactly (c : Char)
  | anyChar
  | anyText
  /-- Any number of whole path components. -/
  | anyPath
  | within (specifiers : List Specifier)
  | outside (specifiers : List Specifier)
  deriving DecidableEq, Repr

end Pattern

abbrev Pattern := List Pattern.Element

namespace Pattern

/-- Reads the inside of a class: a dash between two characters makes a range. -/
def specifiers : List Char → List Specifier
  | least :: '-' :: greatest :: rest => .range least greatest :: specifiers rest
  | c :: rest => .single c :: specifiers rest
  | [] => []

/-- Divides a text at the first closing bracket after its first character. -/
def splitClass : List Char → Option (List Char × List Char)
  | [] => none
  | c :: rest =>
      match rest.dropWhile (· ≠ ']') with
      | [] => none
      | _ :: after => some (c :: rest.takeWhile (· ≠ ']'), after)

/-- The class after an opening bracket, and the text after it. -/
def readClass : List Char → Option (Element × List Char)
  | '!' :: text => (splitClass text).map (fun (inside, after) => (.outside (specifiers inside), after))
  | text => (splitClass text).map (fun (inside, after) => (.within (specifiers inside), after))

theorem splitClass_length_lt {text inside after : List Char}
    (h : splitClass text = some (inside, after)) : after.length < text.length := by
  unfold splitClass at h
  split at h
  · simp at h
  · rename_i c rest
    have hle := (List.dropWhile_sublist (l := rest) (· ≠ ']')).length_le
    split at h
    · simp at h
    · rename_i d after' hd
      simp only [Option.some.injEq, Prod.mk.injEq] at h
      rw [hd] at hle
      simp at hle
      rw [← h.2]
      simp
      omega

theorem readClass_length_lt {text after : List Char} {element : Element}
    (h : readClass text = some (element, after)) : after.length < text.length := by
  unfold readClass at h
  split at h
  · obtain ⟨⟨inside, rest⟩, hs, he⟩ := Option.map_eq_some_iff.1 h
    simp only [Prod.mk.injEq] at he
    rw [← he.2]
    exact Nat.lt_succ_of_lt (splitClass_length_lt hs)
  · obtain ⟨⟨inside, rest⟩, hs, he⟩ := Option.map_eq_some_iff.1 h
    simp only [Prod.mk.injEq] at he
    rw [← he.2]
    exact splitClass_length_lt hs

/-- Adds a doubled star to the elements found, the last one first; it may merge with one. -/
def pushPath (found : List Element) : List Element :=
  match found with
  | .anyPath :: _ :: _ => found
  | _ => .anyPath :: found

/-- Reads elements after those in `found`; `before` is the character before the text. -/
def read (found : List Element) (before : Option Char) (text : List Char) : Option Pattern :=
  match text with
  | [] => some found.reverse
  | '?' :: rest => read (.anyChar :: found) (some '?') rest
  | '*' :: '*' :: '*' :: _ => none
  | '*' :: '*' :: rest =>
      if before = none || before = some '/' then
        match rest with
        | [] => some (pushPath found).reverse
        | '/' :: rest => read (pushPath found) (some '/') rest
        | _ => none
      else none
  | '*' :: rest => read (.anyText :: found) (some '*') rest
  | '[' :: rest =>
      match _h : readClass rest with
      | some (element, after) => read (element :: found) (some ']') after
      | none => none
  | c :: rest => read (.exactly c :: found) (some c) rest
termination_by text.length
decreasing_by
  all_goals simp
  all_goals (try have := readClass_length_lt _h)
  all_goals omega

/-- The pattern a text spells, if it is well formed. -/
def ofText? (text : String) : Option Pattern := read [] none text.toList

/-- The characters with a meaning in patterns. -/
def isSpecial (c : Char) : Bool := c == '?' || c == '*' || c == '[' || c == ']'

def escapeChar (c : Char) : List Char := if isSpecial c then ['[', c, ']'] else [c]

/-- The pattern text that matches a text and nothing else. -/
def escape (text : String) : String := String.ofList (text.toList.flatMap escapeChar)

/-- The text holds a character that starts a wildcard. -/
def hasWildcard (text : String) : Bool :=
  text.toList.any (fun c => c == '*' || c == '?' || c == '[')

/-- The text a pattern without wildcards stands for. -/
def literal? : Pattern → Option (List Char)
  | [] => some []
  | .exactly c :: rest => (literal? rest).map (c :: ·)
  | _ :: _ => none

end Pattern

end Conch
