import Conch.Pattern.Element

/-!
# Matching

Matches a whole text against a pattern.  A star tries every stretch, the shortest
first; a failure because the text is used up ends the search at once.  For file
names, wildcards match no separator and no leading dot.
-/

namespace Conch.Pattern

structure Options where
  /-- Wildcards match no separator. -/
  separators : Bool
  /-- Wildcards match no dot at the start of a component. -/
  leadingDots : Bool
  deriving DecidableEq, Repr

/-- Matching of whole texts. -/
def Options.text : Options := ⟨false, false⟩

/-- Matching of file names. -/
def Options.files : Options := ⟨true, true⟩

inductive Verdict where
  | accepted
  | rejected
  /-- The text is used up: no longer stretch can help. -/
  | exhausted
  deriving DecidableEq, Repr

/-- An element other than the stars against one character. -/
def Element.admits (options : Options) (starts : Bool) (element : Element) (c : Char) : Bool :=
  let hidden := (options.separators && c == '/') || (starts && options.leadingDots && c == '.')
  match element with
  | .exactly d => c == d
  | .anyChar => !hidden
  | .within specifiers => !hidden && specifiers.any (·.admits c)
  | .outside specifiers => !hidden && !specifiers.any (·.admits c)
  | .anyText | .anyPath => false

/-- Tries the rest of the pattern after ever longer stretches; `starts` says that the text
stands at the start of a component. -/
def stretch (options : Options) (paths : Bool) (next : Bool → List Char → Verdict) :
    Bool → List Char → Verdict
  | starts, [] => next starts []
  | starts, c :: rest =>
      if starts && options.leadingDots && c == '.' then .rejected
      else if paths && c != '/' then stretch options paths next false rest
      else if !paths && options.separators && c == '/' then .rejected
      else
        match next (c == '/') rest with
        | .rejected => stretch options paths next (c == '/') rest
        | verdict => verdict

def verdict (options : Options) : Pattern → Bool → List Char → Verdict
  | [], _, text => if text.isEmpty then .accepted else .rejected
  | .anyText :: rest, starts, text =>
      match verdict options rest starts text with
      | .rejected => stretch options false (verdict options rest) starts text
      | found => found
  | .anyPath :: rest, starts, text =>
      match verdict options rest starts text with
      | .rejected => stretch options true (verdict options rest) starts text
      | found => found
  | _ :: _, _, [] => .exhausted
  | element :: rest, starts, c :: text =>
      if element.admits options starts c then verdict options rest (c == '/') text else .rejected

def accepts (options : Options) (pattern : Pattern) (text : String) : Bool :=
  verdict options pattern true text.toList == .accepted

/-- A malformed pattern matches its own text only. -/
def matchesText (pattern text : String) : Bool :=
  match ofText? pattern with
  | some elements => accepts .text elements text
  | none => pattern == text

end Conch.Pattern
