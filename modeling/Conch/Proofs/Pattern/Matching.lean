import Conch.Pattern.Matching
import Mathlib.Data.List.Forall2
import Mathlib.Data.List.Infix

/-!
# What patterns match

A text matches a pattern if it can be divided into pieces, one for each element, of which
each is what its element stands for.  The matcher tries the stretches of a star one after
the other, and gives up at once where the text is used up.  That is right, for then no
later end of the text is matched either (`Decides.exhausted`), and so the matcher finds a
division whenever there is one (`accepts_iff`).  Doubled stars are left out here.  An escaped
text has an element for each of its characters, which stands for that character, and so it
matches itself and nothing else (`matchesText_escape`).
-/

namespace Conch.Pattern

/-! ## Division into pieces -/

/-- The text can be divided into pieces, one for each part of a pattern, which the parts
stand for. -/
def Divided {α : Type} (standsFor : α → List Char → Prop) (parts : List α) (text : List Char) :
    Prop :=
  ∃ pieces, List.Forall₂ standsFor parts pieces ∧ pieces.flatten = text

section

variable {α : Type} {standsFor : α → List Char → Prop} {parts : List α} {text : List Char}

@[simp] theorem divided_nil : Divided standsFor [] text ↔ text = [] := by
  simp [Divided, eq_comm]

theorem divided_cons {part : α} :
    Divided standsFor (part :: parts) text ↔
      ∃ piece rest, text = piece ++ rest ∧ standsFor part piece ∧ Divided standsFor parts rest := by
  constructor
  · rintro ⟨_, hpieces, rfl⟩
    cases hpieces with
    | cons hpiece hrest => exact ⟨_, _, List.flatten_cons, hpiece, _, hrest, rfl⟩
  · rintro ⟨piece, _, rfl, hpiece, pieces, hrest, rfl⟩
    exact ⟨piece :: pieces, .cons hpiece hrest, List.flatten_cons⟩

theorem divided_map {β : Type} (f : β → α) (parts : List β) (text : List Char) :
    Divided standsFor (parts.map f) text ↔ Divided (fun part => standsFor (f part)) parts text := by
  simp only [Divided, List.forall₂_map_left_iff]

/-- Parts that stand for one character each are matched by one text. -/
theorem divided_singletons {letters : List Char} :
    Divided (fun c piece => piece = [c]) letters text ↔ text = letters := by
  induction letters generalizing text with
  | nil => exact divided_nil
  | cons c letters ih => simp [divided_cons, ih]

end

/-- The pieces that an element other than a doubled star stands for: any text for a star, one
character for the others. -/
def Element.StandsFor (element : Element) (piece : List Char) : Prop :=
  element = .anyText ∨ ∃ c, piece = [c] ∧ element.admits .text false c = true

/-! ## The matcher -/

@[simp] theorem Options.text_separators : Options.text.separators = false := rfl

@[simp] theorem Options.text_leadingDots : Options.text.leadingDots = false := rfl

/-- An end of the text is right. -/
def Ends (Right : List Char → Prop) (text : List Char) : Prop :=
  ∃ suffix, suffix <:+ text ∧ Right suffix

section

variable {Right Fine : List Char → Prop} {text : List Char}

theorem ends_iff : Ends Right text ↔ Right text ∨ Ends Right text.tail := by
  cases text with
  | nil => simp [Ends]
  | cons c rest => simp [Ends, List.suffix_cons_iff, or_and_right, exists_or]

theorem Ends.imp (h : Ends Right text) (hends : ∀ suffix, Right suffix → Ends Fine suffix) :
    Ends Fine text := by
  obtain ⟨suffix, hsuffix, hright⟩ := h
  obtain ⟨later, hlater, hfine⟩ := hends suffix hright
  exact ⟨later, hlater.trans hsuffix, hfine⟩

end

/-- A star takes the next character where what follows it failed on the rest. -/
theorem stretch_cons (judge : Bool → List Char → Verdict) (starts : Bool) (c : Char)
    (rest : List Char) :
    stretch .text false judge starts (c :: rest) =
      match judge (c == '/') rest with
      | .rejected => stretch .text false judge (c == '/') rest
      | found => found := by
  rw [stretch]
  cases judge (c == '/') rest <;> simp

/-- The verdicts on texts are right.  Where a text is found used up, no end of it is right either. -/
structure Decides (judge : Bool → List Char → Verdict) (Right : List Char → Prop) : Prop where
  accepted : ∀ starts text, judge starts text = .accepted ↔ Right text
  exhausted : ∀ starts text, judge starts text = .exhausted → ¬Ends Right text

namespace Decides

variable {judge : Bool → List Char → Verdict} {Right Fine : List Char → Prop}

theorem congr (h : Decides judge Right) (hiff : ∀ text, Right text ↔ Fine text) :
    Decides judge Fine := by
  rwa [← funext fun text => propext (hiff text)]

/-- After a failure the longer stretches are tried, up to one for which the text is used up. -/
theorem stretch (h : Decides judge Right) (starts : Bool) (text : List Char) :
    (stretch .text false judge starts text = .accepted ↔ Ends Right text.tail) ∧
      (stretch .text false judge starts text = .exhausted → ¬Ends Right text.tail) := by
  induction text generalizing starts with
  | nil =>
      have hends : Ends Right [] ↔ Right [] := by simp [Ends]
      exact ⟨(h.accepted starts []).trans hends.symm, h.exhausted starts []⟩
  | cons c rest ih =>
      have haccepted := h.accepted (c == '/') rest
      rw [stretch_cons, List.tail_cons, ends_iff, ← haccepted]
      cases hjudge : judge (c == '/') rest with
      | accepted => simp
      | rejected => simpa using ih (c == '/')
      | exhausted =>
          have hnone := h.exhausted _ _ hjudge
          rw [ends_iff, ← haccepted, hjudge] at hnone
          simpa using hnone

end Decides

/-- Nothing is left of the pattern. -/
theorem decides_nil : Decides (verdict .text []) (· = []) where
  accepted starts text := by cases text <;> simp [verdict]
  exhausted starts text h := by cases text <;> simp [verdict] at h

section

variable {rest : Pattern} {Right : List Char → Prop} (h : Decides (verdict .text rest) Right)

include h

/-- A star stands before any end of the text. -/
theorem decides_anyText : Decides (verdict .text (.anyText :: rest)) (Ends Right) where
  accepted starts text := by
    have haccepted := h.accepted starts text
    rw [verdict, ends_iff, ← haccepted]
    cases hjudge : verdict .text rest starts text with
    | accepted => simp
    | rejected => simpa using (h.stretch starts text).1
    | exhausted =>
        have hnone := h.exhausted _ _ hjudge
        rw [ends_iff, ← haccepted, hjudge] at hnone
        simpa using hnone
  exhausted starts text hexhausted hends := by
    have hends : Ends Right text := hends.imp fun _ hsuffix => hsuffix
    rw [verdict] at hexhausted
    cases hjudge : verdict .text rest starts text with
    | accepted => simp [hjudge] at hexhausted
    | rejected =>
        rw [ends_iff, ← h.accepted starts text, hjudge] at hends
        rw [hjudge] at hexhausted
        exact (h.stretch starts text).2 hexhausted (by simpa using hends)
    | exhausted => exact h.exhausted _ _ hjudge hends

/-- An element that is no star stands for the first character. -/
theorem decides_one {element : Element} (htext : element ≠ .anyText) (hpath : element ≠ .anyPath) :
    Decides (verdict .text (element :: rest)) fun text =>
      ∃ c later, text = c :: later ∧ element.admits .text false c = true ∧ Right later := by
  have hnil : ∀ starts, verdict .text (element :: rest) starts [] = .exhausted := by
    intro starts
    cases element <;> first | rfl | contradiction
  have hcons : ∀ starts c text, verdict .text (element :: rest) starts (c :: text) =
      if element.admits .text false c = true then verdict .text rest (c == '/') text
      else .rejected := by
    intro starts c text
    have hstarts : element.admits .text starts c = element.admits .text false c := by
      simp [Element.admits]
    rw [← hstarts]
    cases element <;> first | rfl | contradiction
  constructor
  · intro starts text
    cases text with
    | nil => simp [hnil]
    | cons c text =>
        rw [hcons]
        split
        · rename_i hadmits
          simp [h.accepted, hadmits]
        · rename_i hadmits
          simp [hadmits]
  · intro starts text hexhausted hends
    obtain ⟨_, hsuffix, d, later, rfl, -, hright⟩ := hends
    cases text with
    | nil => simp at hsuffix
    | cons c text =>
        have hlater : later <:+ text := by
          rcases List.suffix_cons_iff.mp hsuffix with heq | hsuffix
          · cases heq
            exact List.suffix_rfl
          · exact (List.suffix_cons d later).trans hsuffix
        rw [hcons] at hexhausted
        split at hexhausted
        · exact h.exhausted _ _ hexhausted ⟨later, hlater, hright⟩
        · cases hexhausted

end

/-- The matcher decides whether a text can be divided. -/
theorem decides_verdict {pattern : Pattern} (h : .anyPath ∉ pattern) :
    Decides (verdict .text pattern) (Divided Element.StandsFor pattern) := by
  induction pattern with
  | nil => exact decides_nil.congr fun _ => divided_nil.symm
  | cons element rest ih =>
      obtain ⟨hpath, hrest⟩ : .anyPath ≠ element ∧ .anyPath ∉ rest := by simpa using h
      by_cases htext : element = .anyText
      · subst htext
        refine (decides_anyText (ih hrest)).congr fun text => ?_
        rw [divided_cons]
        constructor
        · rintro ⟨suffix, ⟨piece, rfl⟩, hright⟩
          exact ⟨piece, suffix, rfl, .inl rfl, hright⟩
        · rintro ⟨piece, suffix, rfl, -, hright⟩
          exact ⟨suffix, ⟨piece, rfl⟩, hright⟩
      · refine (decides_one (ih hrest) htext (Ne.symm hpath)).congr fun text => ?_
        rw [divided_cons]
        constructor
        · rintro ⟨c, later, rfl, hadmits, hright⟩
          exact ⟨[c], later, rfl, .inr ⟨c, rfl, hadmits⟩, hright⟩
        · rintro ⟨_, later, rfl, hany | ⟨c, rfl, hadmits⟩, hright⟩
          · exact absurd hany htext
          · exact ⟨c, later, rfl, hadmits, hright⟩

/-- A text is accepted just when it can be divided into pieces for the elements. -/
theorem accepts_iff {pattern : Pattern} (h : .anyPath ∉ pattern) (text : String) :
    accepts .text pattern text = true ↔ Divided Element.StandsFor pattern text.toList := by
  rw [accepts, beq_iff_eq, (decides_verdict h).accepted]

/-! ## Escaped texts -/

/-- The element that an escaped character is read as. -/
def escapedElement (c : Char) : Element := if isSpecial c then .within [.single c] else .exactly c

theorem standsFor_escapedElement (c : Char) (piece : List Char) :
    (escapedElement c).StandsFor piece ↔ piece = [c] := by
  unfold escapedElement
  split <;> simp [Element.StandsFor, Element.admits, Specifier.admits]

/-- A character without a meaning stands for itself. -/
theorem read_letter {c : Char} (hquestion : c ≠ '?') (hstar : c ≠ '*') (hbracket : c ≠ '[')
    (found : List Element) (before : Option Char) (rest : List Char) :
    read found before (c :: rest) = read (.exactly c :: found) (some c) rest := by
  rw [read] <;> simp_all

theorem read_escapeChar (c : Char) (found : List Element) (before : Option Char)
    (rest : List Char) :
    ∃ last, read found before (escapeChar c ++ rest) =
      read (escapedElement c :: found) last rest := by
  unfold escapeChar escapedElement
  split
  · rename_i hspecial
    have hclass : readClass (c :: ']' :: rest) = some (.within [.single c], rest) := by
      have hmark : c ≠ '!' := by
        rintro rfl
        cases hspecial
      simp [readClass, hmark, splitClass, specifiers]
    refine ⟨some ']', ?_⟩
    rw [List.cons_append, List.cons_append, List.singleton_append, read, hclass]
  · rename_i hordinary
    simp only [isSpecial, Bool.or_eq_true, beq_iff_eq, not_or] at hordinary
    exact ⟨some c, read_letter hordinary.1.1.1 hordinary.1.1.2 hordinary.1.2 found before rest⟩

theorem read_escape (text : List Char) (found : List Element) (before : Option Char) :
    read found before (text.flatMap escapeChar) =
      some (found.reverse ++ text.map escapedElement) := by
  induction text generalizing found before with
  | nil => simp [read]
  | cons c text ih =>
      obtain ⟨last, hread⟩ := read_escapeChar c found before (text.flatMap escapeChar)
      rw [List.flatMap_cons, hread, ih]
      simp

/-- An escaped text matches itself and nothing else. -/
theorem matchesText_escape (text subject : String) :
    matchesText (escape text) subject = true ↔ text = subject := by
  have hread : ofText? (escape text) = some (text.toList.map escapedElement) := by
    rw [ofText?, escape, String.toList_ofList, read_escape]
    rfl
  have hpath : Element.anyPath ∉ text.toList.map escapedElement := by
    simp only [List.mem_map, not_exists, not_and]
    intro c _
    unfold escapedElement
    split <;> simp
  have hdivided : Divided Element.StandsFor (text.toList.map escapedElement) subject.toList ↔
      subject.toList = text.toList := by
    rw [divided_map, funext fun c => funext fun piece => propext (standsFor_escapedElement c piece)]
    exact divided_singletons
  rw [matchesText, hread]
  dsimp only
  rw [accepts_iff hpath, hdivided, String.toList_inj, eq_comm]

end Conch.Pattern
