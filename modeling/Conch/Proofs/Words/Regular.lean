import Conch.Proofs.Lexing.Written
import Mathlib.Algebra.GroupWithZero.Nat

/-!
# Words that the scan reads as the lexer does

The scan for the end of a substitution goes over words with rules of its own.  It takes a
quote inside `$\x7b` for a letter, and inside double quotes it does not see `$\x7b` at all.
In a regular word that makes no difference: no command substitution starts in braces, and no
quote there hides a mark of the scan.  The lexer reads such a word to its end
(`Regular.readWord`), and so does the scan (`Regular.scan_body`).
-/

namespace Conch.Syntax

/-! ## Scans above other constructs -/

namespace Substitution

/-- The step with these constructs open below. -/
def Step.above (below : List Frame) : Step → Step
  | .one stack => .one (stack ++ below)
  | .two stack => .two (stack ++ below)
  | .close => .one below

theorem Body.boundary_append (body : Body) (inner : List Frame) {below : List Frame}
    (hbelow : below ≠ []) (c : Char) (next : Option Char) :
    body.boundary (inner ++ below) c next = (body.boundary inner c next).above below := by
  unfold Body.boundary
  simp only
  split
  · rfl
  · split
    · rfl
    · cases ({ body with comment := false } : Body).endWord.unmatched with
      | zero =>
          cases inner with
          | nil => cases below <;> first | exact absurd rfl hbelow | rfl
          | cons _ _ => rfl
      | succ n => rfl
  · split <;> rfl
  all_goals rfl

theorem Body.inner_append (body : Body) (inner below : List Frame) (c : Char)
    (next : Option Char) :
    body.inner (inner ++ below) c next = (body.inner inner c next).above below := by
  unfold Body.inner
  simp only
  split <;> (try split) <;> rfl

/-- Only the innermost construct counts. -/
theorem step_append {stack below : List Frame} (hstack : stack ≠ []) (hbelow : below ≠ [])
    (c : Char) (next : Option Char) :
    step (stack ++ below) c next = (step stack c next).above below := by
  match stack with
  | [] => exact absurd rfl hstack
  | .quote :: inner =>
      simp only [List.cons_append, step]
      split <;> rfl
  | .string :: inner =>
      simp only [List.cons_append, step]
      split <;> (try split) <;> rfl
  | .braces depth :: inner =>
      simp only [List.cons_append, step]
      split <;> rfl
  | .body body :: inner =>
      simp only [List.cons_append, step, Body.boundary_append body inner hbelow,
        Body.inner_append, apply_ite (Step.above below)]
      rfl

theorem scan_one {stack next : List Frame} {c : Char} {rest : List Char}
    (h : step stack c rest.head? = .one next) (seen : List Char) :
    scan stack seen (c :: rest) = scan next (c :: seen) rest := by
  rw [scan, h]

theorem scan_two {stack next : List Frame} {c d : Char} {rest : List Char}
    (h : step stack c (some d) = .two next) (seen : List Char) :
    scan stack seen (c :: d :: rest) = scan next (d :: c :: seen) rest := by
  rw [scan, List.head?_cons, h]

theorem step_string {c : Char} (hc : c ∉ Cursor.Bracket.double.marks) (below : List Frame)
    (next : Option Char) : step (.string :: below) c next = .one (.string :: below) := by
  simp_all [step, Cursor.Bracket.marks]

theorem step_string_dollar {next : Option Char} (hparen : next ≠ some '(') (below : List Frame) :
    step (.string :: below) '$' next = .one (.string :: below) := if_neg hparen

theorem scan_nil_stack (seen text : List Char) : scan [] seen text = none := by
  induction text generalizing seen with
  | nil => rfl
  | cons c text ih =>
      rw [scan, step]
      exact ih _

/-- What closes a body by itself closes it above other constructs. -/
theorem scan_above {stack below : List Frame} {seen text body rest : List Char}
    (h : scan stack seen text = some (body, rest)) (hbelow : below ≠ []) (seen' : List Char) :
    ∃ consumed, body = seen.reverse ++ consumed ∧ text = consumed ++ ')' :: rest ∧
      scan (stack ++ below) seen' text = scan below (')' :: (consumed.reverse ++ seen')) rest := by
  have hstack : ∀ {stack : List Frame} {seen text : List Char},
      scan stack seen text = some (body, rest) → stack ≠ [] := by
    rintro stack seen text h rfl
    rw [scan_nil_stack] at h
    cases h
  fun_induction scan stack seen text generalizing seen' with
  | case1 => cases h
  | case2 stack seen c rest' next hs ih =>
      obtain ⟨consumed, hbody, htext, hscan⟩ := ih h (c :: seen')
      refine ⟨c :: consumed, by simp [hbody], by rw [htext]; rfl, ?_⟩
      have hne : stack ≠ [] := by
        rintro rfl
        rw [step] at hs
        cases hs
        exact hstack h rfl
      rw [scan, step_append hne hbelow, hs]
      simpa [Step.above] using hscan
  | case3 => cases h
  | case4 stack seen c next d rest' hs ih =>
      obtain ⟨consumed, hbody, htext, hscan⟩ := ih h (d :: c :: seen')
      refine ⟨c :: d :: consumed, by simp [hbody], by rw [htext]; rfl, ?_⟩
      have hne : stack ≠ [] := by
        rintro rfl
        cases hs
      rw [scan, step_append hne hbelow, hs]
      simpa [Step.above] using hscan
  | case5 stack seen c rest' hs =>
      cases h
      have hne : stack ≠ [] := by
        rintro rfl
        cases hs
      obtain rfl := step_close hs
      refine ⟨[], by simp, rfl, ?_⟩
      rw [scan, step_append hne hbelow, hs]
      rfl

/-- A body that is found is passed over above other constructs. -/
theorem scan_substitution {body : List Char} {below : List Frame}
    (hbody : split (body ++ [')']) = some (body, [])) (hbelow : below ≠ [])
    (seen rest : List Char) :
    scan (.body .start :: below) seen (body ++ ')' :: rest) =
      scan below (')' :: (body.reverse ++ seen)) rest := by
  have hagain : scan [.body .start] [] (body ++ ')' :: rest) = some (body, rest) :=
    split_again hbody rest
  obtain ⟨consumed, hconsumed, _, hscan⟩ := scan_above hagain hbelow seen
  have hconsumed : body = consumed := by simpa using hconsumed
  rw [← hconsumed] at hscan
  exact hscan

end Substitution

/-! ## Texts in braces -/

open Delimited (Quoting)

/--
The characters that do not stand for themselves within these quotes in braces, to the lexer or to
the scan.  The braces stand within double quotes or outside of them.
-/
def Delimited.Quoting.marks (isQuoted : Bool) : Quoting → List Char
  | .none => ['\\', '\'', '"', '$', '\x7b', '\x7d']
  | .single => if isQuoted then ['\\', '\'', '"', '$'] else ['\\', '\'', '\x7b', '\x7d']
  | .double => ['\\', '"', '$', '\x7b', '\x7d']

/--
No command substitution starts in the text, which begins within these quotes, and nothing stands
in its quotes that a scan without quotes would take for a mark.
-/
def isBare (isQuoted : Bool) : Quoting → List Char → Bool
  | _, [] => true
  | .single, '\'' :: rest => isBare isQuoted .none rest
  | .single, c :: rest => c ∉ Quoting.marks isQuoted .single && isBare isQuoted .single rest
  | quoting, '\\' :: _ :: rest => isBare isQuoted quoting rest
  | _, '$' :: '(' :: _ => false
  | .double, '"' :: rest => isBare isQuoted .none rest
  | .double, c :: rest => c != '\x7b' && c != '\x7d' && isBare isQuoted .double rest
  | .none, '\'' :: rest => isBare isQuoted .single rest
  | .none, '"' :: rest => !isQuoted && isBare isQuoted .double rest
  | .none, _ :: rest => isBare isQuoted .none rest

/--
The text goes on behind `$\x7b`, within these quotes and with so many braces open besides, up to
and with the brace that closes it.
-/
inductive Bare (isQuoted : Bool) : Quoting → Nat → List Char → Prop
  | close : Bare isQuoted .none 0 ['\x7d']
  | letter {quoting : Quoting} {depth : Nat} {c : Char} {text : List Char}
      (hc : c ∉ quoting.marks isQuoted) (h : Bare isQuoted quoting depth text) :
      Bare isQuoted quoting depth (c :: text)
  | escape {quoting : Quoting} {depth : Nat} {text : List Char} (hquoting : quoting ≠ .single)
      (c : Char) (h : Bare isQuoted quoting depth text) :
      Bare isQuoted quoting depth ('\\' :: c :: text)
  | dollar {quoting : Quoting} {depth : Nat} {text : List Char} (hquoting : quoting ≠ .single)
      (hparen : text.head? ≠ some '(') (hbrace : text.head? ≠ some '\x7b')
      (h : Bare isQuoted quoting depth text) : Bare isQuoted quoting depth ('$' :: text)
  | openSingle {depth : Nat} {text : List Char} (h : Bare isQuoted .single depth text) :
      Bare isQuoted .none depth ('\'' :: text)
  | closeSingle {depth : Nat} {text : List Char} (h : Bare isQuoted .none depth text) :
      Bare isQuoted .single depth ('\'' :: text)
  | openDouble {depth : Nat} {text : List Char} (hquoted : isQuoted = false)
      (h : Bare isQuoted .double depth text) : Bare isQuoted .none depth ('"' :: text)
  | closeDouble {depth : Nat} {text : List Char} (h : Bare isQuoted .none depth text) :
      Bare isQuoted .double depth ('"' :: text)
  | nested {depth : Nat} {text : List Char} (h : Bare isQuoted .none (depth + 1) text) :
      Bare isQuoted .none depth ('$' :: '\x7b' :: text)
  | opening {depth : Nat} {text : List Char} (h : Bare isQuoted .none (depth + 1) text) :
      Bare isQuoted .none depth ('\x7b' :: text)
  | closing {depth : Nat} {text : List Char} (h : Bare isQuoted .none depth text) :
      Bare isQuoted .none (depth + 1) ('\x7d' :: text)

namespace Bare

variable {isQuoted : Bool} {quoting : Quoting} {depth : Nat} {text : List Char}

theorem ne_nil (h : Bare isQuoted quoting depth text) : text ≠ [] := by
  rintro rfl
  cases h

/-- A dollar sign before a brace opens another expansion. -/
theorem afterDollar (hquoting : quoting ≠ .single) (hparen : text.head? ≠ some '(')
    (h : Bare isQuoted quoting depth text) : Bare isQuoted quoting depth ('$' :: text) := by
  by_cases hbrace : text.head? = some '\x7b'
  · obtain ⟨more, rfl⟩ := List.head?_eq_some_iff.mp hbrace
    cases h with
    | letter hc => cases quoting <;> simp_all [Quoting.marks]
    | opening h => exact .nested h
  · exact .dollar hquoting hparen hbrace h

end Bare

section

variable {isQuoted : Bool} {quoting quoting' : Quoting} {depth depth' : Nat} {c : Char}
  {inner : List Char}

theorem isBare_dollar (h : isBare isQuoted quoting ('$' :: inner) = true)
    (hquoting : quoting ≠ .single) :
    (inner ++ ['\x7d']).head? ≠ some '(' ∧ isBare isQuoted quoting inner = true := by
  cases inner with
  | nil => exact ⟨by decide, by simp [isBare]⟩
  | cons d inner =>
      have hparen : d ≠ '(' := by
        rintro rfl
        cases quoting <;> simp_all [isBare]
      refine ⟨by simpa using hparen, ?_⟩
      cases quoting with
      | single => exact absurd rfl hquoting
      | _ => simpa [isBare, hparen] using h

theorem bare_single (hstep : Delimited.step '\x7b' '\x7d' .single depth c = .one quoting' depth')
    (hbare : isBare isQuoted .single (c :: inner) = true)
    (hinner : isBare isQuoted quoting' inner = true →
      Bare isQuoted quoting' depth' (inner ++ ['\x7d'])) :
    Bare isQuoted .single depth (c :: (inner ++ ['\x7d'])) := by
  by_cases hc : c = '\''
  · subst hc
    cases hstep
    exact .closeSingle (hinner (by simpa [isBare] using hbare))
  · obtain ⟨rfl, rfl⟩ : .single = quoting' ∧ depth = depth' := by
      simpa [Delimited.step, hc] using hstep
    obtain ⟨hmarks, hrest⟩ : c ∉ Quoting.single.marks isQuoted ∧
        isBare isQuoted .single inner = true := by
      simpa [isBare, hc] using hbare
    exact .letter hmarks (hinner hrest)

theorem bare_double (hstep : Delimited.step '\x7b' '\x7d' .double depth c = .one quoting' depth')
    (hbare : isBare isQuoted .double (c :: inner) = true)
    (hinner : isBare isQuoted quoting' inner = true →
      Bare isQuoted quoting' depth' (inner ++ ['\x7d'])) :
    Bare isQuoted .double depth (c :: (inner ++ ['\x7d'])) := by
  have hslash : c ≠ '\\' := by
    rintro rfl
    cases hstep
  by_cases hc : c = '"'
  · subst hc
    cases hstep
    exact .closeDouble (hinner (by simpa [isBare] using hbare))
  obtain ⟨rfl, rfl⟩ : .double = quoting' ∧ depth = depth' := by
    simpa [Delimited.step, hc, hslash] using hstep
  by_cases hdollar : c = '$'
  · subst hdollar
    obtain ⟨hparen, hrest⟩ := isBare_dollar hbare (by decide)
    exact (hinner hrest).afterDollar (by decide) hparen
  · obtain ⟨⟨hopen, hclose⟩, hrest⟩ : (c ≠ '\x7b' ∧ c ≠ '\x7d') ∧
        isBare isQuoted .double inner = true := by
      simpa [isBare, hc, hslash, hdollar] using hbare
    exact .letter (by simp [Quoting.marks, *]) (hinner hrest)

theorem bare_none (hstep : Delimited.step '\x7b' '\x7d' .none depth c = .one quoting' depth')
    (hbare : isBare isQuoted .none (c :: inner) = true)
    (hinner : isBare isQuoted quoting' inner = true →
      Bare isQuoted quoting' depth' (inner ++ ['\x7d'])) :
    Bare isQuoted .none depth (c :: (inner ++ ['\x7d'])) := by
  have hslash : c ≠ '\\' := by
    rintro rfl
    cases hstep
  by_cases hsingle : c = '\''
  · subst hsingle
    cases hstep
    exact .openSingle (hinner (by simpa [isBare] using hbare))
  by_cases hdouble : c = '"'
  · subst hdouble
    cases hstep
    obtain ⟨hquoted, hrest⟩ : isQuoted = false ∧ isBare isQuoted .double inner = true := by
      simpa [isBare] using hbare
    exact .openDouble hquoted (hinner hrest)
  have hrest : isBare isQuoted .none inner = true := by
    by_cases hdollar : c = '$'
    · subst hdollar
      exact (isBare_dollar hbare (by decide)).2
    · simpa [isBare, hslash, hsingle, hdouble, hdollar] using hbare
  obtain ⟨rfl, hcase⟩ : .none = quoting' ∧
      ((c = '\x7b' ∧ depth' = depth + 1) ∨ (c = '\x7d' ∧ depth = depth' + 1) ∨
        (c ≠ '\x7b' ∧ c ≠ '\x7d' ∧ depth' = depth)) := by
    unfold Delimited.step at hstep
    grind
  rcases hcase with ⟨rfl, rfl⟩ | ⟨rfl, rfl⟩ | ⟨hopen, hclose, rfl⟩
  · exact .opening (hinner hrest)
  · exact .closing (hinner hrest)
  · by_cases hdollar : c = '$'
    · subst hdollar
      exact (hinner hrest).afterDollar (by decide) (isBare_dollar hbare (by decide)).1
    · exact .letter (by simp [Quoting.marks, *]) (hinner hrest)

theorem bare_of_scan {seen text body rest : List Char}
    (h : Delimited.scan '\x7b' '\x7d' quoting depth seen text = .ok (body, rest)) :
    ∃ inner, text = inner ++ '\x7d' :: rest ∧
      (isBare isQuoted quoting inner = true →
        Bare isQuoted quoting depth (inner ++ ['\x7d'])) := by
  fun_induction Delimited.scan '\x7b' '\x7d' quoting depth seen text with
  | case1 => cases h
  | case2 quoting depth seen c rest' quoting' depth' hs ih =>
      obtain ⟨inner, rfl, hinner⟩ := ih h
      refine ⟨c :: inner, rfl, fun hbare => ?_⟩
      cases quoting with
      | single => exact bare_single hs hbare hinner
      | double => exact bare_double hs hbare hinner
      | none => exact bare_none hs hbare hinner
  | case3 => cases h
  | case4 quoting depth seen c hs d rest' ih =>
      obtain ⟨hslash, hquoting⟩ : c = '\\' ∧ quoting ≠ .single := by
        unfold Delimited.step at hs
        grind
      obtain ⟨inner, rfl, hinner⟩ := ih h
      subst hslash
      refine ⟨'\\' :: d :: inner, rfl, fun hbare => .escape hquoting d (hinner ?_)⟩
      cases quoting <;> simp_all [isBare]
  | case5 quoting depth seen c rest' hs =>
      cases h
      obtain rfl := Delimited.step_close hs
      obtain ⟨rfl, rfl⟩ : quoting = .none ∧ depth = 0 := by
        unfold Delimited.step at hs
        grind
      exact ⟨[], rfl, fun _ => .close⟩

/-- What the parser of words takes for the text in braces. -/
theorem bare_of_split {text body rest : List Char}
    (h : Delimited.split '\x7b' '\x7d' text = .ok (body, rest))
    (hbare : isBare isQuoted .none body = true) : Bare isQuoted .none 0 (body ++ ['\x7d']) := by
  obtain ⟨inner, htext, hinner⟩ := bare_of_scan h
  have hbody : body = inner := List.append_cancel_right ((Delimited.split_eq_ok h).symm.trans htext)
  exact hbody ▸ hinner (hbody ▸ hbare)

end

namespace Bare

open Cursor (Bracket)

variable {isQuoted : Bool} {quoting : Quoting} {depth : Nat} {text : List Char}

/-- The quotes that the lexer has open. -/
def brackets : Quoting → List Bracket
  | .none => []
  | .single => [.single]
  | .double => [.double]

theorem step_letter {c : Char} (hc : c ∉ quoting.marks isQuoted) (first : Nat)
    (below : List Bracket) (next : Option Char) :
    Cursor.step (brackets quoting ++ .braces first :: below) c next =
      .one (brackets quoting ++ .braces first :: below) := by
  cases quoting with
  | none => simp_all [brackets, Cursor.step_braces, Quoting.marks]
  | single =>
      have hquote : c ≠ '\'' := by
        rintro rfl
        cases isQuoted <;> simp [Quoting.marks] at hc
      exact congrArg Cursor.Step.one (if_neg hquote)
  | double =>
      simp only [Quoting.marks, List.mem_cons, List.not_mem_nil, or_false, not_or] at hc
      rw [brackets, List.singleton_append, Cursor.step_double]
      split <;> simp_all

/-- The lexer gets to the same end, whichever way the open braces are nested. -/
theorem readWord (h : Bare isQuoted quoting depth text) {first : Nat} {inside : List Nat}
    (hinside : first + (inside.map (· + 1)).sum = depth) (below : List Bracket)
    (seen rest : List Char) (position : Position) :
    Cursor.readWord (brackets quoting ++ .braces first :: (inside.map Bracket.braces ++ below)) seen
        (text ++ rest) position =
      Cursor.readWord below (text.reverse ++ seen) rest (position.afterAll text) := by
  induction h generalizing first inside seen position with
  | close =>
      obtain ⟨rfl, hsum⟩ := Nat.add_eq_zero_iff.mp hinside
      cases inside with
      | nil =>
          rw [List.cons_append, Cursor.readWord_cons, brackets, List.nil_append, Cursor.step_braces]
          rfl
      | cons _ _ => simp at hsum
  | @letter quoting depth c text hc h ih =>
      rw [List.cons_append, Cursor.readWord_cons, step_letter hc]
      simp [ih hinside]
  | @escape quoting depth text hquoting c h ih =>
      have hstep : ∀ below, Cursor.step (brackets quoting ++ .braces first :: below) '\\' (some c) =
          .two (brackets quoting ++ .braces first :: below) := by
        intro below
        cases quoting <;> first | rfl | contradiction
      rw [List.cons_append, List.cons_append, Cursor.readWord_cons, List.head?_cons, hstep]
      simp [ih hinside]
  | @dollar quoting depth text hquoting hparen hbrace h ih =>
      rw [← Cursor.head?_append_of_ne_nil h.ne_nil rest] at hparen hbrace
      have hopen : (brackets quoting ++ .braces first :: (inside.map Bracket.braces ++ below)).head? ≠
          some .single := by
        cases quoting <;> simp_all [brackets]
      rw [List.cons_append, Cursor.readWord_dollar hopen hparen hbrace]
      simp [ih hinside]
  | @openSingle depth text h ih =>
      rw [List.cons_append, Cursor.readWord_cons, brackets, List.nil_append, Cursor.step_braces]
      simp [← ih hinside, brackets]
  | @closeSingle depth text h ih =>
      rw [List.cons_append, Cursor.readWord_cons]
      simp [← ih hinside, brackets, Cursor.step_single]
  | @openDouble depth text _ h ih =>
      rw [List.cons_append, Cursor.readWord_cons, brackets, List.nil_append, Cursor.step_braces]
      simp [← ih hinside, brackets]
  | @closeDouble depth text h ih =>
      rw [List.cons_append, Cursor.readWord_cons]
      simp [← ih hinside, brackets, Cursor.step_double]
  | @nested depth text h ih =>
      have hdeeper : 0 + ((first :: inside).map (· + 1)).sum = depth + 1 := by
        simp only [List.map_cons, List.sum_cons]
        omega
      have hnested := ih hdeeper ('\x7b' :: '$' :: seen) ((position.after '$').after '\x7b')
      rw [List.cons_append, List.cons_append, brackets, List.nil_append,
        Cursor.readWord_parameter (by simp)]
      simpa [brackets] using hnested
  | @opening depth text h ih =>
      have hdeeper : first + 1 + (inside.map (· + 1)).sum = depth + 1 := by omega
      rw [List.cons_append, Cursor.readWord_cons, brackets, List.nil_append, Cursor.step_braces]
      simp [← ih hdeeper, brackets]
  | @closing depth text h ih =>
      rw [List.cons_append, Cursor.readWord_cons, brackets, List.nil_append, Cursor.step_braces]
      cases first with
      | succ first =>
          have hshallower : first + (inside.map (· + 1)).sum = depth := by omega
          simp [← ih hshallower, brackets]
      | zero =>
          cases inside with
          | nil => simp at hinside
          | cons next inside =>
              have houtside : next + (inside.map (· + 1)).sum = depth := by
                simp only [List.map_cons, List.sum_cons] at hinside
                omega
              simp [← ih houtside, brackets]

open Substitution (Frame scan scan_one scan_two)

/-- The scan gets to the same end by counting. -/
theorem scan_braces (h : Bare false quoting depth text) (below : List Frame)
    (seen rest : List Char) :
    scan (.braces depth :: below) seen (text ++ rest) =
      scan below (text.reverse ++ seen) rest := by
  induction h generalizing seen with
  | close => exact scan_one rfl seen
  | @letter quoting depth c text hc h ih =>
      have hstep : Substitution.step (.braces depth :: below) c (text ++ rest).head? =
          .one (.braces depth :: below) := by
        cases quoting <;> simp_all [Substitution.step, Quoting.marks]
      rw [List.cons_append, scan_one hstep]
      simp [ih]
  | @escape quoting depth text hquoting c h ih =>
      rw [List.cons_append, List.cons_append, scan_two rfl]
      simp [ih]
  | nested h ih =>
      rw [List.cons_append, List.cons_append, scan_one rfl, scan_one rfl]
      simp [ih]
  | _ =>
      rw [List.cons_append, scan_one rfl]
      simp_all

/-- Between double quotes the braces are letters to the scan. -/
theorem scan_string (h : Bare true quoting depth text) (hquoting : quoting ≠ .double)
    (below : List Frame) (seen rest : List Char) :
    scan (.string :: below) seen (text ++ rest) =
      scan (.string :: below) (text.reverse ++ seen) rest := by
  induction h generalizing seen with
  | close => exact scan_one rfl seen
  | @letter quoting depth c text hc h ih =>
      have hletter : c ∉ Bracket.double.marks := by
        cases quoting <;> simp_all [Bracket.marks, Quoting.marks]
      rw [List.cons_append, scan_one (Substitution.step_string hletter ..)]
      simp [ih hquoting]
  | @escape quoting depth text _ c h ih =>
      rw [List.cons_append, List.cons_append, scan_two rfl]
      simp [ih hquoting]
  | @dollar quoting depth text _ hparen hbrace h ih =>
      rw [← Cursor.head?_append_of_ne_nil h.ne_nil rest] at hparen
      rw [List.cons_append, scan_one (Substitution.step_string_dollar hparen _)]
      simp [ih hquoting]
  | @nested depth text h ih =>
      rw [List.cons_append, List.cons_append, scan_one rfl, scan_one rfl]
      simp [ih hquoting]
  | openDouble hquoted => cases hquoted
  | closeDouble => exact absurd rfl hquoting
  | @openSingle depth text h ih =>
      rw [List.cons_append, scan_one rfl]
      simp [ih (by decide)]
  | @closeSingle depth text h ih =>
      rw [List.cons_append, scan_one rfl]
      simp [ih (by decide)]
  | @opening depth text h ih =>
      rw [List.cons_append, scan_one rfl]
      simp [ih hquoting]
  | @closing depth text h ih =>
      rw [List.cons_append, scan_one rfl]
      simp [ih hquoting]

end Bare

/-! ## Regular words -/

/-- The characters that do not stand for themselves, within double quotes or outside of them. -/
def isMarked : Bool → Char → Bool
  | true, c => c ∈ Cursor.Bracket.double.marks
  | false, c => !isPlain c

/--
The text, within double quotes or outside of them, has quotes and expansions that the lexer and the
scan read alike; `next` is the character after it.
-/
inductive Regular : Bool → Option Char → List Char → Prop
  | nil {isQuoted : Bool} {next : Option Char} : Regular isQuoted next []
  | letter {isQuoted : Bool} {next : Option Char} {c : Char} {text : List Char}
      (hc : isMarked isQuoted c = false) (h : Regular isQuoted next text) :
      Regular isQuoted next (c :: text)
  | escape {isQuoted : Bool} {next : Option Char} {c : Char} {text : List Char}
      (hc : isQuoted = false → c ≠ '\n') (h : Regular isQuoted next text) :
      Regular isQuoted next ('\\' :: c :: text)
  | single {next : Option Char} {inner text : List Char} (hinner : '\'' ∉ inner)
      (h : Regular false next text) : Regular false next ('\'' :: (inner ++ '\'' :: text))
  | double {next : Option Char} {inner text : List Char} (hinner : Regular true (some '"') inner)
      (h : Regular false next text) : Regular false next ('"' :: (inner ++ '"' :: text))
  | dollar {isQuoted : Bool} {next : Option Char} {text : List Char}
      (hparen : text.head?.or next ≠ some '(') (hbrace : text.head?.or next ≠ some '\x7b')
      (h : Regular isQuoted next text) : Regular isQuoted next ('$' :: text)
  | substitution {isQuoted : Bool} {next : Option Char} {body text : List Char}
      (hbody : Substitution.split (body ++ [')']) = some (body, []))
      (h : Regular isQuoted next text) : Regular isQuoted next ('$' :: '(' :: (body ++ ')' :: text))
  | parameter {isQuoted : Bool} {next : Option Char} {inner text : List Char}
      (hinner : Bare isQuoted .none 0 inner) (h : Regular isQuoted next text) :
      Regular isQuoted next ('$' :: '\x7b' :: (inner ++ text))

namespace Regular

/-! ### The lexer -/

section

open Cursor (Bracket)

/-- What the lexer has open around the text. -/
def around (isQuoted : Bool) : List Bracket := if isQuoted then [.double] else []

theorem around_ne_single (isQuoted : Bool) : (around isQuoted).head? ≠ some .single := by
  cases isQuoted <;> decide

theorem step_letter {isQuoted : Bool} {c : Char} (hc : isMarked isQuoted c = false)
    (next : Option Char) : Cursor.step (around isQuoted) c next = .one (around isQuoted) := by
  cases isQuoted with
  | true => simp_all [around, isMarked, Bracket.marks, Cursor.step_double]
  | false => exact Cursor.step_plain (by simpa [isMarked] using hc) next

theorem step_escape {isQuoted : Bool} {c : Char} (hc : isQuoted = false → c ≠ '\n') :
    Cursor.step (around isQuoted) '\\' (some c) = .two (around isQuoted) := by
  cases isQuoted with
  | true => rfl
  | false => simp [around, Cursor.step_nil, hc, isWordBoundary]

theorem head?_append_or {text rest : List Char} {next : Option Char} (hrest : rest.head? = next) :
    (text ++ rest).head? = text.head?.or next := by
  rw [List.head?_append, hrest]

variable {isQuoted : Bool} {next : Option Char} {text rest : List Char}

theorem closes_single {inner : List Char} (hinner : '\'' ∉ inner) :
    Bracket.single.Closes (inner ++ ['\'']) := by
  induction inner with
  | nil => exact .quote
  | cons c inner ih =>
      obtain ⟨hc, hrest⟩ : '\'' ≠ c ∧ '\'' ∉ inner := by simpa using hinner
      exact .letter (by simpa [Bracket.marks] using hc.symm) (ih hrest)

/-- The lexer reads the text up to its end. -/
theorem readWord (h : Regular isQuoted next text) (hrest : rest.head? = next) (seen : List Char)
    (position : Position) :
    Cursor.readWord (around isQuoted) seen (text ++ rest) position =
      Cursor.readWord (around isQuoted) (text.reverse ++ seen) rest (position.afterAll text) := by
  induction h generalizing seen rest position with
  | nil => rfl
  | @letter isQuoted next c text hc h ih =>
      rw [List.cons_append, Cursor.readWord_cons, step_letter hc]
      simp [ih hrest]
  | @escape isQuoted next c text hc h ih =>
      rw [List.cons_append, List.cons_append, Cursor.readWord_cons, List.head?_cons, step_escape hc]
      simp [ih hrest]
  | @single next inner text hinner h ih =>
      have hopen : ∀ follower, Cursor.step (around false) '\'' follower = .one [.single] :=
        fun _ => rfl
      have hinside := (closes_single hinner).readWord (around false) ('\'' :: seen) (text ++ rest)
        (position.after '\'')
      rw [List.append_assoc, List.singleton_append] at hinside
      rw [List.cons_append, List.append_assoc, Cursor.readWord_cons, hopen]
      refine hinside.trans ?_
      rw [ih hrest]
      simp [Position.afterAll_append]
  | @double next inner text hinner h ihinner ih =>
      have hopen : ∀ follower, Cursor.step (around false) '"' follower = .one (around true) :=
        fun _ => rfl
      have hclose : ∀ follower, Cursor.step (around true) '"' follower = .one (around false) :=
        fun _ => rfl
      have hquote : ('"' :: (text ++ rest)).head? = some '"' := rfl
      rw [List.cons_append, List.append_assoc, Cursor.readWord_cons, hopen]
      simp only [List.cons_append]
      rw [ihinner hquote, Cursor.readWord_cons, hclose]
      simp [ih hrest, Position.afterAll_append]
  | @dollar isQuoted next text hparen hbrace h ih =>
      rw [← head?_append_or hrest] at hparen hbrace
      rw [List.cons_append, Cursor.readWord_dollar (around_ne_single isQuoted) hparen hbrace]
      simp [ih hrest]
  | @substitution isQuoted next body text hbody h ih =>
      have hread := Cursor.readWord_substitution (around_ne_single isQuoted) hbody seen
        (text ++ rest) position
      simp only [List.cons_append, List.append_assoc, hread]
      simp [ih hrest, Position.afterAll_append]
  | @parameter isQuoted next inner text hinner h ih =>
      have hnone : 0 + (([] : List Nat).map (· + 1)).sum = 0 := rfl
      have hread := hinner.readWord hnone (around isQuoted) ('\x7b' :: '$' :: seen) (text ++ rest)
        ((position.after '$').after '\x7b')
      simp only [List.cons_append, List.append_assoc]
      rw [Cursor.readWord_parameter (around_ne_single isQuoted)]
      refine hread.trans ?_
      rw [ih hrest]
      simp [Position.afterAll_append]

end

/-! ### The scan -/

section

open Substitution (Body Frame scan scan_one scan_two)

theorem scan_string {isQuoted : Bool} {next : Option Char} {text rest : List Char}
    (h : Regular isQuoted next text) (hquoted : isQuoted = true) (hrest : rest.head? = next)
    (below : List Frame) (seen : List Char) :
    scan (.string :: below) seen (text ++ rest) =
      scan (.string :: below) (text.reverse ++ seen) rest := by
  induction h generalizing seen with
  | nil => rfl
  | @letter isQuoted next c text hc h ih =>
      subst hquoted
      have hc : c ∉ Cursor.Bracket.double.marks := by simpa [isMarked] using hc
      rw [List.cons_append, scan_one (Substitution.step_string hc ..)]
      simp [ih rfl hrest]
  | escape hc h ih =>
      rw [List.cons_append, List.cons_append, scan_two rfl]
      simp [ih hquoted hrest]
  | single => cases hquoted
  | double => cases hquoted
  | dollar hparen hbrace h ih =>
      rw [← head?_append_or hrest] at hparen
      rw [List.cons_append, scan_one (Substitution.step_string_dollar hparen _)]
      simp [ih hquoted hrest]
  | @substitution isQuoted next body text hbody h ih =>
      have hpassed := Substitution.scan_substitution hbody (List.cons_ne_nil .string below)
        ('(' :: '$' :: seen) (text ++ rest)
      simp only [List.cons_append, List.append_assoc]
      rw [scan_two rfl, hpassed, ih hquoted hrest]
      simp
  | @parameter isQuoted next inner text hinner h ih =>
      simp only [List.cons_append, List.append_assoc]
      subst hquoted
      rw [scan_one rfl, scan_one rfl, hinner.scan_string (by decide), ih rfl hrest]
      simp

theorem scan_quote {inner : List Char} (hinner : '\'' ∉ inner) (below : List Frame)
    (seen rest : List Char) :
    scan (.quote :: below) seen (inner ++ '\'' :: rest) =
      scan below ('\'' :: (inner.reverse ++ seen)) rest := by
  induction inner generalizing seen with
  | nil => exact scan_one rfl seen
  | cons c inner ih =>
      obtain ⟨hc, hrest⟩ : '\'' ≠ c ∧ '\'' ∉ inner := by simpa using hinner
      have hstep : Substitution.step (.quote :: below) c (inner ++ '\'' :: rest).head? =
          .one (.quote :: below) := congrArg Substitution.Step.one (if_neg hc.symm)
      rw [List.cons_append, scan_one hstep, ih hrest]
      simp

/-- What reading a text as a part of a word changes in the state inside a body. -/
structure GoesOver (body after : Body) (text : List Char) : Prop where
  unmatched : after.unmatched = body.unmatched
  cases : after.cases = body.cases
  comment : after.comment = false
  word : after.plain = true → body.plain = true ∧ after.word = text.reverse ++ body.word
  marked : after.plain = false → body.plain = false ∨ ∃ c ∈ text, isPlain c = false

variable {body : Body} {below : List Frame} {c : Char} {next : Option Char} {text rest : List Char}

theorem step_body (below : List Frame) (next : Option Char) (hcomment : body.comment = false)
    (hc : isWordBoundary c = false) :
    Substitution.step (.body body :: below) c next = body.inner below c next := by
  simp [Substitution.step, hcomment, hc]

/-- The letter of a word, which a number sign is not at its start. -/
theorem inner_letter (hc : isPlain c = true)
    (hstart : body.word ≠ [] ∨ body.plain = false ∨ c ≠ '#') :
    body.inner below c next = .one (.body { body with word := c :: body.word } :: below) := by
  simp only [isPlain, Bool.and_eq_true, Bool.not_eq_true', bne_iff_ne] at hc
  unfold Body.inner
  split
  · simp_all
  · simp_all
  · simp_all
  · simp_all
  · have hnot : (body.word.isEmpty && body.plain) = false := by
      rcases hstart with hword | hplain | hhash
      · simp [hword]
      · simp [hplain]
      · exact absurd rfl hhash
    simp [hnot]
  · rfl

theorem GoesOver.refl (hcomment : body.comment = false) : GoesOver body body [] :=
  ⟨rfl, rfl, hcomment, fun hplain => ⟨hplain, rfl⟩, .inl⟩

/-- Behind a mark the word is no longer plain. -/
theorem GoesOver.mark {after : Body} {piece : List Char}
    (h : GoesOver { body with plain := false } after text)
    (hpiece : ∃ c ∈ piece, isPlain c = false) :
    GoesOver body after (piece ++ text) where
  unmatched := h.unmatched
  cases := h.cases
  comment := h.comment
  word hplain := absurd (h.word hplain).1 Bool.false_ne_true
  marked _ := by
    obtain ⟨c, hc, hmark⟩ := hpiece
    exact .inr ⟨c, by simp [hc], hmark⟩

/-- The scan goes over a text that stands in a body. -/
def Passed (below : List Frame) (text rest : List Char) (body : Body) (seen : List Char) : Prop :=
  ∃ after, GoesOver body after text ∧
    scan (.body body :: below) seen (text ++ rest) =
      scan (.body after :: below) (text.reverse ++ seen) rest

/-- After a piece that is not plain the rest is passed over behind a mark. -/
theorem Passed.mark (piece : List Char) {seen : List Char}
    (h : Passed below text rest { body with plain := false } (piece.reverse ++ seen))
    (hpiece : ∃ c ∈ piece, isPlain c = false)
    (hscan : scan (.body body :: below) seen (piece ++ (text ++ rest)) =
      scan (.body { body with plain := false } :: below) (piece.reverse ++ seen) (text ++ rest)) :
    Passed below (piece ++ text) rest body seen := by
  obtain ⟨after, hafter, hpassed⟩ := h
  refine ⟨after, hafter.mark hpiece, ?_⟩
  rw [List.append_assoc, hscan, hpassed]
  simp

theorem scan_body {isQuoted : Bool} (h : Regular isQuoted next text) (hquoted : isQuoted = false)
    (hrest : rest.head? = next) (hcomment : body.comment = false)
    (hstart : body.word ≠ [] ∨ body.plain = false ∨ text.head? ≠ some '#') (seen : List Char) :
    Passed below text rest body seen := by
  induction h generalizing body seen with
  | nil => exact ⟨body, .refl hcomment, rfl⟩
  | @letter isQuoted next c text hc h ih =>
      subst hquoted
      have hc : isPlain c = true := by simpa [isMarked] using hc
      have hletter : body.word ≠ [] ∨ body.plain = false ∨ c ≠ '#' := by simpa using hstart
      have hstep := (step_body below (text ++ rest).head? hcomment
        (isWordBoundary_of_isPlain hc)).trans (inner_letter hc hletter)
      obtain ⟨after, hafter, hscan⟩ : Passed below text rest { body with word := c :: body.word }
        (c :: seen) :=
          @ih { body with word := c :: body.word } rfl hrest hcomment (.inl (by simp)) _
      refine ⟨after, ⟨hafter.unmatched, hafter.cases, hafter.comment, fun hplain => ?_,
        fun hplain => ?_⟩, ?_⟩
      · obtain ⟨hbody, hword⟩ := hafter.word hplain
        exact ⟨hbody, by simp [hword]⟩
      · refine (hafter.marked hplain).imp_right ?_
        rintro ⟨d, hd, hmark⟩
        exact ⟨d, List.mem_cons_of_mem c hd, hmark⟩
      · rw [List.cons_append, scan_one hstep, hscan]
        simp
  | @escape isQuoted next c text hc h ih =>
      have hstep := step_body below (some c) hcomment (c := '\\') (by decide)
      have hbehind := @ih { body with plain := false } hquoted hrest hcomment (.inr (.inl rfl))
      exact .mark ['\\', c] (hbehind _) ⟨'\\', by simp, by decide⟩ (scan_two hstep seen)
  | @single next inner text hinner h ih =>
      have hstep := step_body below (inner ++ '\'' :: (text ++ rest)).head? hcomment (c := '\'')
        (by decide)
      have htext : '\'' :: (inner ++ '\'' :: text) = '\'' :: (inner ++ ['\'']) ++ text := by simp
      rw [htext]
      have hbehind := @ih { body with plain := false } rfl hrest hcomment (.inr (.inl rfl))
      refine .mark _ (hbehind _) ⟨'\'', by simp, by decide⟩ ?_
      simp only [List.cons_append, List.append_assoc, List.nil_append]
      rw [scan_one hstep, scan_quote hinner]
      simp
  | @double next inner text hinner h ihinner ih =>
      have hstep := step_body below (inner ++ '"' :: (text ++ rest)).head? hcomment (c := '"')
        (by decide)
      have htext : '"' :: (inner ++ '"' :: text) = '"' :: (inner ++ ['"']) ++ text := by simp
      rw [htext]
      have hbehind := @ih { body with plain := false } rfl hrest hcomment (.inr (.inl rfl))
      refine .mark _ (hbehind _) ⟨'"', by simp, by decide⟩ ?_
      simp only [List.cons_append, List.append_assoc, List.nil_append]
      rw [scan_one hstep, scan_string hinner rfl rfl, scan_one rfl]
      simp
  | @dollar isQuoted next text hparen hbrace h ih =>
      have hinner : body.inner below '$' (text ++ rest).head? =
          .one (.body { body with plain := false } :: below) := by
        rw [← head?_append_or hrest] at hparen hbrace
        rw [Body.inner_dollar]
        split <;> simp_all
      have hstep := (step_body below _ hcomment (c := '$') (by decide)).trans hinner
      have hbehind := @ih { body with plain := false } hquoted hrest hcomment (.inr (.inl rfl))
      exact .mark ['$'] (hbehind _) ⟨'$', by simp, by decide⟩ (scan_one hstep seen)
  | @substitution isQuoted next inside text hbody h ih =>
      have hstep := step_body below (some '(') hcomment (c := '$') (by decide)
      have htext : '$' :: '(' :: (inside ++ ')' :: text) =
          '$' :: '(' :: (inside ++ [')']) ++ text := by simp
      rw [htext]
      have hbehind := @ih { body with plain := false } hquoted hrest hcomment (.inr (.inl rfl))
      refine .mark _ (hbehind _) ⟨'$', by simp, by decide⟩ ?_
      simp only [List.cons_append, List.append_assoc, List.nil_append]
      rw [scan_two hstep, Substitution.scan_substitution hbody (by simp)]
      simp
  | @parameter isQuoted next inner text hinner h ih =>
      have hstep := step_body below (some '\x7b') hcomment (c := '$') (by decide)
      have htext : '$' :: '\x7b' :: (inner ++ text) = '$' :: '\x7b' :: inner ++ text := by simp
      rw [htext]
      have hbehind := @ih { body with plain := false } hquoted hrest hcomment (.inr (.inl rfl))
      refine .mark _ (hbehind _) ⟨'$', by simp, by decide⟩ ?_
      simp only [List.cons_append]
      subst hquoted
      rw [scan_two hstep, hinner.scan_braces]
      simp

/-- The state where no word has begun. -/
def rested (unmatched : Nat) (cases : Substitution.Cases) : Body :=
  ⟨unmatched, cases, [], true, false⟩

theorem reserved?_eq_none (h : ∃ c ∈ text, isPlain c = false) :
    Token.reserved? (String.ofList text) = none := by
  obtain ⟨c, hc, hmark⟩ := h
  cases hreserved : Token.reserved? (String.ofList text) with
  | none => rfl
  | some token =>
      have htext := congrArg String.toList (Token.reserved?_text hreserved)
      have hplain : ∀ token ∈ Token.reservedWords, token.text.toList.all isPlain = true := by
        decide
      have hletters := hplain token (List.mem_of_find?_eq_some hreserved)
      rw [htext, String.toList_ofList] at hletters
      rw [List.all_eq_true.mp hletters c hc] at hmark
      cases hmark

/-- At the end of the word the scan has taken note of its text. -/
theorem GoesOver.endWord {unmatched : Nat} {cases : Substitution.Cases} {after : Body}
    (h : GoesOver (rested unmatched cases) after text) (htext : text ≠ []) :
    after.endWord = rested unmatched (cases.word (some (String.ofList text))) := by
  obtain ⟨hunmatched, hcases, hcomment, hword, hmarked⟩ := h
  cases hplain : after.plain with
  | true =>
      have hletters : after.word = text.reverse := by simpa [rested] using (hword hplain).2
      simp [Body.endWord, hplain, htext, hletters, hunmatched, hcases, hcomment, rested]
  | false =>
      have hreserved : ∃ c ∈ text, isPlain c = false :=
        (hmarked hplain).resolve_left Bool.noConfusion
      have hnoted : cases.word (some (String.ofList text)) = cases.word none := by
        simp [Substitution.Cases.word, reserved?_eq_none hreserved]
      simp [Body.endWord, hplain, hunmatched, hcases, hcomment, hnoted, rested]

end

end Regular

end Conch.Syntax
