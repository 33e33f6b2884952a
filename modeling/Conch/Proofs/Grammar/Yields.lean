import Conch.Proofs.Grammar.Ensures

/-!
# What a grammar returns and how it fails

`g.Yields known faulty P` says of the grammar `g`, on lexemes that are all `known`, that
its results have the property `P` and its failures the property `faulty`.  The grammar
names a lexeme as unexpected only where that lexeme is at the front.
-/

namespace Conch.Syntax.Grammar

variable {α β : Type} {known : Lexeme → Prop} {faulty : Failure → Prop}

structure Yields (known : Lexeme → Prop) (faulty : Failure → Prop) (g : Grammar α) (P : α → Prop) :
    Prop where
  ensures : Ensures known g P
  fails : ∀ stream failure, Lexemes.All known stream → g stream = .error failure → faulty failure

/-- A known lexeme may be unexpected, and nothing is asked of the failures with another cause. -/
structure Blames (known : Lexeme → Prop) (faulty : Failure → Prop) : Prop where
  front : ∀ lexeme, known lexeme →
    faulty ⟨⟨.unexpectedToken lexeme.describe, lexeme.position⟩, false⟩
  other : ∀ failure, (∀ token, failure.error.cause ≠ .unexpectedToken token) → faulty failure

theorem bind_eq_error {g : Grammar α} {next : α → Grammar β} {stream : Lexemes} {failure : Failure}
    (h : (g >>= next) stream = .error failure) :
    g stream = .error failure ∨
      ∃ a middle, g stream = .ok (a, middle) ∧ next a middle = .error failure := by
  cases hg : g stream with
  | error e =>
      rw [bind_error hg] at h
      obtain rfl := Except.error.inj h
      exact .inl rfl
  | ok result =>
      obtain ⟨a, middle⟩ := result
      rw [bind_ok hg] at h
      exact .inr ⟨a, middle, rfl, h⟩

namespace Yields

variable {P Q : α → Prop}

theorem weaken {g : Grammar α} (hg : Yields known faulty g P) (h : ∀ a, P a → Q a) :
    Yields known faulty g Q where
  ensures := fun stream a rest hstream hok =>
    let ⟨ha, hrest⟩ := hg.ensures stream a rest hstream hok
    ⟨h a ha, hrest⟩
  fails := hg.fails

theorem pure {a : α} (h : P a) : Yields known faulty (pure a) P :=
  ⟨.pure h, fun _ _ _ herror => nomatch herror⟩

theorem bind {g : Grammar α} {next : α → Grammar β} {R : β → Prop}
    (hg : Yields known faulty g P) (hnext : ∀ a, P a → Yields known faulty (next a) R) :
    Yields known faulty (g >>= next) R where
  ensures := hg.ensures.bind fun a ha => (hnext a ha).ensures
  fails := by
    intro stream failure hstream herror
    rcases bind_eq_error herror with hfirst | ⟨a, middle, hfirst, hsecond⟩
    · exact hg.fails stream failure hstream hfirst
    · obtain ⟨ha, hmiddle⟩ := hg.ensures stream a middle hstream hfirst
      exact (hnext a ha).fails middle failure hmiddle hsecond

theorem cond {c : Prop} [Decidable c] {g h : Grammar α} (hg : c → Yields known faulty g P)
    (hh : ¬c → Yields known faulty h P) : Yields known faulty (if c then g else h) P := by
  split
  · rename_i hc
    exact hg hc
  · rename_i hc
    exact hh hc

end Yields

/-! ## Single lexemes -/

theorem yields_advance : Yields known faulty advance (fun _ => True) :=
  ⟨ensures_advance, fun _ _ _ h => nomatch h⟩

theorem yields_current :
    Yields known faulty current (fun front => ∀ lexeme ∈ front, known lexeme) :=
  ⟨ensures_current, fun _ _ _ h => nomatch h⟩

theorem yields_remaining : Yields known faulty remaining (fun _ => True) :=
  ⟨ensures_remaining, fun _ _ _ h => nomatch h⟩

theorem yields_skipNewlines : Yields known faulty skipNewlines (fun _ => True) :=
  ⟨ensures_skipNewlines, fun _ _ _ h => nomatch h⟩

theorem yields_atOperator (token : Token) :
    Yields known faulty (atOperator token) (fun _ => True) :=
  yields_current.bind fun _ _ => .pure trivial

theorem yields_atToken (token : Token) : Yields known faulty (atToken token) (fun _ => True) :=
  yields_current.bind fun _ _ => .pure trivial

theorem yields_skipEmptyEnd : Yields known faulty skipEmptyEnd (fun _ => True) := by
  have hnext : Yields known faulty (nextIs .esacWord) (fun _ => True) :=
    yields_remaining.bind fun _ _ => .pure trivial
  refine (yields_atOperator .semicolon).bind fun _ _ => hnext.bind fun _ _ => ?_
  exact .cond (fun _ => yields_advance) (fun _ => .pure trivial)

section

variable (hblames : Blames known faulty)

include hblames

theorem yields_unexpected {P : α → Prop} : Yields known faulty unexpected P where
  ensures := ensures_unexpected
  fails := by
    intro stream failure hstream h
    unfold unexpected at h
    split at h
    · cases h
      exact hblames.other _ (fun token => by simp)
    · rename_i lexeme items hitems
      cases h
      exact hblames.front lexeme (hstream lexeme (by simp [hitems]))

theorem yields_failHere {cause : ParseError.Cause} {P : α → Prop}
    (hcause : ∀ token, cause ≠ .unexpectedToken token) :
    Yields known faulty (failHere cause) P where
  ensures := ensures_failHere
  fails := by
    intro stream failure _ h
    cases h
    exact hblames.other _ hcause

theorem yields_failAt {position : Position} {cause : ParseError.Cause} {P : α → Prop}
    (hcause : ∀ token, cause ≠ .unexpectedToken token) :
    Yields known faulty (failAt position cause) P where
  ensures := ensures_failAt
  fails := by
    intro stream failure _ h
    cases h
    exact hblames.other _ hcause

theorem yields_expect (token : Token) : Yields known faulty (expect token) (fun _ => True) :=
  (yields_atToken token).bind fun _ _ =>
    .cond (fun _ => yields_advance) (fun _ => yields_unexpected hblames)

end

/-! ## Repetitions -/

theorem yields_collect {step : Grammar (Option α)} {P : α → Prop}
    (hstep : Yields known faulty step (fun found => ∀ a ∈ found, P a)) (bound : List Lexeme)
    {found : List α} (hfound : ∀ a ∈ found, P a) :
    Yields known faulty (collect step bound found) (fun results => ∀ a ∈ results, P a) := by
  induction bound generalizing found with
  | nil =>
      unfold collect
      refine hstep.bind fun next hnext => ?_
      cases next with
      | none => exact .pure (by simpa using hfound)
      | some a =>
          have hall := List.forall_mem_cons.mpr ⟨hnext a rfl, hfound⟩
          exact .pure fun b hb => hall b (List.mem_reverse.mp hb)
  | cons lexeme bound ih =>
      unfold collect
      refine hstep.bind fun next hnext => ?_
      cases next with
      | none => exact .pure (by simpa using hfound)
      | some a => exact ih (List.forall_mem_cons.mpr ⟨hnext a rfl, hfound⟩)

theorem yields_many {step : Grammar (Option α)} {P : α → Prop}
    (hstep : Yields known faulty step (fun found => ∀ a ∈ found, P a)) :
    Yields known faulty (many step) (fun results => ∀ a ∈ results, P a) :=
  yields_remaining.bind fun bound _ => yields_collect hstep bound (by simp)

theorem yields_extend {step : α → Grammar (Option α)} {P : α → Prop}
    (hstep : ∀ a, P a → Yields known faulty (step a) (fun next => ∀ b ∈ next, P b))
    (bound : List Lexeme) {a : α} (ha : P a) : Yields known faulty (extend step bound a) P := by
  induction bound generalizing a with
  | nil =>
      unfold extend
      refine (hstep a ha).bind fun next hnext => ?_
      cases next with
      | none => exact .pure ha
      | some b => exact .pure (hnext b rfl)
  | cons lexeme bound ih =>
      unfold extend
      refine (hstep a ha).bind fun next hnext => ?_
      cases next with
      | none => exact .pure ha
      | some b => exact ih (hnext b rfl)

end Conch.Syntax.Grammar
