import Conch.Proofs.Grammar.Leads

/-!
# What a grammar returns

`g.Ensures known P` says that every result of the grammar `g` has the property `P`,
when all lexemes before it have the property `known`.  Nothing is said about failures.
-/

namespace Conch.Syntax

/-- Every lexeme still to be read has the property. -/
def Lexemes.All (known : Lexeme → Prop) (stream : Lexemes) : Prop :=
  ∀ lexeme ∈ stream.items, known lexeme

namespace Grammar

variable {α β : Type} {known : Lexeme → Prop}

def Ensures (known : Lexeme → Prop) (g : Grammar α) (P : α → Prop) : Prop :=
  ∀ (stream : Lexemes) (a : α) (rest : Lexemes), Lexemes.All known stream →
    g stream = .ok (a, rest) → P a ∧ Lexemes.All known rest

theorem bind_eq_ok {g : Grammar α} {next : α → Grammar β} {stream rest : Lexemes} {b : β}
    (h : (g >>= next) stream = .ok (b, rest)) :
    ∃ a middle, g stream = .ok (a, middle) ∧ next a middle = .ok (b, rest) := by
  cases hg : g stream with
  | error failure =>
      rw [bind_error hg] at h
      cases h
  | ok result =>
      obtain ⟨a, middle⟩ := result
      rw [bind_ok hg] at h
      exact ⟨a, middle, rfl, h⟩

namespace Ensures

variable {P Q : α → Prop}

theorem pure {a : α} (h : P a) : Ensures known (pure a) P := by
  intro stream b rest hstream hg
  cases hg
  exact ⟨h, hstream⟩

theorem bind {g : Grammar α} {next : α → Grammar β} {R : β → Prop} (hg : Ensures known g P)
    (hnext : ∀ a, P a → Ensures known (next a) R) : Ensures known (g >>= next) R := by
  intro stream b rest hstream h
  obtain ⟨a, middle, hfirst, hsecond⟩ := bind_eq_ok h
  obtain ⟨ha, hmiddle⟩ := hg stream a middle hstream hfirst
  exact hnext a ha middle b rest hmiddle hsecond

/-- What holds of the last part whatever was read before. -/
theorem last {g : Grammar α} {next : α → Grammar β} {R : β → Prop}
    (hnext : ∀ a, Ensures (fun _ => True) (next a) R) : Ensures (fun _ => True) (g >>= next) R := by
  intro stream b rest hstream h
  obtain ⟨a, middle, _, hrest⟩ := bind_eq_ok h
  exact hnext a middle b rest (fun _ _ => trivial) hrest

theorem cond {c : Prop} [Decidable c] {g h : Grammar α} (hg : c → Ensures known g P)
    (hh : ¬c → Ensures known h P) : Ensures known (if c then g else h) P := by
  split
  · rename_i hc
    exact hg hc
  · rename_i hc
    exact hh hc

end Ensures

/-! ## Single lexemes -/

theorem ensures_unexpected {P : α → Prop} : Ensures known unexpected P := by
  intro stream a rest _ h
  unfold unexpected at h
  split at h <;> cases h

theorem ensures_failHere {cause : ParseError.Cause} {P : α → Prop} :
    Ensures known (failHere cause) P := by
  intro stream a rest _ h
  cases h

theorem ensures_failAt {position : Position} {cause : ParseError.Cause} {P : α → Prop} :
    Ensures known (failAt position cause) P := by
  intro stream a rest _ h
  cases h

theorem ensures_advance : Ensures known advance (fun _ => True) := by
  intro stream a rest hstream h
  cases h
  exact ⟨trivial, fun lexeme hlexeme => hstream lexeme (List.mem_of_mem_tail hlexeme)⟩

theorem ensures_current : Ensures known current (fun front => ∀ lexeme ∈ front, known lexeme) := by
  intro stream a rest hstream h
  cases h
  exact ⟨fun lexeme hlexeme => hstream lexeme (List.mem_of_head? hlexeme), hstream⟩

theorem ensures_remaining : Ensures known remaining (fun _ => True) := by
  intro stream a rest hstream h
  cases h
  exact ⟨trivial, hstream⟩

theorem ensures_skipNewlines : Ensures known skipNewlines (fun _ => True) := by
  intro stream a rest hstream h
  cases h
  exact ⟨trivial, fun lexeme hlexeme =>
    hstream lexeme ((List.dropWhile_sublist _).mem hlexeme)⟩

theorem ensures_atOperator (token : Token) : Ensures known (atOperator token) (fun _ => True) :=
  ensures_current.bind (fun _ _ => .pure trivial)

theorem ensures_atToken (token : Token) : Ensures known (atToken token) (fun _ => True) :=
  ensures_current.bind (fun _ _ => .pure trivial)

theorem ensures_nextIs (token : Token) : Ensures known (nextIs token) (fun _ => True) :=
  ensures_remaining.bind (fun _ _ => .pure trivial)

theorem ensures_expect (token : Token) : Ensures known (expect token) (fun _ => True) :=
  (ensures_atToken token).bind (fun _ _ =>
    .cond (fun _ => ensures_advance) (fun _ => ensures_unexpected))

theorem ensures_skipEmptyEnd : Ensures known skipEmptyEnd (fun _ => True) := by
  refine (ensures_atOperator .semicolon).bind (fun _ _ => ?_)
  refine (ensures_nextIs .esacWord).bind (fun _ _ => ?_)
  exact .cond (fun _ => ensures_advance) (fun _ => .pure trivial)

/-! ## Repetitions -/

theorem ensures_collect {step : Grammar (Option α)} {P : α → Prop}
    (hstep : Ensures known step (fun found => ∀ a ∈ found, P a)) (bound : List Lexeme)
    {found : List α} (hfound : ∀ a ∈ found, P a) :
    Ensures known (collect step bound found) (fun results => ∀ a ∈ results, P a) := by
  induction bound generalizing found with
  | nil =>
      unfold collect
      refine hstep.bind (fun next hnext => ?_)
      cases next with
      | none => exact .pure (by simpa using hfound)
      | some a =>
          have ha : P a := hnext a rfl
          refine .pure ?_
          intro b hb
          rcases List.mem_cons.mp (List.mem_reverse.mp hb) with rfl | hb
          · exact ha
          · exact hfound b hb
  | cons lexeme bound ih =>
      unfold collect
      refine hstep.bind (fun next hnext => ?_)
      cases next with
      | none => exact .pure (by simpa using hfound)
      | some a =>
          refine ih ?_
          intro b hb
          rcases List.mem_cons.mp hb with rfl | hb
          · exact hnext b rfl
          · exact hfound b hb

theorem ensures_many {step : Grammar (Option α)} {P : α → Prop}
    (hstep : Ensures known step (fun found => ∀ a ∈ found, P a)) :
    Ensures known (many step) (fun results => ∀ a ∈ results, P a) :=
  ensures_remaining.bind (fun bound _ => ensures_collect hstep bound (by simp))

theorem ensures_extend {step : α → Grammar (Option α)} {P : α → Prop}
    (hstep : ∀ a, P a → Ensures known (step a) (fun next => ∀ b ∈ next, P b))
    (bound : List Lexeme) {a : α} (ha : P a) : Ensures known (extend step bound a) P := by
  induction bound generalizing a with
  | nil =>
      unfold extend
      refine (hstep a ha).bind (fun next hnext => ?_)
      cases next with
      | none => exact .pure ha
      | some b => exact .pure (hnext b rfl)
  | cons lexeme bound ih =>
      unfold extend
      refine (hstep a ha).bind (fun next hnext => ?_)
      cases next with
      | none => exact .pure ha
      | some b => exact ih (hnext b rfl)

/-- The first of some collected results is what the step finds at the start. -/
theorem collect_first {step : Grammar (Option α)} {bound : List Lexeme} {found results : List α}
    {stream rest : Lexemes} (h : collect step bound found stream = .ok (results, rest)) :
    ∃ more, results = found.reverse ++ more ∧
      ∀ a, more.head? = some a → ∃ middle, step stream = .ok (some a, middle) := by
  induction bound generalizing found stream with
  | nil =>
      unfold collect at h
      obtain ⟨next, middle, hstep, hrest⟩ := bind_eq_ok h
      cases next with
      | none =>
          cases hrest
          exact ⟨[], by simp, by simp⟩
      | some a =>
          cases hrest
          refine ⟨[a], by simp, ?_⟩
          rintro b ⟨⟩
          exact ⟨_, hstep⟩
  | cons lexeme bound ih =>
      unfold collect at h
      obtain ⟨next, middle, hstep, hrest⟩ := bind_eq_ok h
      cases next with
      | none =>
          cases hrest
          exact ⟨[], by simp, by simp⟩
      | some a =>
          obtain ⟨more, hmore, _⟩ := ih hrest
          refine ⟨a :: more, by simp [hmore], ?_⟩
          rintro b ⟨⟩
          exact ⟨middle, hstep⟩

theorem many_first {step : Grammar (Option α)} {results : List α} {stream rest : Lexemes}
    (h : many step stream = .ok (results, rest)) {a : α} (ha : results.head? = some a) :
    ∃ middle, step stream = .ok (some a, middle) := by
  obtain ⟨bound, middle, hbound, hcollect⟩ := bind_eq_ok h
  cases hbound
  obtain ⟨more, hmore, hfirst⟩ := collect_first hcollect
  rw [List.reverse_nil, List.nil_append] at hmore
  exact hfirst a (hmore ▸ ha)

end Grammar

end Conch.Syntax
