import Conch.Proofs.Lexing.Words

/-!
# Where the lexer takes an expansion to end

From the dollar sign of `$(` or `$\x7b` on the lexer reads without regard to what stands
around the expansion, up to the character that closes it (`readWord_expansion`).  In a word
that is read to its end every expansion has such a place (`expands_of_readWord`).
-/

namespace Conch.Syntax

namespace Cursor

/--
How the lexer comes from one stack and text to another, with some quote or expansion open
all the way.
-/
inductive Reads : List Bracket → List Char → List Bracket → List Char → Prop
  | here (stack : List Bracket) (text : List Char) : Reads stack text stack text
  | one {stack next final : List Bracket} {c : Char} {after rest : List Char} (hopen : stack ≠ [])
      (h : step stack c after.head? = .one next) (hrest : Reads next after final rest) :
      Reads stack (c :: after) final rest
  | two {stack next final : List Bracket} {c d : Char} {after rest : List Char}
      (hopen : stack ≠ []) (h : step stack c (some d) = .two next)
      (hrest : Reads next after final rest) : Reads stack (c :: d :: after) final rest
  | substitution {stack final : List Bracket} {c : Char} {body after middle rest : List Char}
      (hopen : stack ≠ []) (h : step stack c (some '(') = .substitution)
      (hsplit : Substitution.split after = some (body, middle))
      (hrest : Reads stack middle final rest) : Reads stack (c :: '(' :: after) final rest

/-- After a dollar sign the lexer reads an expansion up to `rest`. -/
inductive Expands : List Char → List Char → Prop
  | substitution {inside body rest : List Char}
      (h : Substitution.split inside = some (body, rest)) : Expands ('(' :: inside) rest
  | parameter {inside rest : List Char} (h : Reads [.braces 0] inside [] rest) :
      Expands ('\x7b' :: inside) rest

/-! ## Reading inside another stack -/

/-- The step with these brackets open below. -/
def Step.above (below : List Bracket) : Step → Step
  | .one stack => .one (stack ++ below)
  | .two stack => .two (stack ++ below)
  | other => other

namespace Step

variable {below whole : List Bracket} {step : Step}

theorem above_eq_one (h : step.above below = .one whole) :
    ∃ stack, step = .one stack ∧ stack ++ below = whole := by
  cases step <;> cases h
  exact ⟨_, rfl, rfl⟩

theorem above_eq_two (h : step.above below = .two whole) :
    ∃ stack, step = .two stack ∧ stack ++ below = whole := by
  cases step <;> cases h
  exact ⟨_, rfl, rfl⟩

theorem above_eq_substitution (h : step.above below = .substitution) : step = .substitution := by
  cases step <;> cases h
  rfl

end Step

theorem dollar_append (stack below : List Bracket) (next : Option Char) :
    dollar (stack ++ below) next = (dollar stack next).above below := by
  unfold dollar
  split <;> rfl

theorem step_single (below : List Bracket) (c : Char) (next : Option Char) :
    step (.single :: below) c next = .one (if c = '\'' then below else .single :: below) := rfl

theorem step_double (below : List Bracket) (c : Char) (next : Option Char) :
    step (.double :: below) c next =
      match c with
      | '"' => .one below
      | '\\' => .two (.double :: below)
      | '$' => dollar (.double :: below) next
      | _ => .one (.double :: below) := rfl

theorem step_braces (depth : Nat) (below : List Bracket) (c : Char) (next : Option Char) :
    step (.braces depth :: below) c next =
      match c, depth with
      | '\\', _ => .two (.braces depth :: below)
      | '\'', _ => .one (.single :: .braces depth :: below)
      | '"', _ => .one (.double :: .braces depth :: below)
      | '$', _ => dollar (.braces depth :: below) next
      | '\x7b', _ => .one (.braces (depth + 1) :: below)
      | '\x7d', 0 => .one below
      | '\x7d', n + 1 => .one (.braces n :: below)
      | _, _ => .one (.braces depth :: below) := rfl

/-- Only the innermost bracket counts. -/
theorem step_append {stack : List Bracket} (hopen : stack ≠ []) (below : List Bracket) (c : Char)
    (next : Option Char) : step (stack ++ below) c next = (step stack c next).above below := by
  match stack with
  | [] => exact absurd rfl hopen
  | .single :: inner =>
      rw [List.cons_append, step_single, step_single, Step.above]
      split <;> rfl
  | .double :: inner =>
      rw [List.cons_append, step_double, step_double]
      split
      · rfl
      · rfl
      · exact dollar_append (.double :: inner) below next
      · rfl
  | .braces depth :: inner =>
      rw [List.cons_append, step_braces, step_braces]
      split
      · rfl
      · rfl
      · rfl
      · exact dollar_append (.braces depth :: inner) below next
      · rfl
      · rfl
      · rfl
      · rfl

theorem dollar_two {below stack : List Bracket} {next : Option Char}
    (h : dollar below next = .two stack) : next = some '\x7b' ∧ stack = .braces 0 :: below := by
  unfold dollar at h
  split at h <;> cases h
  exact ⟨rfl, rfl⟩

theorem step_two_open {stack next : List Bracket} {c : Char} {d : Option Char} (hopen : stack ≠ [])
    (h : step stack c d = .two next) : next ≠ [] := by
  match stack with
  | [] => exact absurd rfl hopen
  | .single :: inner => cases h
  | .double :: inner =>
      rw [step_double] at h
      split at h
      · cases h
      · cases h
        exact List.cons_ne_nil _ _
      · exact (dollar_two h).2 ▸ List.cons_ne_nil _ _
      · cases h
  | .braces depth :: inner =>
      rw [step_braces] at h
      split at h
      · cases h
        exact List.cons_ne_nil _ _
      · cases h
      · cases h
      · exact (dollar_two h).2 ▸ List.cons_ne_nil _ _
      · cases h
      · cases h
      · cases h
      · cases h

section

variable {stack final : List Bracket} {text rest : List Char}

/-- What is read on the way goes to the word as it stands, whatever is open below. -/
theorem Reads.readWord (h : Reads stack text final rest) :
    ∃ piece, text = piece ++ rest ∧ ∀ below seen position,
      Cursor.readWord (stack ++ below) seen text position =
        Cursor.readWord (final ++ below) (piece.reverse ++ seen) rest
          (position.afterAll piece) := by
  induction h with
  | here stack text => exact ⟨[], rfl, fun _ _ _ => rfl⟩
  | @one stack next final c after rest hopen h hrest ih =>
      obtain ⟨piece, rfl, hread⟩ := ih
      refine ⟨c :: piece, rfl, fun below seen position => ?_⟩
      rw [readWord_cons, step_append hopen, h, Step.above]
      simpa using hread below (c :: seen) (position.after c)
  | @two stack next final c d after rest hopen h hrest ih =>
      obtain ⟨piece, rfl, hread⟩ := ih
      refine ⟨c :: d :: piece, rfl, fun below seen position => ?_⟩
      rw [readWord_cons, step_append hopen, List.head?_cons, h, Step.above]
      simpa using hread below (d :: c :: seen) ((position.after c).after d)
  | @substitution stack final c body after middle rest hopen h hsplit hrest ih =>
      obtain ⟨piece, rfl, hread⟩ := ih
      obtain rfl := Substitution.split_eq_some hsplit
      refine ⟨c :: '(' :: (body ++ ')' :: piece), by simp, fun below seen position => ?_⟩
      rw [readWord_cons, step_append hopen, List.head?_cons, h]
      simp only [Step.above, List.tail_cons, hsplit]
      rw [hread]
      simp [List.reverseAux_eq, Position.afterAll_append]

/-- A word that comes to its end has all its brackets closed. -/
theorem reads_of_readWord {below : List Bracket} {seen : List Char} {position : Position}
    {result : List Char × Cursor}
    (h : Cursor.readWord (stack ++ below) seen text position = .ok result) :
    ∃ rest, Reads stack text [] rest := by
  generalize hwhole : stack ++ below = whole at h
  fun_induction Cursor.readWord whole seen text position generalizing stack with
  | case1 =>
      obtain ⟨rfl, _⟩ := List.append_eq_nil_iff.mp hwhole
      exact ⟨_, .here [] _⟩
  | case2 => cases h
  | case3 whole seen position c after hstep =>
      obtain ⟨rfl, _⟩ := List.append_eq_nil_iff.mp (hwhole.trans (step_stop hstep).1)
      exact ⟨_, .here [] _⟩
  | case4 whole seen position c after whole' hstep ih =>
      rcases eq_or_ne stack [] with rfl | hopen
      · exact ⟨_, .here [] _⟩
      rw [← hwhole, step_append hopen] at hstep
      obtain ⟨next, hnext, hbelow⟩ := Step.above_eq_one hstep
      obtain ⟨rest, hrest⟩ := ih hbelow h
      exact ⟨rest, .one hopen hnext hrest⟩
  | case5 whole seen position c whole' hstep ih =>
      rcases eq_or_ne stack [] with rfl | hopen
      · exact ⟨_, .here [] _⟩
      rw [← hwhole, step_append hopen] at hstep
      obtain ⟨next, hnext, hbelow⟩ := Step.above_eq_two hstep
      obtain ⟨_, hrest⟩ := ih hbelow h
      cases hrest
      exact absurd rfl (step_two_open hopen hnext)
  | case6 whole seen position c whole' d after hstep ih =>
      rcases eq_or_ne stack [] with rfl | hopen
      · exact ⟨_, .here [] _⟩
      rw [← hwhole, step_append hopen, List.head?_cons] at hstep
      obtain ⟨next, hnext, hbelow⟩ := Step.above_eq_two hstep
      obtain ⟨rest, hrest⟩ := ih hbelow h
      exact ⟨rest, .two hopen hnext hrest⟩
  | case7 => cases h
  | case8 whole seen position c after hstep =>
      obtain ⟨rfl, _⟩ := List.append_eq_nil_iff.mp (hwhole.trans (step_join hstep).1)
      exact ⟨_, .here [] _⟩
  | case9 => cases h
  | case10 whole seen position c after hstep _ _ _ hsplit =>
      rename_i ih
      rcases eq_or_ne stack [] with rfl | hopen
      · exact ⟨_, .here [] _⟩
      obtain ⟨_, hparen⟩ := step_substitution hstep
      obtain ⟨after, rfl⟩ : ∃ tail, after = '(' :: tail := by
        cases after with
        | nil => cases hparen
        | cons d tail => exact ⟨tail, by rw [Option.some.inj hparen]⟩
      rw [← hwhole, step_append hopen, List.head?_cons] at hstep
      obtain ⟨rest, hrest⟩ := ih hwhole h
      exact ⟨rest, .substitution hopen (Step.above_eq_substitution hstep) hsplit hrest⟩

/-- With all brackets closed nothing more is read. -/
theorem Reads.of_nil (h : Reads [] text final rest) : rest = text := by
  cases h with
  | here => rfl
  | one hopen => exact absurd rfl hopen
  | two hopen => exact absurd rfl hopen
  | substitution hopen => exact absurd rfl hopen

/-- What has been read is behind the lexer, and it reads the rest as before. -/
theorem Reads.resume {next : List Bracket} {middle : List Char}
    (hfirst : Reads stack text next middle) (h : Reads stack text [] rest) : Reads next middle [] rest := by
  induction hfirst with
  | here => exact h
  | one hopen hstep _ ih =>
      cases h with
      | here => exact absurd rfl hopen
      | one _ hagain hrest => exact ih (Step.one.inj (hstep.symm.trans hagain) ▸ hrest)
      | two _ hagain => cases hstep.symm.trans hagain
      | substitution _ hagain => cases hstep.symm.trans hagain
  | two hopen hstep _ ih =>
      cases h with
      | here => exact absurd rfl hopen
      | one _ hagain => cases hstep.symm.trans hagain
      | two _ hagain hrest => exact ih (Step.two.inj (hstep.symm.trans hagain) ▸ hrest)
      | substitution _ hagain => cases hstep.symm.trans hagain
  | substitution hopen hstep hsplit _ ih =>
      cases h with
      | here => exact absurd rfl hopen
      | one _ hagain => cases hstep.symm.trans hagain
      | two _ hagain => cases hstep.symm.trans hagain
      | substitution _ _ hagain hrest =>
          cases hsplit.symm.trans hagain
          exact ih hrest

end

/-! ## Expansions -/

section

variable {below : List Bracket} {text rest : List Char}

/-- A dollar sign counts unless it is in single quotes. -/
theorem step_dollar (h : below.head? ≠ some .single) (next : Option Char) :
    step below '$' next = dollar below next := by
  match below with
  | [] => rfl
  | .single :: inner => exact absurd rfl h
  | .double :: inner => rfl
  | .braces depth :: inner => rfl

/-- Wherever an expansion stands, it is read to the same place. -/
theorem readWord_expansion (h : Expands text rest) : ∃ piece, text = piece ++ rest ∧
    ∀ below : List Bracket, below.head? ≠ some .single → ∀ seen position,
      readWord below seen ('$' :: text) position =
        readWord below (piece.reverse ++ '$' :: seen) rest (position.afterAll ('$' :: piece)) := by
  cases h with
  | @substitution inside body rest h =>
      obtain rfl := Substitution.split_eq_some h
      refine ⟨'(' :: (body ++ [')']), by simp, fun below hbelow seen position => ?_⟩
      rw [readWord_cons, step_dollar hbelow, List.head?_cons, dollar]
      simp [h, List.reverseAux_eq, Position.afterAll_append]
  | @parameter inside rest h =>
      obtain ⟨piece, rfl, hread⟩ := h.readWord
      refine ⟨'\x7b' :: piece, rfl, fun below hbelow seen position => ?_⟩
      rw [readWord_cons, step_dollar hbelow, List.head?_cons, dollar]
      simpa using hread below ('\x7b' :: '$' :: seen) ((position.after '$').after '\x7b')

/-- A word that comes to its end has all its expansions closed. -/
theorem expands_of_readWord (hbelow : below.head? ≠ some .single)
    (hopens : text.head? = some '(' ∨ text.head? = some '\x7b') {seen : List Char}
    {position : Position} {result : List Char × Cursor}
    (h : readWord below seen ('$' :: text) position = .ok result) : ∃ rest, Expands text rest := by
  rw [readWord_cons, step_dollar hbelow] at h
  cases text with
  | nil => simp at hopens
  | cons c inside =>
      rcases hopens with hparen | hbrace
      · obtain rfl := Option.some.inj hparen
        simp only [List.head?_cons, dollar, List.tail_cons] at h
        split at h
        · cases h
        · rename_i hsplit
          exact ⟨_, .substitution hsplit⟩
      · obtain rfl := Option.some.inj hbrace
        have hinside : readWord ([.braces 0] ++ below) _ inside _ = .ok result := h
        obtain ⟨rest, hrest⟩ := reads_of_readWord hinside
        exact ⟨rest, .parameter hrest⟩

end

end Cursor

end Conch.Syntax
