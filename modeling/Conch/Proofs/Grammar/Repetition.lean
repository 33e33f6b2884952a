import Conch.Proofs.Grammar.Leads

/-!
# Repetitions

`Grammar.many` and `Grammar.extend` are bounded by the lexemes that were left when
they started.  Every item of a repetition takes a lexeme, so the bound never cuts one
short, and a repetition reads the symbols of its items one item after the other.
-/

namespace Conch.Syntax.Grammar

variable {α : Type}

/-- The symbols are those of some results, one after the other, and a step that has read them
all finds no further one. -/
inductive Collects (step : Grammar (Option α)) (G : Option Symbol → Prop) :
    List Symbol → List α → Prop where
  | nil (hend : Leads step [] (pure none) G) : Collects step G [] []
  | cons {s t : List Symbol} {a : α} {rest : List α} {F : Option Symbol → Prop}
      (first : Leads step s (pure (some a)) F) (hs : s ≠ [])
      (hnext : ∀ x, G x → F (t.head?.or x)) (others : Collects step G t rest) :
      Collects step G (s ++ t) (a :: rest)

variable {step : Grammar (Option α)} {G : Option Symbol → Prop}

theorem Collects.length_le {s : List Symbol} {results : List α} (h : Collects step G s results) :
    results.length ≤ s.length := by
  induction h with
  | nil _ => simp
  | @cons s t _ _ _ _ hs _ _ ih =>
      have hpos := List.length_pos_iff.mpr hs
      simp only [List.length_append, List.length_cons]
      omega

theorem leads_collect {s : List Symbol} {results : List α} (h : Collects step G s results)
    (bound : List Lexeme) (found : List α) (hbound : results.length ≤ bound.length) :
    Leads (collect step bound found) s (pure (found.reverse ++ results)) G := by
  induction h generalizing bound found with
  | nil hend =>
      unfold collect
      exact hend.bindPure (by simp)
  | @cons s t a rest F first hs hnext others ih =>
      cases bound with
      | nil => simp at hbound
      | cons lexeme bound =>
          have hrest := ih bound (a :: found) (by simpa using hbound)
          have hresults : (a :: found).reverse ++ rest = found.reverse ++ a :: rest := by simp
          rw [hresults] at hrest
          unfold collect
          exact first.bind hrest hnext

/-- A repetition reads its results and stops where the step finds no further one. -/
theorem leads_many {s : List Symbol} {results : List α} (h : Collects step G s results) :
    Leads (many step) s (pure results) G := by
  intro items rest finish hitems hrest
  have hlength : results.length ≤ (items ++ rest).length := by
    have hspelled := h.length_le
    rw [← hitems, List.length_map] at hspelled
    rw [List.length_append]
    omega
  exact leads_collect h (items ++ rest) [] hlength items rest finish hitems hrest

/-! ## Extensions -/

/-- The symbols extend one result to another, some extension after the other. -/
inductive Extends (step : α → Grammar (Option α)) (F : Option Symbol → Prop) :
    List Symbol → α → α → Prop where
  | refl (a : α) : Extends step F [] a a
  | tail {s t : List Symbol} {a b c : α} {front : Symbol} (first : Extends step F s a b)
      (last : Leads (step b) t (pure (some c)) F) (hfront : t.head? = some front)
      (hF : F (some front)) : Extends step F (s ++ t) a c

theorem leads_extend {step : α → Grammar (Option α)} {F : Option Symbol → Prop}
    {s : List Symbol} {a b : α} (h : Extends step F s a b) (bound : List Lexeme)
    (hbound : s.length ≤ bound.length) :
    ∃ left : List Lexeme, bound.length ≤ left.length + s.length ∧
      Leads (extend step bound a) s (extend step left b) F := by
  induction h with
  | refl a => exact ⟨bound, by simp, Leads.refl _ F⟩
  | @tail s t a b c front first last hfront hF ih =>
      have ht : 0 < t.length := by
        cases t with
        | nil => simp at hfront
        | cons _ _ => simp
      rw [List.length_append] at hbound
      obtain ⟨left, hleft, hfirst⟩ := ih (by omega)
      cases left with
      | nil => simp only [List.length_nil] at hleft; omega
      | cons lexeme left =>
          refine ⟨left, ?_, hfirst.trans (m := extend step left c) ?_ ?_⟩
          · simp only [List.length_cons, List.length_append] at hleft ⊢
            omega
          · have hnext : ∀ x, F x → F (([] : List Symbol).head?.or x) := fun x hx => by simpa
            rw [extend]
            simpa using last.bind (Leads.refl _ F) hnext
          · intro x _
            simpa [hfront] using hF

/-- Extensions read their symbols and stop where the step finds no further one. -/
theorem leads_extend_stop {step : α → Grammar (Option α)} {F G : Option Symbol → Prop}
    {s : List Symbol} {a b : α} (h : Extends step F s a b)
    (hstop : Leads (step b) [] (pure none) G) (hGF : ∀ x, G x → F x) :
    Leads (do extend step (← remaining) a) s (pure b) G := by
  intro lexemes rest finish hlexemes hrest
  have hlength : s.length ≤ (lexemes ++ rest).length := by
    rw [← hlexemes, List.length_map, List.length_append]
    omega
  obtain ⟨left, _, hleads⟩ := leads_extend h (lexemes ++ rest) hlength
  have hend : Leads (extend step left b) [] (pure b) G := by
    unfold extend
    exact hstop.bindPure (by simp)
  have h := (hleads.trans hend (fun x hx => by simpa using hGF x hx)) lexemes rest finish
  exact h (by simpa using hlexemes) hrest

end Conch.Syntax.Grammar
