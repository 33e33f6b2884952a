import Conch.Proofs.Pattern.Matching
import Conch.Proofs.Quoting

/-!
# Quoted patterns

A quoted text as the pattern of an arm is escaped, and so it matches the same text and
nothing else.  The arm is chosen just when the subject expands to that text, whatever
wildcards either of them holds (`quoted_pattern_exact`).
-/

namespace Conch

open Syntax (Arm Node parseWord)

namespace Quote

/-- In quotes of either kind a text becomes a pattern for itself. -/
theorem expandPattern_word (executor : Executor) (quote : Quote) (text : String) :
    expandPattern (evaluation executor) (quote.word "" text) = pure (Pattern.escape text) := by
  funext shell
  refine (bind_of_done (expandWord_word executor quote text false shell)).trans ?_
  rw [Fields.joinedPattern, Shell.toList_addQuoted]
  simp

/-- The arm of a quoted text is chosen for the text alone. -/
theorem runArms_word (executor : Executor) (quote : Quote) (text subject : String)
    (body : List Node) (arms : List Arm) :
    runArms (evaluation executor) subject (.mk [quote.word "" text] body :: arms) =
      if subject = text then executeAll (evaluation executor) body
      else runArms (evaluation executor) subject arms := by
  have hmatches : anyMatches (evaluation executor) subject [quote.word "" text] =
      pure (decide (subject = text)) := by
    have hescape := Pattern.matchesText_escape text subject
    rw [anyMatches, expandPattern_word, pure_bind]
    by_cases h : subject = text
    · rw [if_pos (hescape.mpr h.symm), decide_eq_true h]
    · rw [if_neg (fun hmatched => h (hescape.mp hmatched).symm), decide_eq_false h]
      rfl
  rw [runArms, hmatches, pure_bind]
  simp only [decide_eq_true_eq]

theorem parseWord_write (quote : Quote) (text : String) (position : Syntax.Position) (depth : Nat) :
    parseWord (quote.write text) position depth = .ok (quote.parts [] text.toList) := by
  rw [parseWord, Quote.write, String.toList_ofList]
  exact quote.parse_written (List.forall_mem_nil _) text.toList position

theorem write_single {text : String} (h : '\'' ∉ text.toList) :
    single.write text = "'" ++ text ++ "'" := by
  have hescaped : ∀ letters : List Char, '\'' ∉ letters → single.escaped letters = letters := by
    intro letters hletters
    induction letters with
    | nil => rfl
    | cons c letters ih =>
        obtain ⟨hc, hrest⟩ := List.ne_and_not_mem_of_not_mem_cons hletters
        rw [escaped_cons, escape_single_of_ne hc.symm, ih hrest]
        rfl
  refine String.toList_inj.mp ?_
  simp [write, written, mark, hescaped _ h]

end Quote

/-- An escaped text is a pattern for itself alone.  So an arm whose pattern is a quoted text is chosen
just when the subject expands to the text. -/
theorem quoted_pattern_exact (executor : Executor) :
    (∀ text subject, Pattern.matchesText (Pattern.escape text) subject = true ↔ text = subject) ∧
    (∀ text, '\'' ∉ text.toList → Quote.single.write text = "'" ++ text ++ "'") ∧
    ∀ (quote : Quote) (text : String),
      (∀ position depth,
        parseWord (quote.write text) position depth = .ok (quote.parts [] text.toList)) ∧
      ∀ subject body arms,
        execute executor
            (.choice subject (.mk [.word (quote.parts [] text.toList)] body :: arms)) =
          Action.recording (do
            let value ← expandSingle (evaluation executor) subject
            if value = text then executeAll (evaluation executor) body
            else runArms (evaluation executor) value arms) := by
  refine ⟨Pattern.matchesText_escape, fun _ => Quote.write_single, fun quote text =>
    ⟨quote.parseWord_write text, fun subject body arms => ?_⟩⟩
  rw [execute_eq]
  refine congrArg Action.recording ?_
  change runChoice _ _ _ = _
  rw [runChoice]
  exact congrArg _ (funext fun value => quote.runArms_word executor text value body arms)

/-- A quoted star is chosen for a star, and not for a letter. -/
theorem quoted_pattern_star :
    '\'' ∉ "a*".toList ∧
    parseWord "'a*'" ⟨1, 1⟩ 0 = .ok (Quote.single.parts [] "a*".toList) ∧
    Pattern.matchesText (Pattern.escape "a*") "ab" = false ∧
    ∀ body : List Node,
      execute .idle (.choice (Quote.double.word "" "a*")
          [.mk [.word (Quote.single.parts [] "a*".toList)] body]) =
        Action.recording (executeAll (evaluation .idle) body) ∧
      execute .idle (.choice (Quote.double.word "" "ab")
          [.mk [.word (Quote.single.parts [] "a*".toList)] body]) =
        Action.recording (pure 0) := by
  obtain ⟨hmatches, hwrite, hchoice⟩ := quoted_pattern_exact .idle
  have htext : '\'' ∉ "a*".toList := by decide
  obtain ⟨hparse, hexecute⟩ := hchoice .single "a*"
  have hother : Pattern.matchesText (Pattern.escape "a*") "ab" = false :=
    Bool.eq_false_iff.mpr fun h => absurd ((hmatches _ _).mp h) (by decide)
  refine ⟨htext, ?_, hother, fun body => ⟨?_, ?_⟩⟩
  · have hwritten := hparse ⟨1, 1⟩ 0
    rwa [hwrite _ htext] at hwritten
  · rw [hexecute, Quote.expandSingle_word, pure_bind, if_pos rfl]
  · rw [hexecute, Quote.expandSingle_word, pure_bind, if_neg (by decide)]
    rfl

end Conch
