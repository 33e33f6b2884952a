import Conch.Proofs.Words.Regular

/-!
# Arithmetic expressions inside a substitution

The parser of words finds the end of `$((` by counting parentheses outside of quotes.  The
scan takes the text for a program: it looks for quotes, comments and choices in it, and it
skips what is in `$\x7b`.  In a calm expression nothing of the kind changes the count, so
both come to the same parenthesis (`Substitution.split_arithmetic`).
-/

namespace Conch.Syntax

/-- What does not stand for itself in an expression, within `$\x7b` or outside of it. -/
def expressionMarks : Bool → List Char
  | true => ['\\', '\'', '"', '(', ')', '\x7b', '\x7d']
  | false => ['\\', '\'', '"', '(', ')', '$', '#', ';']

/--
The text, which begins within `$\x7b` or outside of it, has no quotes, no comments, no semicolons,
no command substitutions, and no braces or parentheses within `$\x7b`.
-/
def isCalm : Bool → List Char → Bool
  | inBraces, [] => !inBraces
  | true, '\x7d' :: rest => isCalm false rest
  | true, c :: rest => c ∉ expressionMarks true && isCalm true rest
  | false, '(' :: rest => isCalm false rest
  | false, ')' :: rest => isCalm false rest
  | false, '$' :: '(' :: _ => false
  | false, '$' :: '\x7b' :: rest => isCalm true rest
  | false, '$' :: rest => isCalm false rest
  | false, c :: rest => c ∉ expressionMarks false && isCalm false rest

/--
The text goes on within `$\x7b` or outside of it, inside so many parentheses of the expression, up
to and with the one that closes it.
-/
inductive Calm : Bool → Nat → List Char → Prop
  | close : Calm false 0 [')']
  | letter {inBraces : Bool} {depth : Nat} {c : Char} {text : List Char}
      (hc : c ∉ expressionMarks inBraces) (h : Calm inBraces depth text) :
      Calm inBraces depth (c :: text)
  | dollar {depth : Nat} {text : List Char} (hparen : text.head? ≠ some '(')
      (hbrace : text.head? ≠ some '\x7b') (h : Calm false depth text) :
      Calm false depth ('$' :: text)
  | openBrace {depth : Nat} {text : List Char} (h : Calm true depth text) :
      Calm false depth ('$' :: '\x7b' :: text)
  | closeBrace {depth : Nat} {text : List Char} (h : Calm false depth text) :
      Calm true depth ('\x7d' :: text)
  | opening {depth : Nat} {text : List Char} (h : Calm false (depth + 1) text) :
      Calm false depth ('(' :: text)
  | closing {depth : Nat} {text : List Char} (h : Calm false depth text) :
      Calm false (depth + 1) (')' :: text)

theorem isCalm_append_paren {inBraces : Bool} {text : List Char} (h : isCalm inBraces text = true) :
    isCalm inBraces (text ++ [')']) = true := by
  fun_induction isCalm inBraces text with
  | case8 rest hparen hbrace ih =>
      cases rest with
      | nil => rfl
      | cons d more => simp_all [isCalm]
  | _ => simp_all [isCalm]

theorem Calm.ne_nil {inBraces : Bool} {depth : Nat} {text : List Char}
    (h : Calm inBraces depth text) : text ≠ [] := by
  rintro rfl
  cases h

section

variable {depth depth' : Nat} {c : Char} {inner : List Char}

/-- Within braces the character is a letter or the brace that closes them. -/
theorem calm_inside (hstep : Delimited.step '(' ')' .none depth c = .one .none depth')
    (hcalm : isCalm true (c :: inner) = true)
    (hinner : ∀ inBraces, isCalm inBraces inner = true → Calm inBraces depth' (inner ++ [')'])) :
    Calm true depth (c :: (inner ++ [')'])) := by
  by_cases hbrace : c = '\x7d'
  · subst hbrace
    cases hstep
    exact .closeBrace (hinner false (by simpa [isCalm] using hcalm))
  · obtain ⟨hmarks, hrest⟩ : c ∉ expressionMarks true ∧ isCalm true inner = true := by
      simpa [isCalm, hbrace] using hcalm
    obtain rfl : depth = depth' := by
      unfold Delimited.step at hstep
      grind [expressionMarks]
    exact .letter hmarks (hinner true hrest)

theorem calm_outside (hstep : Delimited.step '(' ')' .none depth c = .one .none depth')
    (hcalm : isCalm false (c :: inner) = true)
    (hinner : isCalm false inner = true → Calm false depth' (inner ++ [')']))
    (hbraces : ∀ more, inner = '\x7b' :: more → isCalm true more = true →
      Calm true depth' (more ++ [')'])) :
    Calm false depth (c :: (inner ++ [')'])) := by
  by_cases hopen : c = '('
  · subst hopen
    cases hstep
    exact .opening (hinner (by simpa [isCalm] using hcalm))
  by_cases hclose : c = ')'
  · subst hclose
    cases depth with
    | zero => cases hstep
    | succ depth =>
        cases hstep
        exact .closing (hinner (by simpa [isCalm] using hcalm))
  obtain rfl : depth = depth' := by
    unfold Delimited.step at hstep
    grind
  by_cases hdollar : c = '$'
  · subst hdollar
    cases inner with
    | nil => exact .dollar (by decide) (by decide) (hinner (by simp [isCalm]))
    | cons d more =>
        have hparen : d ≠ '(' := by
          rintro rfl
          simp [isCalm] at hcalm
        by_cases hbrace : d = '\x7b'
        · subst hbrace
          exact .openBrace (hbraces more rfl (by simpa [isCalm] using hcalm))
        · exact .dollar (by simpa using hparen) (by simpa using hbrace)
            (hinner (by simpa [isCalm, hparen, hbrace] using hcalm))
  · obtain ⟨hmarks, hrest⟩ : c ∉ expressionMarks false ∧ isCalm false inner = true := by
      simpa [isCalm, hopen, hclose, hdollar] using hcalm
    exact .letter hmarks (hinner hrest)

end

/-- What the parser of words takes for the text in the parentheses. -/
theorem calm_of_scan {quoting : Delimited.Quoting} {depth : Nat}
    {seen text found rest : List Char}
    (h : Delimited.scan '(' ')' quoting depth seen text = .ok (found, rest))
    (hquoting : quoting = .none) :
    ∃ inner, text = inner ++ ')' :: rest ∧
      (∀ inBraces, isCalm inBraces inner = true → Calm inBraces depth (inner ++ [')'])) ∧
      ∀ more, inner = '\x7b' :: more → isCalm true more = true →
        Calm true depth (more ++ [')']) := by
  fun_induction Delimited.scan '(' ')' quoting depth seen text with
  | case1 => cases h
  | case2 quoting depth seen c rest' quoting' depth' hs ih =>
      subst hquoting
      by_cases hquote : c = '\'' ∨ c = '"'
      · -- a quote is not calm
        obtain ⟨inner, rfl, _, _⟩ := Delimited.scan_prefix h
        refine ⟨c :: inner, rfl, fun inBraces hcalm => ?_, fun more heq => ?_⟩
        · cases inBraces <;> rcases hquote with rfl | rfl <;> simp [isCalm, expressionMarks] at hcalm
        · obtain ⟨rfl, _⟩ := List.cons.inj heq
          simp at hquote
      · obtain rfl : quoting' = .none := by
          unfold Delimited.step at hs
          grind
        obtain ⟨inner, rfl, hinner, hbraces⟩ := ih h rfl
        refine ⟨c :: inner, rfl, fun inBraces hcalm => ?_, fun more heq hmore => ?_⟩
        · cases inBraces with
          | true => exact calm_inside hs hcalm hinner
          | false => exact calm_outside hs hcalm (hinner false) hbraces
        · obtain ⟨rfl, rfl⟩ := List.cons.inj heq
          cases hs
          exact hinner true hmore
  | case3 => cases h
  | case4 quoting depth seen c hs d rest' ih =>
      subst hquoting
      obtain rfl : c = '\\' := by
        unfold Delimited.step at hs
        grind
      obtain ⟨inner, rfl, _, _⟩ := Delimited.scan_prefix h
      refine ⟨'\\' :: d :: inner, rfl, fun inBraces hcalm => ?_, fun _ heq => by cases heq⟩
      cases inBraces <;> simp [isCalm, expressionMarks] at hcalm
  | case5 quoting depth seen c rest' hs =>
      cases h
      subst hquoting
      obtain rfl := Delimited.step_close hs
      refine ⟨[], rfl, fun inBraces hcalm => ?_, fun _ heq => by cases heq⟩
      cases depth with
      | succ depth => cases hs
      | zero =>
          cases inBraces with
          | true => cases hcalm
          | false => exact .close

namespace Substitution

/-- No choice is open, and none has begun. -/
def Cases.IsQuiet (cases : Cases) : Prop :=
  cases.depth = 0 ∧ cases.awaitingIn = false ∧ cases.inPattern = false

theorem Cases.IsQuiet.word {cases : Cases} (h : cases.IsQuiet) {word : Option String}
    (hword : word ≠ some "case") : (cases.word word).IsQuiet := by
  obtain ⟨hdepth, hawaiting, hpattern⟩ := h
  have hcase : word.bind Token.reserved? ≠ some .caseWord := by
    intro hreserved
    obtain ⟨text, rfl, htext⟩ := Option.bind_eq_some_iff.mp hreserved
    exact hword (congrArg some (Token.reserved?_text htext).symm)
  unfold Cases.word Cases.IsQuiet
  simp only
  split <;> simp_all

/-- The letters of the word that begins a choice stand nowhere in the text. -/
def Caseless (text : List Char) : Prop := ¬['c', 'a', 's', 'e'] <:+: text

instance (text : List Char) : Decidable (Caseless text) := inferInstanceAs (Decidable (¬_))

theorem Caseless.of_suffix {text rest : List Char} (h : Caseless text) (hrest : rest <:+ text) :
    Caseless rest := fun hcase => h (hcase.trans hrest.isInfix)

theorem Caseless.cons_paren {text : List Char} (h : Caseless text) : Caseless ('(' :: text) := by
  intro hcase
  rcases List.infix_cons_iff.mp hcase with ⟨more, hprefix⟩ | hinfix
  · cases hprefix
  · exact h hinfix

theorem Caseless.append_paren {text : List Char} (h : Caseless text) :
    Caseless (text ++ [')']) := by
  intro hcase
  rcases List.infix_concat_iff.mp hcase with ⟨front, hsuffix⟩ | hinfix
  · simpa using congrArg List.getLast? hsuffix
  · exact h hinfix

/-- The scan stands before the rest of an expression, inside so many parentheses. -/
structure Body.Stands (body : Body) (depth : Nat) (rest : List Char) : Prop where
  comment : body.comment = false
  unmatched : body.unmatched = depth
  quiet : body.cases.IsQuiet
  caseless : Caseless rest
  word : body.plain = true → Caseless (body.word.reverse ++ rest)

namespace Body.Stands

variable {body : Body} {depth : Nat} {c : Char} {rest : List Char} {next : Option Char}

theorem behind (h : body.Stands depth (c :: rest)) : Caseless rest :=
  h.caseless.of_suffix (List.suffix_cons c rest)

theorem endWord (h : body.Stands depth rest) :
    body.endWord.Stands depth rest ∧ body.endWord.word = [] := by
  obtain ⟨hcomment, hunmatched, hquiet, hrest, hword⟩ := h
  unfold Body.endWord
  split
  · rename_i hempty
    exact ⟨⟨hcomment, hunmatched, hquiet, hrest, hword⟩, by simp_all⟩
  · refine ⟨⟨hcomment, hunmatched, hquiet.word ?_, hrest, fun _ => hrest⟩, rfl⟩
    split
    · rename_i hplain
      intro hcase
      have hletters : body.word.reverse = ['c', 'a', 's', 'e'] := by
        simpa using congrArg String.toList (Option.some.inj hcase)
      have hword := hword hplain
      rw [hletters] at hword
      exact hword (List.prefix_append _ rest).isInfix
    · simp

/-- At a boundary the scan stands before the rest, where no word has begun. -/
theorem ended (h : body.Stands depth (c :: rest)) :
    ({ body with comment := false } : Body).endWord.Stands depth (c :: rest) ∧
      ({ body with comment := false } : Body).endWord.word = [] := by
  have hsame : ({ body with comment := false } : Body) = body := by
    rw [← h.comment]
  rw [hsame]
  exact h.endWord

/-- The next word starts at the rest. -/
theorem start (h : body.Stands depth (c :: rest)) (hword : body.word = []) (commandStart : Bool)
    (unmatched : Nat) :
    Body.Stands { body with
      unmatched := unmatched
      cases := { body.cases with commandStart := commandStart } } unmatched rest where
  comment := h.comment
  unmatched := rfl
  quiet := h.quiet
  caseless := h.behind
  word _ := by
    rw [hword]
    exact h.behind

theorem step_boundary (h : body.Stands depth rest) (hc : isWordBoundary c = true) :
    step [.body body] c next = body.boundary [] c next := by
  rw [step, h.comment]
  exact if_pos hc

theorem step_inner (h : body.Stands depth rest) (hc : isWordBoundary c = false) :
    step [.body body] c next = body.inner [] c next := by
  rw [step, h.comment]
  exact if_neg (show ¬isWordBoundary c = true by simp [hc])

theorem opening (h : body.Stands depth ('(' :: rest)) :
    ∃ after, step [.body body] '(' next = .one [.body after] ∧ after.Stands (depth + 1) rest := by
  obtain ⟨hended, hword⟩ := h.ended
  refine ⟨_, h.step_boundary rfl, ?_⟩
  generalize ({ body with comment := false } : Body).endWord = ended at hended hword
  have hafter := hended.start hword true (depth + 1)
  simpa [hended.quiet.2.2, hended.unmatched] using hafter

theorem close (h : body.Stands 0 (')' :: rest)) : step [.body body] ')' next = .close := by
  obtain ⟨hended, _⟩ := h.ended
  rw [h.step_boundary rfl]
  unfold Body.boundary
  simp only [hended.quiet.2.2, hended.unmatched]
  rfl

theorem closing (h : body.Stands (depth + 1) (')' :: rest)) :
    ∃ after, step [.body body] ')' next = .one [.body after] ∧ after.Stands depth rest := by
  obtain ⟨hended, hword⟩ := h.ended
  rw [h.step_boundary rfl]
  unfold Body.boundary
  simp only [hended.quiet.2.2, hended.unmatched]
  exact ⟨_, rfl, hended.start hword _ depth⟩

theorem letter (h : body.Stands depth (c :: rest)) (hc : c ∉ expressionMarks false) :
    ∃ after, step [.body body] c next = .one [.body after] ∧ after.Stands depth rest := by
  simp only [expressionMarks, List.mem_cons, List.not_mem_nil, or_false, not_or] at hc
  obtain ⟨hslash, hsingle, hdouble, hopen, hclose, hdollar, hhash, hsemicolon⟩ := hc
  cases hboundary : isWordBoundary c with
  | true =>
      obtain ⟨hended, hword⟩ := h.ended
      have hnext := fun commandStart => hended.start hword commandStart depth
      rw [h.step_boundary hboundary]
      unfold Body.boundary
      generalize ({ body with comment := false } : Body).endWord = ended at hended hnext
      obtain rfl := hended.unmatched
      split
      · exact absurd rfl hopen
      · exact absurd rfl hclose
      · exact absurd rfl hsemicolon
      · exact ⟨_, rfl, hnext true⟩
      · exact ⟨_, rfl, hnext true⟩
      · exact ⟨_, rfl, hnext true⟩
      · exact ⟨_, rfl, hnext ended.cases.commandStart⟩
  | false =>
      rw [h.step_inner hboundary]
      refine ⟨{ body with word := c :: body.word }, ?_, h.comment, h.unmatched, h.quiet, h.behind,
        fun hplain => ?_⟩
      · unfold Body.inner
        split <;> simp_all
      · simpa using h.word hplain

/-- Behind the dollar sign the word is no longer plain. -/
theorem marked (h : body.Stands depth (c :: rest)) :
    Body.Stands { body with plain := false } depth rest :=
  ⟨h.comment, h.unmatched, h.quiet, h.behind, fun hplain => by cases hplain⟩

theorem inside (h : body.Stands depth (c :: rest)) (hplain : body.plain = false) :
    body.Stands depth rest :=
  ⟨h.comment, h.unmatched, h.quiet, h.behind, fun h => by rw [hplain] at h; cases h⟩

end Body.Stands

/-- The body of the expression, with or without the braces that are open in it. -/
def frames (body : Body) : Bool → List Frame
  | true => [.braces 0, .body body]
  | false => [.body body]

/-- The scan follows the expression to its end. -/
theorem scan_calm {inBraces : Bool} {depth : Nat} {text : List Char}
    (h : Calm inBraces depth text) {body : Body} (hbody : body.Stands depth text)
    (hplain : inBraces = true → body.plain = false) (seen rest : List Char) :
    scan (frames body inBraces) seen (text ++ rest) =
      some (seen.reverse ++ text.dropLast, rest) := by
  induction h generalizing body seen with
  | close =>
      rw [frames, List.singleton_append, scan, hbody.close]
      simp
  | @letter inBraces depth c text hc h ih =>
      obtain ⟨after, hstep, hafter, hplain⟩ : ∃ after,
          step (frames body inBraces) c (text ++ rest).head? = .one (frames after inBraces) ∧
            after.Stands depth text ∧ (inBraces = true → after.plain = false) := by
        cases inBraces with
        | true =>
            have hstep : step (frames body true) c (text ++ rest).head? = .one (frames body true) := by
              simp_all [expressionMarks, frames, step]
            exact ⟨body, hstep, hbody.inside (hplain rfl), hplain⟩
        | false =>
            obtain ⟨after, hstep, hafter⟩ := hbody.letter hc
            exact ⟨after, hstep, hafter, fun h => by cases h⟩
      rw [List.cons_append, scan_one hstep, ih hafter hplain]
      simp [List.dropLast_cons_of_ne_nil h.ne_nil]
  | @dollar depth text hparen hbrace h ih =>
      rw [← Cursor.head?_append_of_ne_nil h.ne_nil rest] at hparen hbrace
      have hstep : step (frames body false) '$' (text ++ rest).head? =
          .one (frames { body with plain := false } false) := by
        rw [frames, hbody.step_inner rfl, Body.inner_dollar]
        split <;> simp_all [frames]
      rw [List.cons_append, scan_one hstep, ih hbody.marked (fun h => by cases h)]
      simp [List.dropLast_cons_of_ne_nil h.ne_nil]
  | @openBrace depth text h ih =>
      have hstep : step (frames body false) '$' (some '\x7b') =
          .two (frames { body with plain := false } true) := hbody.step_inner rfl
      have hinside := hbody.marked.inside rfl
      rw [List.cons_append, List.cons_append, scan_two hstep, ih hinside fun _ => rfl]
      simp [List.dropLast_cons_of_ne_nil h.ne_nil]
  | @closeBrace depth text h ih =>
      have hstep : step (frames body true) '\x7d' (text ++ rest).head? = .one (frames body false) :=
        rfl
      rw [List.cons_append, scan_one hstep, ih (hbody.inside (hplain rfl)) fun h => by cases h]
      simp [List.dropLast_cons_of_ne_nil h.ne_nil]
  | @opening depth text h ih =>
      obtain ⟨after, hstep, hafter⟩ := hbody.opening
      rw [List.cons_append, frames, scan_one hstep]
      have hrest := ih hafter (fun h => by cases h) ('(' :: seen)
      simpa [frames, List.dropLast_cons_of_ne_nil h.ne_nil] using hrest
  | @closing depth text h ih =>
      obtain ⟨after, hstep, hafter⟩ := hbody.closing
      rw [List.cons_append, frames, scan_one hstep]
      have hrest := ih hafter (fun h => by cases h) (')' :: seen)
      simpa [frames, List.dropLast_cons_of_ne_nil h.ne_nil] using hrest

/-- The parentheses of an arithmetic expansion are those of a body, if the expression is calm. -/
theorem split_arithmetic {text body expression rest : List Char}
    (h : Delimited.split '(' ')' text = .ok (body, rest))
    (hbody : body = '(' :: (expression ++ [')'])) (hcalm : isCalm false expression = true)
    (hcase : Caseless expression) : split (body ++ [')']) = some (body, []) := by
  obtain ⟨inner, htext, hinner, _⟩ := calm_of_scan h rfl
  obtain rfl : body = inner := List.append_cancel_right ((Delimited.split_eq_ok h).symm.trans htext)
  have hcalm : isCalm false body = true := by
    rw [hbody]
    simpa [isCalm] using isCalm_append_paren hcalm
  have hcase : Caseless (body ++ [')']) := by
    rw [hbody]
    exact (hcase.append_paren.cons_paren).append_paren
  have hstart : Body.start.Stands 0 (body ++ [')']) :=
    ⟨rfl, rfl, ⟨rfl, rfl, rfl⟩, hcase, fun _ => hcase⟩
  have hscan := scan_calm (hinner false hcalm) hstart (fun h => by cases h) [] []
  rw [List.append_nil, List.dropLast_concat] at hscan
  exact hscan

end Substitution

end Conch.Syntax
