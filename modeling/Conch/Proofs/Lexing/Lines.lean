import Conch.Proofs.Places

/-!
# Whole lines

A text of whole lines is empty or ends with a newline.  No lexeme, blank or comment
reaches over its end: what such a text is read as does not depend on what comes after
it (`Lexemes.ofText_append`), and its last lexeme is a newline.  A text that cannot be
divided into lexemes has a construct left open at its end (`Lexemes.read_error`).
-/

namespace Conch.Syntax

def WholeLines (text : List Char) : Prop := ∀ c ∈ text.getLast?, c = '\n'

instance (text : List Char) : Decidable (WholeLines text) :=
  decidable_of_iff (text.getLast?.all (· == '\n') = true) (by simp [WholeLines, Option.all_eq_true])

namespace WholeLines

theorem nil : WholeLines [] := by simp [WholeLines]

theorem newline (text : List Char) : WholeLines (text ++ ['\n']) := by
  intro c hc
  rw [List.getLast?_concat] at hc
  exact (Option.some.inj hc).symm

theorem append {first second : List Char} (hfirst : WholeLines first)
    (hsecond : WholeLines second) : WholeLines (first ++ second) := by
  intro c hc
  rw [List.getLast?_append] at hc
  cases hlast : second.getLast? with
  | none =>
      rw [hlast, Option.none_or] at hc
      exact hfirst c hc
  | some d =>
      rw [hlast, Option.some_or] at hc
      exact hsecond c (hlast ▸ hc)

/-- The end of whole lines is whole lines. -/
theorem suffix {text rest : List Char} (h : WholeLines text) (hrest : rest <:+ text) :
    WholeLines rest := by
  obtain ⟨first, rfl⟩ := hrest
  intro c hc
  refine h c ?_
  rw [List.getLast?_append, Option.mem_def.mp hc]
  rfl

theorem last {c : Char} (h : WholeLines [c]) : c = '\n' := h c rfl

/-- Something follows a character that is no newline. -/
theorem ne_nil {c : Char} {rest : List Char} (h : WholeLines (c :: rest)) (hc : c ≠ '\n') :
    rest ≠ [] := by
  rintro rfl
  exact hc h.last

end WholeLines

namespace Cursor

/-! ## Words -/

variable {stack : List Bracket} {seen rest text : List Char} {position : Position}
  {cursor : Cursor}

theorem step_newline {stack' : List Bracket} {next : Option Char}
    (h : step stack '\n' next = .one stack') : stack' ≠ [] := by
  rintro rfl
  unfold step at h
  split at h
  · cases h
  · cases h
  · cases h
  · cases h

theorem step_two_newline {stack' : List Bracket} {c : Char}
    (h : step stack c (some '\n') = .two stack') : stack' ≠ [] := by
  rintro rfl
  unfold step dollar at h
  split at h
  · split at h
    · cases h
    · split at h <;> simp_all
  · cases h
  · split at h <;> simp_all
  · split at h <;> simp_all

theorem readWord_suffix (h : readWord stack seen rest position = .ok (text, cursor)) :
    cursor.rest <:+ rest := by
  fun_induction readWord stack seen rest position with
  | case1 =>
      cases h
      exact List.suffix_refl _
  | case2 => cases h
  | case3 =>
      cases h
      exact List.suffix_refl _
  | case4 _ _ _ _ _ _ _ ih => exact (ih h).trans (List.suffix_cons _ _)
  | case5 _ _ _ _ _ _ ih => exact (ih h).trans (List.suffix_cons _ _)
  | case6 _ _ _ _ _ _ _ _ ih =>
      exact (ih h).trans ((List.suffix_cons _ _).trans (List.suffix_cons _ _))
  | case7 => cases h
  | case8 _ _ _ _ _ _ _ _ ih =>
      exact (ih h).trans ((List.tail_suffix _).trans (List.suffix_cons _ _))
  | case9 => cases h
  | case10 stack seen position c after hstep position' body rest hsplit ih =>
      have hrest : rest <:+ after.tail :=
        ⟨body ++ [')'], by rw [Substitution.split_eq_some hsplit]; simp⟩
      exact (ih h).trans (hrest.trans ((List.tail_suffix _).trans (List.suffix_cons _ _)))

/-- A word ends before the newline at the end of whole lines. -/
theorem readWord_lines (h : readWord stack seen rest position = .ok (text, cursor))
    (hlines : WholeLines rest) (hne : rest ≠ []) : cursor.rest ≠ [] := by
  have hopen : ∀ {stack : List Bracket} {seen : List Char} {position : Position}, stack ≠ [] →
      readWord stack seen [] position ≠ .ok (text, cursor) := by
    intro stack seen position hstack
    obtain ⟨bracket, below, rfl⟩ := List.exists_cons_of_ne_nil hstack
    rw [readWord_nil]
    simp
  fun_induction readWord stack seen rest position with
  | case1 => exact absurd rfl hne
  | case2 => cases h
  | case3 =>
      cases h
      exact List.cons_ne_nil _ _
  | case4 stack seen position c after stack' hstep ih =>
      refine ih h (hlines.suffix (List.suffix_cons _ _)) ?_
      rintro rfl
      rw [hlines.last] at hstep
      exact hopen (step_newline hstep) h
  | case5 stack seen position c stack' hstep ih =>
      have hc := step_two_none hstep
      rw [hlines.last] at hc
      cases hc
  | case6 stack seen position c stack' d after hstep ih =>
      have hafter := hlines.suffix (List.suffix_cons c (d :: after))
      refine ih h (hafter.suffix (List.suffix_cons _ _)) ?_
      rintro rfl
      rw [hafter.last] at hstep
      exact hopen (step_two_newline hstep) h
  | case7 => cases h
  | case8 stack seen position c after hstep position' hnonempty ih =>
      exact ih h (hlines.suffix ((List.tail_suffix _).trans (List.suffix_cons _ _)))
        (by simpa using hnonempty)
  | case9 => cases h
  | case10 stack seen position c after hstep position' body rest hsplit ih =>
      have htail : WholeLines after.tail :=
        hlines.suffix ((List.tail_suffix _).trans (List.suffix_cons _ _))
      rw [Substitution.split_eq_some hsplit] at htail
      have hclosed : WholeLines (')' :: rest) := htail.suffix (List.suffix_append _ _)
      exact ih h (hclosed.suffix (List.suffix_cons _ _)) (hclosed.ne_nil (by decide))

theorem readWord_error {e : ParseError} (h : readWord stack seen rest position = .error e) :
    e.incomplete = true := by
  fun_induction readWord stack seen rest position with
  | case1 => cases h
  | case2 =>
      cases h
      rfl
  | case3 => cases h
  | case4 _ _ _ _ _ _ _ ih => exact ih h
  | case5 _ _ _ _ _ _ ih => exact ih h
  | case6 _ _ _ _ _ _ _ _ ih => exact ih h
  | case7 =>
      cases h
      rfl
  | case8 _ _ _ _ _ _ _ _ ih => exact ih h
  | case9 =>
      cases h
      rfl
  | case10 _ _ _ _ _ _ _ _ _ _ ih => exact ih h

/-! ## Blanks -/

theorem skipBlanks_error {e : ParseError} (h : skipBlanks text position = .error e) :
    e.incomplete = true := by
  fun_induction skipBlanks text position with
  | case1 _ _ ih => exact ih h
  | case2 _ _ ih => exact ih h
  | case3 =>
      cases h
      rfl
  | case4 _ _ _ _ ih => exact ih h
  | case5 => cases h

theorem skipBlanks_lines (h : skipBlanks text position = .ok cursor) (hlines : WholeLines text)
    (hne : text ≠ []) (more : List Char) :
    cursor.rest ≠ [] ∧ cursor.rest <:+ text ∧
      skipBlanks (text ++ more) position = .ok ⟨cursor.rest ++ more, cursor.position⟩ := by
  fun_induction skipBlanks text position with
  | case1 rest position ih =>
      obtain ⟨hrest, hsuffix, hmore⟩ := ih h (hlines.suffix (List.suffix_cons _ _))
        (hlines.ne_nil (by decide))
      exact ⟨hrest, hsuffix.trans (List.suffix_cons _ _), hmore⟩
  | case2 rest position ih =>
      obtain ⟨hrest, hsuffix, hmore⟩ := ih h (hlines.suffix (List.suffix_cons _ _))
        (hlines.ne_nil (by decide))
      exact ⟨hrest, hsuffix.trans (List.suffix_cons _ _), hmore⟩
  | case3 => cases h
  | case4 rest position after hempty ih =>
      have hsuffix : rest <:+ '\\' :: '\n' :: rest :=
        (List.suffix_cons _ _).trans (List.suffix_cons _ _)
      have hrest : rest ≠ [] := by simpa using hempty
      obtain ⟨hne, hcursor, hmore⟩ := ih h (hlines.suffix hsuffix) hrest
      refine ⟨hne, hcursor.trans hsuffix, ?_⟩
      change (if (rest ++ more).isEmpty then _ else skipBlanks (rest ++ more) _) = _
      rw [if_neg (by simp [hrest])]
      exact hmore
  | case5 text position hblank htab hjoin =>
      cases h
      refine ⟨hne, List.suffix_refl _, ?_⟩
      obtain ⟨c, rest, rfl⟩ := List.exists_cons_of_ne_nil hne
      refine skipBlanks_of_ne (fun hc => hblank rest (by rw [hc]))
        (fun hc => htab rest (by rw [hc])) (fun hc => ?_) position
      have hrest : rest ≠ [] := hlines.ne_nil (by rw [hc]; decide)
      obtain ⟨d, rest, rfl⟩ := List.exists_cons_of_ne_nil hrest
      intro hd
      cases hd
      exact hjoin rest (by rw [hc])

/-! ## Lexemes -/

theorem operator?_reach {c : Char} {next : Option Char} {token : Token} {size : Nat}
    (h : operator? c next = some (token, size)) :
    size = 1 ∨ size = 2 ∧ ∃ d ∈ next, d ≠ '\n' := by
  unfold operator? at h
  split at h <;> cases h <;> simp

theorem dropWhile_append_of_stop {p : Char → Bool} {text : List Char}
    (h : text.dropWhile p ≠ []) (more : List Char) :
    (text ++ more).dropWhile p = text.dropWhile p ++ more := by
  rw [List.dropWhile_append, if_neg (by simpa using h)]

theorem takeWhile_append_of_stop {p : Char → Bool} {text : List Char}
    (h : text.dropWhile p ≠ []) (more : List Char) :
    (text ++ more).takeWhile p = text.takeWhile p := by
  have hsplit := List.takeWhile_append_dropWhile (p := p) (l := text ++ more)
  rw [dropWhile_append_of_stop h, ← List.append_assoc] at hsplit
  have htext := List.append_cancel_right hsplit
  exact List.append_cancel_right (htext.trans List.takeWhile_append_dropWhile.symm)

/-- Digits are a descriptor or not by what follows them directly. -/
theorem descriptor?_append {text : List Char} (h : text.dropWhile Char.isDigit ≠ [])
    (more : List Char) : descriptor? (text ++ more) = descriptor? text := by
  unfold descriptor?
  rw [dropWhile_append_of_stop h, takeWhile_append_of_stop h]
  obtain ⟨d, rest, hrest⟩ := List.exists_cons_of_ne_nil h
  rw [hrest]
  simp only
  split <;> split <;> simp_all

/-- Among whole lines a lexeme ends before the last newline, or is that newline. -/
theorem lexeme_lines {c : Char} {found : Option Lexeme}
    (h : lexeme c rest position = .ok (found, cursor)) (hlines : WholeLines (c :: rest))
    (more : List Char) :
    cursor.rest <:+ c :: rest ∧ (cursor.rest = [] → ∃ l ∈ found, l.kind = .newline) ∧
      lexeme c (rest ++ more) position = .ok (found, ⟨cursor.rest ++ more, cursor.position⟩) := by
  have hstop : ∀ {p : Char → Bool}, p '\n' = false → (c :: rest).dropWhile p ≠ [] := by
    intro p hp hnil
    have hlast := List.getLast?_eq_some_getLast (List.cons_ne_nil c rest)
    have hall := List.dropWhile_eq_nil_iff.mp hnil _ (List.mem_of_getLast? hlast)
    rw [hlines _ hlast, hp] at hall
    cases hall
  unfold lexeme at h ⊢
  by_cases hcomment : c = '#'
  · rw [if_pos hcomment] at h ⊢
    have hne : (c :: rest).dropWhile (· ≠ '\n') ≠ [] := hstop (by decide)
    rw [← List.cons_append, dropWhile_append_of_stop hne, takeWhile_append_of_stop hne]
    cases h
    exact ⟨List.dropWhile_suffix _, fun hnil => absurd hnil hne, rfl⟩
  rw [if_neg hcomment] at h ⊢
  by_cases hnewline : c = '\n'
  · rw [if_pos hnewline] at h ⊢
    cases h
    exact ⟨List.suffix_cons _ _, fun _ => ⟨_, rfl, rfl⟩, rfl⟩
  rw [if_neg hnewline] at h ⊢
  have hrest : rest ≠ [] := hlines.ne_nil hnewline
  rw [head?_append_of_ne_nil hrest]
  cases hoperator : operator? c rest.head? with
  | some found =>
      obtain ⟨token, size⟩ := found
      obtain ⟨d, rest, rfl⟩ := List.exists_cons_of_ne_nil hrest
      simp only [hoperator] at h ⊢
      cases h
      refine ⟨List.drop_suffix _ _, fun hnil => ?_, ?_⟩
      · rcases operator?_reach hoperator with rfl | ⟨rfl, e, he, hne⟩
        · cases hnil
        · cases he
          obtain rfl : rest = [] := hnil
          exact absurd (hlines.suffix (List.suffix_cons _ _)).last hne
      · rcases operator?_reach hoperator with rfl | ⟨rfl, _⟩ <;> rfl
  | none =>
      simp only [hoperator] at h ⊢
      rw [← List.cons_append, descriptor?_append (hstop (by decide))]
      cases hdescriptor : descriptor? (c :: rest) with
      | some digits =>
          simp only [hdescriptor] at h ⊢
          cases h
          obtain ⟨d, after, htext, _, _⟩ := descriptor?_eq_some hdescriptor
          refine ⟨List.drop_suffix _ _, fun hnil => ?_, ?_⟩
          · rw [htext, List.drop_left] at hnil
            cases hnil
          · rw [htext, List.append_assoc, List.drop_left, List.drop_left]
      | none =>
          simp only [hdescriptor] at h ⊢
          cases hword : readWord [] [] (c :: rest) position with
          | error e =>
              simp only [hword] at h
              cases h
          | ok result =>
              obtain ⟨text, cursor⟩ := result
              simp only [hword] at h
              cases h
              have hne := readWord_lines hword hlines (List.cons_ne_nil _ _)
              refine ⟨readWord_suffix hword, fun hnil => absurd hnil hne, ?_⟩
              rw [readWord_append hword hne]

theorem lexeme_error {c : Char} {e : ParseError} (h : lexeme c rest position = .error e) :
    e.incomplete = true := by
  unfold lexeme at h
  split at h
  · cases h
  · split at h
    · cases h
    · split at h
      · cases h
      · split at h
        · cases h
        · split at h
          · cases h
            exact readWord_error ‹_›
          · cases h

end Cursor

/-- The last lexeme, if there is one, is a newline. -/
def Closed (items : List Lexeme) : Prop := ∀ lexeme ∈ items.getLast?, lexeme.kind = .newline

namespace Lexemes

variable {found : List Lexeme} {text : List Char} {position : Position} {stream : Lexemes}

theorem read_nil (found : List Lexeme) (position : Position) :
    read found [] position = .ok ⟨found.reverse, position⟩ := by
  rw [read_eq]
  rfl

theorem ne_nil_of_skip {c : Char} {rest : List Char} {middle : Position}
    (h : Cursor.skipBlanks text position = .ok ⟨c :: rest, middle⟩) : text ≠ [] := by
  rintro rfl
  cases h

/-- Whole lines are read before whatever comes after them. -/
theorem read_append (h : read found text position = .ok stream) (hlines : WholeLines text)
    (more : List Char) :
    read found (text ++ more) position = read stream.items.reverse more stream.finish := by
  fun_induction read found text position with
  | case1 => cases h
  | case2 found text position finish hskip =>
      cases h
      by_cases htext : text = []
      · subst htext
        cases hskip
        rw [List.nil_append, List.reverse_reverse]
      · exact absurd rfl (Cursor.skipBlanks_lines hskip hlines htext more).1
  | case3 => cases h
  | case4 found text position c rest middle hskip cursor hlexeme ih =>
      obtain ⟨_, hsuffix, hmore⟩ := Cursor.skipBlanks_lines hskip hlines (ne_nil_of_skip hskip) more
      obtain ⟨hcursor, _, hagain⟩ := Cursor.lexeme_lines hlexeme (hlines.suffix hsuffix) more
      rw [read_eq, hmore]
      simp only [List.cons_append, hagain]
      exact ih h (hlines.suffix (hcursor.trans hsuffix))
  | case5 found text position c rest middle hskip lexeme cursor hlexeme ih =>
      obtain ⟨_, hsuffix, hmore⟩ := Cursor.skipBlanks_lines hskip hlines (ne_nil_of_skip hskip) more
      obtain ⟨hcursor, _, hagain⟩ := Cursor.lexeme_lines hlexeme (hlines.suffix hsuffix) more
      rw [read_eq, hmore]
      simp only [List.cons_append, hagain]
      exact ih h (hlines.suffix (hcursor.trans hsuffix))

/-- The last lexeme of whole lines is a newline. -/
theorem read_closed (h : read found text position = .ok stream) (hlines : WholeLines text)
    (hfound : text = [] → Closed found.reverse) : Closed stream.items := by
  fun_induction read found text position with
  | case1 => cases h
  | case2 found text position finish hskip =>
      cases h
      by_cases htext : text = []
      · exact hfound htext
      · exact absurd rfl (Cursor.skipBlanks_lines hskip hlines htext []).1
  | case3 => cases h
  | case4 found text position c rest middle hskip cursor hlexeme ih =>
      obtain ⟨_, hsuffix, _⟩ := Cursor.skipBlanks_lines hskip hlines (ne_nil_of_skip hskip) []
      obtain ⟨hcursor, hend, _⟩ := Cursor.lexeme_lines hlexeme (hlines.suffix hsuffix) []
      refine ih h (hlines.suffix (hcursor.trans hsuffix)) (fun hnil => ?_)
      obtain ⟨_, hnone, _⟩ := hend hnil
      cases hnone
  | case5 found text position c rest middle hskip lexeme cursor hlexeme ih =>
      obtain ⟨_, hsuffix, _⟩ := Cursor.skipBlanks_lines hskip hlines (ne_nil_of_skip hskip) []
      obtain ⟨hcursor, hend, _⟩ := Cursor.lexeme_lines hlexeme (hlines.suffix hsuffix) []
      refine ih h (hlines.suffix (hcursor.trans hsuffix)) (fun hnil => ?_)
      obtain ⟨_, hsome, hkind⟩ := hend hnil
      cases hsome
      intro last hlast
      rw [List.reverse_cons, List.getLast?_concat] at hlast
      cases hlast
      exact hkind

theorem read_error {e : ParseError} (h : read found text position = .error e) :
    e.incomplete = true := by
  fun_induction read found text position with
  | case1 _ _ _ _ hskip =>
      cases h
      exact Cursor.skipBlanks_error hskip
  | case2 => cases h
  | case3 _ _ _ _ _ _ _ _ hlexeme =>
      cases h
      exact Cursor.lexeme_error hlexeme
  | case4 _ _ _ _ _ _ _ _ _ ih => exact ih h
  | case5 _ _ _ _ _ _ _ _ _ _ ih => exact ih h

/-- Lexemes found earlier stand before those that are read. -/
theorem read_found (found new : List Lexeme) (text : List Char) (position : Position) :
    read (new ++ found) text position =
      (read new text position).map
        (fun stream => ⟨found.reverse ++ stream.items, stream.finish⟩) := by
  fun_induction read new text position with
  | case1 new text position e hskip =>
      rw [read_eq, hskip]
      rfl
  | case2 new text position finish hskip =>
      rw [read_eq, hskip]
      simp only [List.reverse_append]
      rfl
  | case3 new text position c rest middle hskip e hlexeme =>
      rw [read_eq, hskip]
      simp only [hlexeme]
      rfl
  | case4 new text position c rest middle hskip cursor hlexeme ih =>
      rw [read_eq, hskip]
      simp only [hlexeme]
      exact ih
  | case5 new text position c rest middle hskip lexeme cursor hlexeme ih =>
      rw [read_eq, hskip]
      simp only [hlexeme]
      exact ih

/-- After whole lines a text has the lexemes that it has by itself, at other places. -/
theorem ofText_append {first : List Char} (h : ofText first = .ok stream)
    (hlines : WholeLines first) (second : List Char) :
    Alike (fun x y => ∃ items, y.items = stream.items ++ items ∧
        items.map Lexeme.symbol = x.items.map Lexeme.symbol)
      (ofText second) (ofText (first ++ second)) := by
  have hread := read_append h hlines second
  have hfound := read_found stream.items.reverse [] second stream.finish
  rw [List.nil_append, List.reverse_reverse] at hfound
  have hplaces := read_alike (rfl : ([] : List Lexeme).map Lexeme.symbol = _) second .start
    stream.finish
  unfold ofText
  rw [hread, hfound]
  cases hsecond : read [] second .start with
  | error e =>
      obtain ⟨f, hf, hcause⟩ := hplaces.of_error hsecond
      rw [hf]
      exact .error hcause
  | ok lexemes =>
      obtain ⟨shifted, hshifted, hsymbols⟩ := hplaces.of_ok hsecond
      rw [hshifted]
      exact .ok ⟨shifted.items, rfl, hsymbols.symm⟩

theorem ofText_closed (h : ofText text = .ok stream) (hlines : WholeLines text) :
    Closed stream.items :=
  read_closed h hlines (fun _ => by simp [Closed])

end Lexemes

end Conch.Syntax
