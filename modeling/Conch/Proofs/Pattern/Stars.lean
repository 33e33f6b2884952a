import Conch.Proofs.Pattern.Matching

/-!
# Stars in a row

A pattern without brackets has a meaning that its characters settle one by one: a star
stands for any text, a question mark for any character, and every other character for
itself.  Patterns without doubled stars are read that way, and so are those that end in a
component of two stars.  For all others the meaning is a different one
(`matchesText_iff_divided`): a component of two stars before a separator may be missing with
the separator, and elsewhere stars in a row make a pattern malformed, which then matches
its own text only.
-/

namespace Conch.Pattern

/-- What a character of a pattern without brackets stands for. -/
def StandsFor : Char → List Char → Prop
  | '*', _ => True
  | '?', piece => ∃ c, piece = [c]
  | c, piece => piece = [c]

/-- Stars stand next to each other only where two of them are the last component; `before` is
the character before the pattern. -/
def DoubledLast (before : Option Char) (pattern : List Char) : Prop :=
  ∀ front behind, pattern = front ++ '*' :: '*' :: behind →
    behind = [] ∧ (front.getLast?.or before).all (· == '/') = true

section

variable {before : Option Char}

/-- Away from two stars the condition passes on to what follows. -/
theorem doubledLast_cons {c : Char} {rest : List Char}
    (h : ∀ more, c = '*' → rest ≠ '*' :: more) :
    DoubledLast before (c :: rest) ↔ DoubledLast (some c) rest := by
  have hlast : ∀ front : List Char,
      (c :: front).getLast?.or before = front.getLast?.or (some c) := by
    intro front
    rw [List.getLast?_cons, Option.or_some]
    rfl
  constructor
  · intro hdoubled front behind heq
    rw [← hlast]
    exact hdoubled (c :: front) behind (by rw [heq, List.cons_append])
  · intro hdoubled front behind heq
    cases front with
    | nil =>
        obtain ⟨rfl, hrest⟩ := List.cons.inj heq
        exact absurd hrest (h behind rfl)
    | cons d front =>
        obtain ⟨rfl, hrest⟩ := List.cons.inj heq
        rw [hlast]
        exact hdoubled front behind hrest

theorem DoubledLast.behind {behind : List Char}
    (h : DoubledLast before ('*' :: '*' :: behind)) :
    behind = [] ∧ before.all (· == '/') = true :=
  h [] behind rfl

theorem doubledLast_stars (h : before.all (· == '/') = true) :
    DoubledLast before ['*', '*'] := by
  intro front behind heq
  have hlength := congrArg List.length heq
  simp only [List.length_append, List.length_cons, List.length_nil] at hlength
  obtain rfl : front = [] := List.length_eq_zero_iff.mp (by omega)
  exact ⟨List.length_eq_zero_iff.mp (by omega), h⟩

theorem doubledLast_of_not_mem {pattern : List Char} (h : '*' ∉ pattern) :
    DoubledLast before pattern := by
  rintro front behind rfl
  simp at h

end

/-! ## Patterns read character by character -/

/-- The element that a character is read as where no stars are doubled. -/
def plainElement : Char → Element
  | '*' => .anyText
  | '?' => .anyChar
  | c => .exactly c

theorem standsFor_plainElement (c : Char) (piece : List Char) :
    (plainElement c).StandsFor piece ↔ StandsFor c piece := by
  unfold plainElement StandsFor
  split <;> simp_all [Element.StandsFor, Element.admits]

theorem plainElement_letter {c : Char} (hstar : c ≠ '*') (hquestion : c ≠ '?') :
    plainElement c = .exactly c := by
  unfold plainElement
  split <;> first | rfl | contradiction

theorem anyPath_not_mem (pattern : List Char) : .anyPath ∉ pattern.map plainElement := by
  simp only [List.mem_map, not_exists, not_and]
  intro c _
  unfold plainElement
  split <;> simp

/-- Patterns with the same verdicts have the same verdicts behind an element. -/
theorem verdict_cons_congr {rest other : Pattern} (element : Element)
    (h : verdict .text rest = verdict .text other) :
    verdict .text (element :: rest) = verdict .text (element :: other) := by
  funext starts text
  cases element <;> cases text <;> simp only [verdict, h]

/-- A component of two stars at the end accepts every text, as two stars should. -/
theorem verdict_stars : verdict .text [.anyPath] = verdict .text [.anyText, .anyText] := by
  have hstretch : ∀ starts text, stretch .text true (verdict .text []) starts text = .accepted := by
    intro starts text
    induction text generalizing starts with
    | nil => rfl
    | cons c rest ih =>
        have hnil : verdict .text [] true [] = .accepted := rfl
        have hcons : ∀ d later, verdict .text [] true (d :: later) = .rejected := fun _ _ => rfl
        rw [stretch]
        by_cases hc : c = '/'
        · cases rest <;> simp [hc, ih, hnil, hcons]
        · simp [hc, ih]
  funext starts text
  have htwo : verdict .text [.anyText, .anyText] starts text = .accepted := by
    rw [(decides_verdict (by simp)).accepted]
    exact ⟨[[], text], .cons (.inl rfl) (.cons (.inl rfl) .nil), by simp⟩
  have hone : verdict .text [.anyPath] starts text = .accepted := by
    cases text with
    | nil => rfl
    | cons c rest => exact hstretch starts (c :: rest)
  rw [hone, htwo]

/-- Where stars are doubled in the last component only, each character is read as the element
it stands for, or the last two as one that accepts the same texts. -/
theorem read_of_doubledLast {text : List Char} {found : List Element} {before : Option Char}
    (h : DoubledLast before text) (hbracket : '[' ∉ text) (hfound : found.head? ≠ some .anyPath) :
    ∃ elements, read found before text = some (found.reverse ++ elements) ∧
      verdict .text elements = verdict .text (text.map plainElement) := by
  -- each step adds the element of a character
  have hstep : ∀ {c : Char} {rest : List Char} {found : List Element} {last : Option Char},
      (∃ elements, read (plainElement c :: found) last rest =
          some ((plainElement c :: found).reverse ++ elements) ∧
        verdict .text elements = verdict .text (rest.map plainElement)) →
      ∃ elements, read (plainElement c :: found) last rest = some (found.reverse ++ elements) ∧
        verdict .text elements = verdict .text ((c :: rest).map plainElement) := by
    rintro c rest found last ⟨elements, hread, hverdict⟩
    refine ⟨plainElement c :: elements, by simpa using hread, ?_⟩
    rw [List.map_cons]
    exact verdict_cons_congr _ hverdict
  fun_induction read found before text with
  | case1 => exact ⟨[], by simp, rfl⟩
  | case2 found before rest ih =>
      have hrest := (doubledLast_cons (by simp)).mp h
      exact hstep (c := '?') (ih hrest (by simp_all) (by simp))
  | case3 => exact absurd h.behind.1 (by simp)
  | case4 found before =>
      have hpush : pushPath found = .anyPath :: found := by
        unfold pushPath
        split
        · simp at hfound
        · rfl
      exact ⟨[.anyPath], by simp [hpush], verdict_stars⟩
  | case5 => exact absurd h.behind.1 (by simp)
  | case6 => exact absurd h.behind.1 ‹_›
  | case7 found before rest _ hplace =>
      have hbefore := h.behind.2
      cases before <;> simp_all
  | case8 found before rest _ hnot ih =>
      have hrest := (doubledLast_cons fun more _ hmore => hnot more hmore).mp h
      exact hstep (c := '*') (ih hrest (by simp_all) (by simp))
  | case9 => simp at hbracket
  | case10 => simp at hbracket
  | case11 found before c rest hquestion _ _ hstar _ ih =>
      have hrest := (doubledLast_cons fun more hc => absurd hc hstar).mp h
      rw [← plainElement_letter hstar hquestion] at ih ⊢
      exact hstep (ih hrest (by simp_all) (by simp [plainElement_letter hstar hquestion]))

/-! ## Patterns with another meaning -/

theorem count_slash_le {pattern text : List Char} (h : Divided StandsFor pattern text) :
    pattern.count '/' ≤ text.count '/' := by
  induction pattern generalizing text with
  | nil => simp
  | cons c pattern ih =>
      obtain ⟨piece, rest, rfl, hpiece, hrest⟩ := divided_cons.mp h
      rw [List.count_append]
      by_cases hc : c = '/'
      · subst hc
        have hpiece : piece = ['/'] := hpiece
        rw [hpiece, List.count_cons_self, List.count_singleton_self, Nat.add_comm]
        exact Nat.add_le_add_left (ih hrest) 1
      · rw [List.count_cons_of_ne hc]
        exact Nat.le_add_left_of_le (ih hrest)

/-- The stars may all stand for nothing. -/
theorem divided_filter (pattern : List Char) :
    Divided StandsFor pattern (pattern.filter (· ≠ '*')) := by
  induction pattern with
  | nil => exact divided_nil.mpr rfl
  | cons c pattern ih =>
      rw [divided_cons]
      by_cases hc : c = '*'
      · subst hc
        exact ⟨[], _, by simp, trivial, ih⟩
      · refine ⟨[c], _, by simp [hc], ?_, ih⟩
        unfold StandsFor
        split <;> simp_all

theorem pushPath_cases (found : List Element) :
    pushPath found = found ∨ pushPath found = .anyPath :: found := by
  unfold pushPath
  split
  · exact .inl rfl
  · exact .inr rfl

/-- Elements accept a text in which their stars stand for nothing.  It has no more separators than
the pattern, and fewer if stars are doubled other than in the last component. -/
theorem exists_accepted {text : List Char} {found elements : List Element} {before : Option Char}
    (hread : read found before text = some elements) (hbracket : '[' ∉ text) :
    ∃ more least, elements = found.reverse ++ more ∧
      (∀ starts, verdict .text more starts least = .accepted) ∧
      least.count '/' ≤ text.count '/' ∧
      (¬DoubledLast before text → least.count '/' < text.count '/') := by
  fun_induction read found before text with
  | case1 found before =>
      refine ⟨[], [], by simpa using hread.symm, fun _ => rfl, Nat.le_refl _, fun h => ?_⟩
      exact absurd (doubledLast_of_not_mem (by simp)) h
  | case2 found before rest ih =>
      obtain ⟨more, least, rfl, haccepted, hle, hlt⟩ := ih hread (by simp_all)
      refine ⟨.anyChar :: more, '?' :: least, by simp, fun starts => ?_, by simpa, ?_⟩
      · simpa [verdict, Element.admits] using haccepted _
      · rw [doubledLast_cons (by simp)]
        simpa using hlt
  | case3 => cases hread
  | case4 found before hplace =>
      have hlast : DoubledLast before ['*', '*'] := doubledLast_stars (by cases before <;> simp_all)
      rcases pushPath_cases found with hpush | hpush
      · exact ⟨[], [], by simp_all, fun _ => rfl, Nat.zero_le _, fun h => absurd hlast h⟩
      · exact ⟨[.anyPath], [], by simp_all, fun _ => rfl, Nat.zero_le _, fun h => absurd hlast h⟩
  | case5 found before hplace rest _ ih =>
      obtain ⟨more, least, rfl, haccepted, hle, -⟩ := ih hread (by simp_all)
      have hlt : least.count '/' < ('*' :: '*' :: '/' :: rest).count '/' := by
        simpa using Nat.lt_succ_of_le hle
      rcases pushPath_cases found with hpush | hpush
      · exact ⟨more, least, by rw [hpush], haccepted, Nat.le_of_lt hlt, fun _ => hlt⟩
      · refine ⟨.anyPath :: more, least, by simp [hpush], fun starts => ?_, Nat.le_of_lt hlt,
          fun _ => hlt⟩
        simp [verdict, haccepted]
  | case6 => cases hread
  | case7 => cases hread
  | case8 found before rest _ hnot ih =>
      obtain ⟨more, least, rfl, haccepted, hle, hlt⟩ := ih hread (by simp_all)
      refine ⟨.anyText :: more, least, by simp, fun starts => ?_, by simpa, ?_⟩
      · simp [verdict, haccepted]
      · rw [doubledLast_cons fun more _ hmore => hnot more hmore]
        simpa using hlt
  | case9 => simp at hbracket
  | case10 => simp at hbracket
  | case11 found before c rest hquestion _ _ hstar _ ih =>
      obtain ⟨more, least, rfl, haccepted, hle, hlt⟩ := ih hread (by simp_all)
      refine ⟨.exactly c :: more, c :: least, by simp, fun starts => ?_, ?_, ?_⟩
      · simpa [verdict, Element.admits] using haccepted _
      · simpa [List.count_cons] using hle
      · rw [doubledLast_cons fun more hc => absurd hc hstar]
        simpa [List.count_cons] using hlt

/-- A pattern without brackets has the meaning that its characters settle one by one just when
stars are doubled in its last component only, if at all. -/
theorem matchesText_iff_divided {pattern : String} (hbracket : '[' ∉ pattern.toList) :
    (∀ text : String, matchesText pattern text = true ↔
        Divided StandsFor pattern.toList text.toList) ↔
      DoubledLast none pattern.toList := by
  constructor
  · intro hmatches
    by_contra hdoubled
    cases hread : ofText? pattern with
    | none =>
        have hfiltered := (hmatches (String.ofList (pattern.toList.filter (· ≠ '*')))).mpr
          (by rw [String.toList_ofList]; exact divided_filter _)
        rw [matchesText, hread] at hfiltered
        have hstar : '*' ∉ pattern.toList := by
          rw [beq_iff_eq.mp hfiltered, String.toList_ofList]
          simp
        exact hdoubled (doubledLast_of_not_mem hstar)
    | some elements =>
        obtain ⟨more, least, rfl, haccepted, -, hlt⟩ := exists_accepted hread hbracket
        have hmatched : matchesText pattern (String.ofList least) = true := by
          rw [matchesText, hread]
          simp [accepts, haccepted]
        have hle := count_slash_le ((hmatches _).mp hmatched)
        rw [String.toList_ofList] at hle
        exact absurd (hlt hdoubled) (Nat.not_lt.mpr hle)
  · intro hdoubled text
    have hnone : ([] : List Element).head? ≠ some .anyPath := by simp
    obtain ⟨elements, hread, hverdict⟩ := read_of_doubledLast hdoubled hbracket hnone
    have haccepts : matchesText pattern text =
        accepts .text (pattern.toList.map plainElement) text := by
      rw [matchesText, ofText?, hread, accepts, ← hverdict]
      rfl
    rw [haccepts, accepts_iff (anyPath_not_mem _), divided_map,
      funext fun c => funext fun piece => propext (standsFor_plainElement c piece)]

/-- Wildcards, and a component of two stars at the end. -/
theorem matchesText_last_component :
    '[' ∉ "a*?/**".toList ∧ DoubledLast none "a*?/**".toList ∧
    ∀ text : String, matchesText "a*?/**" text = true ↔
      Divided StandsFor "a*?/**".toList text.toList := by
  have hbracket : '[' ∉ "a*?/**".toList := by decide
  have hdoubled : DoubledLast none "a*?/**".toList := by
    change DoubledLast none ['a', '*', '?', '/', '*', '*']
    rw [doubledLast_cons (by simp), doubledLast_cons (by simp), doubledLast_cons (by simp),
      doubledLast_cons (by simp)]
    exact doubledLast_stars rfl
  exact ⟨hbracket, hdoubled, (matchesText_iff_divided hbracket).mpr hdoubled⟩

/-- Two stars between letters match themselves only, and a component of two stars may be missing
with the separator behind it. -/
theorem doubled_stars_differ :
    (matchesText "a**b" "axb" = false ∧ Divided StandsFor "a**b".toList "axb".toList) ∧
    matchesText "**/a" "a" = true ∧ ¬Divided StandsFor "**/a".toList "a".toList := by
  have hrefused : ofText? "a**b" = none := by cbv
  have hread : ofText? "**/a" = some [.anyPath, .exactly 'a'] := by cbv
  refine ⟨⟨?_, [['a'], ['x'], [], ['b']], ?_, rfl⟩, ?_, fun hdivided => ?_⟩
  · rw [matchesText, hrefused]
    rfl
  · exact .cons rfl (.cons trivial (.cons trivial (.cons rfl .nil)))
  · rw [matchesText, hread]
    rfl
  · exact absurd (count_slash_le hdivided) (by decide)

end Conch.Pattern
