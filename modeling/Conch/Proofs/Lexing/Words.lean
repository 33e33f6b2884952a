import Conch.Proofs.Lexing.Layouts
import Conch.Proofs.Words.Scanning
import Mathlib.Data.List.TakeWhile

/-!
# Reading a word in another place

The text of a word depends on neither its place nor on what comes after the character
that ends it (`readWord_append`, `readWord_position`).  A word without an opening `$(`
or `$\x7b` is read again from its own text before every end of a word
(`readWord_ordinary`); continued lines have gone from it, and nothing else has.
-/

namespace Conch.Syntax

namespace Cursor

theorem readWord_nil (stack : List Bracket) (seen : List Char) (position : Position) :
    readWord stack seen [] position =
      match stack with
      | [] => .ok (seen.reverse, ⟨[], position⟩)
      | bracket :: _ => .error ⟨.unclosed bracket.construct, position⟩ := by
  refine (readWord.eq_def stack seen [] position).trans ?_
  cases stack <;> rfl

/-- The equation of `readWord` without the proof that its recursion needs. -/
theorem readWord_cons (stack : List Bracket) (seen : List Char) (c : Char) (after : List Char)
    (position : Position) :
    readWord stack seen (c :: after) position =
      match step stack c after.head? with
      | .stop => .ok (seen.reverse, ⟨c :: after, position⟩)
      | .one stack => readWord stack (c :: seen) after (position.after c)
      | .two stack =>
          match after with
          | [] => readWord stack (c :: seen) [] (position.after c)
          | d :: after => readWord stack (d :: c :: seen) after ((position.after c).after d)
      | .join =>
          if after.tail.isEmpty then
            .error ⟨.unclosed .continuation, (position.after c).after '\n'⟩
          else readWord stack seen after.tail ((position.after c).after '\n')
      | .substitution =>
          match Substitution.split after.tail with
          | none => .error ⟨.unclosed .substitution, position.after c⟩
          | some (body, rest) =>
              readWord stack (')' :: body.reverseAux ('(' :: c :: seen)) rest
                ((((position.after c).after '(').afterAll body).after ')') := by
  rw [readWord.eq_def]
  cases hstep : step stack c after.head? with
  | substitution =>
      simp only [hstep]
      split <;> (rename_i h; simp only [h])
  | two stack => cases after <;> simp only [hstep]
  | _ => simp only [hstep]

/-! ## What a step depends on -/

theorem step_stop {stack : List Bracket} {c : Char} {next : Option Char}
    (h : step stack c next = .stop) : stack = [] ∧ isWordBoundary c = true := by
  unfold step dollar at h
  split at h
  · split at h
    · exact ⟨rfl, by assumption⟩
    · split at h <;> (try split at h) <;> cases h
  · cases h
  · split at h <;> (try split at h) <;> cases h
  · split at h <;> (try split at h) <;> cases h

theorem step_join {stack : List Bracket} {c : Char} {next : Option Char}
    (h : step stack c next = .join) : stack = [] ∧ c = '\\' ∧ next = some '\n' := by
  unfold step dollar at h
  split at h
  · split at h
    · cases h
    · split at h
      · split at h
        · rename_i hnext
          exact ⟨rfl, rfl, hnext⟩
        · cases h
      · cases h
      · cases h
      · split at h <;> cases h
      · cases h
  · cases h
  · split at h <;> (try split at h) <;> cases h
  · split at h <;> (try split at h) <;> cases h

theorem step_substitution {stack : List Bracket} {c : Char} {next : Option Char}
    (h : step stack c next = .substitution) : c = '$' ∧ next = some '(' := by
  unfold step dollar at h
  split at h
  · split at h
    · cases h
    · split at h
      · split at h <;> cases h
      · cases h
      · cases h
      · split at h <;> first | exact ⟨rfl, rfl⟩ | cases h
      · cases h
  · cases h
  · split at h <;> (try split at h) <;> first | exact ⟨rfl, rfl⟩ | cases h
  · split at h <;> (try split at h) <;> first | exact ⟨rfl, rfl⟩ | cases h

theorem step_two_none {stack stack' : List Bracket} {c : Char}
    (h : step stack c none = .two stack') : c = '\\' := by
  unfold step dollar at h
  split at h
  · split at h
    · cases h
    · split at h <;> first | rfl | cases h
  · cases h
  · split at h <;> first | rfl | cases h
  · split at h <;> first | rfl | cases h

theorem dollar_one {below stack : List Bracket} {next next' : Option Char}
    (h : dollar below next = .one stack) (hparen : next' ≠ some '(') (hbrace : next' ≠ some '\x7b') :
    dollar below next' = .one stack := by
  have hstack : stack = below := by
    unfold dollar at h
    split at h <;> cases h
    rfl
  rw [hstack, dollar.eq_def]
  split <;> first | rfl | exact absurd rfl hparen | exact absurd rfl hbrace

/-- A step over one character looks at the next one only after a dollar sign. -/
theorem step_one {stack stack' : List Bracket} {c : Char} {next next' : Option Char}
    (h : step stack c next = .one stack')
    (hdollar : c = '$' → next' ≠ some '(' ∧ next' ≠ some '\x7b') :
    step stack c next' = .one stack' := by
  by_cases hc : c = '$'
  · subst hc
    obtain ⟨hparen, hbrace⟩ := hdollar rfl
    match stack with
    | [] => exact @dollar_one [] _ _ _ h hparen hbrace
    | .single :: _ => exact h
    | .double :: below => exact @dollar_one (.double :: below) _ _ _ h hparen hbrace
    | .braces depth :: below =>
        exact @dollar_one (.braces depth :: below) _ _ _ h hparen hbrace
  · by_cases hslash : c = '\\' ∧ stack = []
    · obtain ⟨rfl, rfl⟩ := hslash
      change (if next = some '\n' then Step.join else .two []) = .one stack' at h
      split at h <;> cases h
    · rw [← h]
      unfold step
      split
      · split
        · rfl
        · split <;> simp_all
      · rfl
      · split <;> simp_all
      · split <;> simp_all

/-! ## What a word depends on -/

variable {stack : List Bracket} {seen rest text : List Char} {position : Position}
  {cursor : Cursor}

theorem head?_append_of_ne_nil {first : List Char} (h : first ≠ []) (second : List Char) :
    (first ++ second).head? = first.head? := by
  cases first with
  | nil => exact absurd rfl h
  | cons _ _ => rfl

/-- A word that ended before a character ends there whatever comes later. -/
theorem readWord_append (h : readWord stack seen rest position = .ok (text, cursor))
    (hne : cursor.rest ≠ []) (more : List Char) :
    readWord stack seen (rest ++ more) position =
      .ok (text, ⟨cursor.rest ++ more, cursor.position⟩) := by
  have hafter : ∀ {stack : List Bracket} {seen after : List Char} {position : Position},
      readWord stack seen after position = .ok (text, cursor) → after ≠ [] := by
    rintro stack seen after position h rfl
    have hlength := readWord_length_le h
    exact hne (List.length_eq_zero_iff.mp (Nat.le_zero.mp hlength))
  fun_induction readWord stack seen rest position with
  | case1 =>
      cases h
      exact absurd rfl hne
  | case2 => cases h
  | case3 stack seen position c after hstep =>
      cases h
      obtain ⟨rfl, hc⟩ := step_stop hstep
      rw [List.cons_append, readWord_cons, step_boundary hc]
  | case4 stack seen position c after stack' hstep ih =>
      rw [List.cons_append, readWord_cons, head?_append_of_ne_nil (hafter h), hstep]
      exact ih h
  | case5 => exact absurd rfl (hafter h)
  | case6 stack seen position c stack' d after hstep ih =>
      rw [List.head?_cons] at hstep
      rw [List.cons_append, List.cons_append, readWord_cons, List.head?_cons, hstep]
      exact ih h
  | case7 => cases h
  | case8 stack seen position c after hstep position' hnonempty ih =>
      have hne : after ≠ [] := by
        rintro rfl
        exact hnonempty rfl
      rw [List.cons_append, readWord_cons, head?_append_of_ne_nil hne, hstep]
      simp only
      rw [List.tail_append_of_ne_nil hne, if_neg (by simp_all)]
      exact ih h
  | case9 => cases h
  | case10 stack seen position c after hstep position' body rest hsplit ih =>
      have htail := Substitution.split_eq_some hsplit
      have hne : after ≠ [] := by
        rintro rfl
        simp at htail
      rw [List.cons_append, readWord_cons, head?_append_of_ne_nil hne, hstep]
      simp only
      rw [List.tail_append_of_ne_nil hne, htail, List.append_assoc, List.cons_append,
        Substitution.split_again hsplit]
      exact ih h

/-- A word is read the same way in every place. -/
theorem readWord_position (h : readWord stack seen rest position = .ok (text, cursor))
    (position' : Position) :
    ∃ finish, readWord stack seen rest position' = .ok (text, ⟨cursor.rest, finish⟩) := by
  fun_induction readWord stack seen rest position generalizing position' with
  | case1 =>
      cases h
      exact ⟨position', readWord_nil _ _ _⟩
  | case2 => cases h
  | case3 stack seen position c after hstep =>
      cases h
      exact ⟨position', by rw [readWord_cons, hstep]⟩
  | case4 stack seen position c after stack' hstep ih =>
      rw [readWord_cons, hstep]
      exact ih h _
  | case5 stack seen position c stack' hstep ih =>
      rw [readWord_cons, hstep]
      exact ih h _
  | case6 stack seen position c stack' d after hstep ih =>
      rw [readWord_cons, hstep]
      exact ih h _
  | case7 => cases h
  | case8 stack seen position c after hstep position hnonempty ih =>
      rw [readWord_cons, hstep]
      simp only
      rw [if_neg hnonempty]
      exact ih h _
  | case9 => cases h
  | case10 stack seen position c after hstep position body rest hsplit ih =>
      rw [readWord_cons, hstep]
      simp only [hsplit]
      exact ih h _

/-- A word is no longer than what was read. -/
theorem readWord_length (h : readWord stack seen rest position = .ok (text, cursor)) :
    text.length + cursor.rest.length ≤ seen.length + rest.length := by
  fun_induction readWord stack seen rest position with
  | case1 =>
      cases h
      simp
  | case2 => cases h
  | case3 =>
      cases h
      simp
  | case4 _ _ _ _ _ _ _ ih =>
      have := ih h
      simp only [List.length_cons] at this ⊢
      omega
  | case5 _ _ _ _ _ _ ih =>
      have := ih h
      simp only [List.length_cons] at this ⊢
      omega
  | case6 _ _ _ _ _ _ _ _ ih =>
      have := ih h
      simp only [List.length_cons] at this ⊢
      omega
  | case7 => cases h
  | case8 _ _ _ _ _ _ _ _ ih =>
      have := ih h
      simp only [List.length_cons, List.length_tail] at this ⊢
      omega
  | case9 => cases h
  | case10 _ _ _ _ after _ _ body rest hsplit ih =>
      have hword := ih h
      have htail := congrArg List.length (Substitution.split_eq_some hsplit)
      simp only [List.length_cons, List.length_tail, List.length_append, List.reverseAux_eq,
        List.length_reverse] at hword htail ⊢
      omega

/-! ## Words without expansions -/

/-- A dollar sign stands directly before a parenthesis or a brace. -/
def opensExpansion : List Char → Bool
  | '$' :: '(' :: _ => true
  | '$' :: '\x7b' :: _ => true
  | _ :: rest => opensExpansion rest
  | [] => false

theorem opensExpansion_tail {c : Char} {rest : List Char}
    (h : opensExpansion (c :: rest) = false) : opensExpansion rest = false := by
  unfold opensExpansion at h
  split at h
  · cases h
  · cases h
  · rename_i heq
    cases heq
    exact h
  · rename_i heq
    cases heq

theorem opensExpansion_dollar {rest : List Char} (h : opensExpansion ('$' :: rest) = false) :
    rest.head? ≠ some '(' ∧ rest.head? ≠ some '\x7b' := by
  cases rest with
  | nil => simp
  | cons d rest =>
      refine ⟨?_, ?_⟩ <;>
      · intro hd
        cases hd
        cases h

/-- No expansion opens in the text, and no backslash is left over at its end. -/
def isOrdinary (text : List Char) : Bool :=
  !opensExpansion text && text.getLast? != some '\\'

theorem isOrdinary_tail {c : Char} {rest : List Char} (h : isOrdinary (c :: rest) = true) :
    isOrdinary rest = true := by
  simp only [isOrdinary, Bool.and_eq_true, Bool.not_eq_true', bne_iff_ne] at h ⊢
  refine ⟨opensExpansion_tail h.1, ?_⟩
  cases rest with
  | nil => simp
  | cons d rest =>
      have hlast := h.2
      rwa [List.getLast?_cons_cons] at hlast

/-- An ordinary word is read again from its own text before any end of a word. -/
theorem readWord_ordinary (h : readWord stack seen rest position = .ok (text, cursor)) :
    ∃ new, text = seen.reverse ++ new ∧
      (isOrdinary new = true → ∀ (seen' more : List Char) (position' : Position),
        Piece.endsWord more.head? → ∃ finish,
          readWord stack seen' (new ++ more) position' =
            .ok (seen'.reverse ++ new, ⟨more, finish⟩)) := by
  have hends : ∀ {seen' more : List Char} {position' : Position}, Piece.endsWord more.head? →
      ∃ finish, readWord [] seen' ([] ++ more) position' =
        .ok (seen'.reverse ++ [], ⟨more, finish⟩) := by
    intro seen' more position' hmore
    refine ⟨position', ?_⟩
    cases more with
    | nil => rw [List.append_nil, readWord_nil, List.append_nil]
    | cons c more =>
        have hc : isWordBoundary c = true := by
          rcases hmore c rfl with rfl | rfl | rfl <;> decide
        rw [List.nil_append, readWord_cons, step_boundary hc, List.append_nil]
  have hnext : ∀ {new more : List Char}, isOrdinary ('$' :: new) = true →
      Piece.endsWord more.head? →
        (new ++ more).head? ≠ some '(' ∧ (new ++ more).head? ≠ some '\x7b' := by
    intro new more hnew hmore
    simp only [isOrdinary, Bool.and_eq_true, Bool.not_eq_true'] at hnew
    cases new with
    | nil =>
        refine ⟨fun hc => ?_, fun hc => ?_⟩ <;>
        · rcases hmore _ hc with hc | hc | hc <;> cases hc
    | cons d new =>
        have hd := opensExpansion_dollar hnew.1
        simpa using hd
  fun_induction readWord stack seen rest position with
  | case1 =>
      cases h
      exact ⟨[], by simp, fun _ seen' more position' hmore => hends hmore⟩
  | case2 => cases h
  | case3 stack seen position c after hstep =>
      cases h
      obtain ⟨rfl, _⟩ := step_stop hstep
      exact ⟨[], by simp, fun _ seen' more position' hmore => hends hmore⟩
  | case4 stack seen position c after stack' hstep ih =>
      obtain ⟨new, htext, hagain⟩ := ih h
      refine ⟨c :: new, by simp [htext], fun hnew seen' more position' hmore => ?_⟩
      have hstep' : step stack c (new ++ more).head? = .one stack' :=
        step_one hstep (by
          rintro rfl
          exact hnext hnew hmore)
      obtain ⟨finish, hread⟩ := hagain (isOrdinary_tail hnew) (c :: seen') more
        (position'.after c) hmore
      refine ⟨finish, ?_⟩
      rw [List.cons_append, readWord_cons, hstep']
      simpa using hread
  | case5 stack seen position c stack' hstep ih =>
      obtain ⟨new, htext, _⟩ := ih h
      obtain rfl := step_two_none hstep
      rw [readWord_nil] at h
      split at h
      · cases h
        refine ⟨['\\'], by simp, fun hnew => ?_⟩
        cases hnew
      · cases h
  | case6 stack seen position c stack' d after hstep ih =>
      obtain ⟨new, htext, hagain⟩ := ih h
      refine ⟨c :: d :: new, by simp [htext], fun hnew seen' more position' hmore => ?_⟩
      obtain ⟨finish, hread⟩ := hagain (isOrdinary_tail (isOrdinary_tail hnew)) (d :: c :: seen')
        more ((position'.after c).after d) hmore
      refine ⟨finish, ?_⟩
      rw [List.head?_cons] at hstep
      rw [List.cons_append, List.cons_append, readWord_cons, List.head?_cons, hstep]
      simpa using hread
  | case7 => cases h
  | case8 stack seen position c after hstep position' hnonempty ih => exact ih h
  | case9 => cases h
  | case10 stack seen position c after hstep position' body rest hsplit ih =>
      obtain ⟨new, htext, _⟩ := ih h
      obtain ⟨rfl, _⟩ := step_substitution hstep
      refine ⟨'$' :: '(' :: (body ++ ')' :: new), ?_, fun hnew => ?_⟩
      · rw [htext]
        simp [List.reverseAux_eq]
      · cases hnew

/-! ## Words as lexemes -/

theorem descriptor?_eq_some {text digits : List Char} (h : descriptor? text = some digits) :
    ∃ d rest, text = digits ++ d :: rest ∧ (d = '<' ∨ d = '>') ∧
      ∀ c ∈ digits, c.isDigit = true := by
  have hdigits : ∀ c ∈ text.takeWhile Char.isDigit, c.isDigit = true :=
    fun c hc => List.mem_takeWhile_imp hc
  have htext := List.takeWhile_append_dropWhile (p := Char.isDigit) (l := text)
  unfold descriptor? at h
  simp only at h
  split at h
  · rename_i rest _ hrest
    cases h
    exact ⟨'<', rest, by rw [← hrest, htext], .inl rfl, hdigits⟩
  · rename_i rest _ hrest
    cases h
    exact ⟨'>', rest, by rw [← hrest, htext], .inr rfl, hdigits⟩
  · cases h

theorem skipBlanks_again {text rest : List Char} {c : Char} {position finish : Position}
    (h : skipBlanks text position = .ok ⟨c :: rest, finish⟩) :
    skipBlanks (c :: rest) finish = .ok ⟨c :: rest, finish⟩ := by
  fun_induction skipBlanks text position with
  | case1 _ _ ih => exact ih h
  | case2 _ _ ih => exact ih h
  | case3 => cases h
  | case4 _ _ _ _ ih => exact ih h
  | case5 text position hblank htab hjoin =>
      cases h
      rw [skipBlanks.eq_def]
      split <;> simp_all

/-- A lexeme does not start with a continued line, so a word starts with its first character. -/
theorem readWord_head {c : Char}
    (hskip : skipBlanks (c :: rest) position = .ok ⟨c :: rest, position⟩)
    (hboundary : isWordBoundary c = false)
    (hread : readWord [] [] (c :: rest) position = .ok (text, cursor)) :
    text.head? = some c := by
  rw [readWord_cons] at hread
  cases hstep : step [] c rest.head? with
  | stop =>
      rw [(step_stop hstep).2] at hboundary
      cases hboundary
  | one stack =>
      rw [hstep] at hread
      obtain ⟨new, htext, _⟩ := readWord_ordinary hread
      simp [htext]
  | two stack =>
      rw [hstep] at hread
      cases rest with
      | nil =>
          obtain ⟨new, htext, _⟩ := readWord_ordinary hread
          simp [htext]
      | cons d rest =>
          obtain ⟨new, htext, _⟩ := readWord_ordinary hread
          simp [htext]
  | join =>
      obtain ⟨_, rfl, hnext⟩ := step_join hstep
      obtain ⟨more, rfl⟩ : ∃ more, rest = '\n' :: more := by
        cases rest with
        | nil => cases hnext
        | cons d more =>
            cases hnext
            exact ⟨more, rfl⟩
      unfold skipBlanks at hskip
      simp only at hskip
      split at hskip
      · cases hskip
      · have hlength := (skipBlanks_spec hskip).1
        simp only [List.length_cons] at hlength
        omega
  | substitution =>
      rw [hstep] at hread
      simp only at hread
      split at hread
      · cases hread
      · obtain ⟨new, htext, _⟩ := readWord_ordinary hread
        simp [htext, List.reverseAux_eq]

end Cursor

/-- The lexeme was read at some place of a text, where no blank and no continued line was left. -/
def Lexeme.WasRead (lexeme : Lexeme) : Prop :=
  ∃ c rest position cursor, Cursor.skipBlanks (c :: rest) position = .ok ⟨c :: rest, position⟩ ∧
    Cursor.lexeme c rest position = .ok (some lexeme, cursor)

theorem Lexemes.read_wasRead {found : List Lexeme} {text : List Char} {position : Position}
    {stream : Lexemes} (h : Lexemes.read found text position = .ok stream)
    (hfound : ∀ lexeme ∈ found, lexeme.WasRead) : ∀ lexeme ∈ stream.items, lexeme.WasRead := by
  fun_induction Lexemes.read found text position with
  | case1 => cases h
  | case2 found text position finish hskip =>
      cases h
      intro lexeme hlexeme
      exact hfound lexeme (List.mem_reverse.mp hlexeme)
  | case3 => cases h
  | case4 found text position c rest position' hskip cursor hlexeme ih => exact ih h hfound
  | case5 found text position c rest position' hskip lexeme cursor hlexeme ih =>
      refine ih h ?_
      intro other hother
      rcases List.mem_cons.mp hother with rfl | hother
      · exact ⟨c, rest, position', cursor, Cursor.skipBlanks_again hskip, hlexeme⟩
      · exact hfound other hother

theorem Lexemes.ofText_wasRead {text : List Char} {stream : Lexemes}
    (h : Lexemes.ofText text = .ok stream) : ∀ lexeme ∈ stream.items, lexeme.WasRead :=
  Lexemes.read_wasRead h (by simp)

/-- What is known of a word that was read. -/
theorem Lexeme.WasRead.word {lexeme : Lexeme} (h : lexeme.WasRead) (hkind : lexeme.kind = .word) :
    (∃ c ∈ lexeme.text.toList.head?, isWordBoundary c = false ∧ c ≠ '#') ∧
      ∃ text position cursor,
        Cursor.readWord [] [] text position = .ok (lexeme.text.toList, cursor) := by
  obtain ⟨c, rest, position, cursor, hskip, hlexeme⟩ := h
  have hblank := (Cursor.skipBlanks_spec hskip).2 c rfl
  unfold Cursor.lexeme at hlexeme
  split at hlexeme
  · cases hlexeme
  · rename_i hcomment
    split at hlexeme
    · cases hlexeme
      cases hkind
    · rename_i hnewline
      split at hlexeme
      · cases hlexeme
        cases hkind
      · rename_i hoperator
        split at hlexeme
        · cases hlexeme
          cases hkind
        · split at hlexeme
          · cases hlexeme
          · rename_i text after hread
            cases hlexeme
            have hboundary : isWordBoundary c = false := by
              cases hc : isWordBoundary c with
              | false => rfl
              | true =>
                  rcases Cursor.boundary_of_operator? hoperator hc with rfl | rfl | rfl
                  · exact absurd rfl hblank.1
                  · exact absurd rfl hblank.2
                  · exact absurd rfl hnewline
            refine ⟨⟨c, ?_, hboundary, hcomment⟩, c :: rest, position, cursor, ?_⟩
            · rw [String.toList_ofList]
              exact Cursor.readWord_head hskip hboundary hread
            · rw [String.toList_ofList]
              exact hread

/-- A word is read where its text is read as a word and no redirection follows. -/
theorem Piece.lexed_word_before {n : Node} {opensArm : Bool} {more : List Char}
    (hfirst : ∃ c ∈ n.render.toList.head?, isWordBoundary c = false ∧ c ≠ '#')
    (hread : ∀ position, ∃ finish, Cursor.readWord [] [] (n.render.toList ++ more) position =
      .ok (n.render.toList, ⟨more, finish⟩))
    (hmore : ∀ c ∈ more.head?, c ≠ '<' ∧ c ≠ '>') : (Piece.word opensArm n).Lexed more := by
  obtain ⟨c, hhead, hboundary, hcomment⟩ := hfirst
  obtain ⟨text, htext⟩ : ∃ text, n.render.toList = c :: text := by
    cases hrender : n.render.toList with
    | nil =>
        rw [hrender] at hhead
        cases hhead
    | cons d text =>
        rw [hrender] at hhead
        cases hhead
        exact ⟨text, rfl⟩
  rw [htext] at hread
  have hne : ∀ d, isWordBoundary d = true → c ≠ d := by
    rintro d hd rfl
    rw [hd] at hboundary
    cases hboundary
  have hjoin : c = '\\' → (text ++ more).head? ≠ some '\n' := by
    rintro rfl hnext
    obtain ⟨finish, hread⟩ := hread .start
    have hstep : Cursor.step [] '\\' (text ++ more).head? = .join := by
      rw [hnext]
      rfl
    rw [List.cons_append, Cursor.readWord_cons, hstep] at hread
    simp only at hread
    split at hread
    · cases hread
    · have hlength := Cursor.readWord_length hread
      simp only [List.length_cons, List.length_nil, List.length_tail, List.length_append]
        at hlength
      omega
  have hdescriptor : Cursor.descriptor? (c :: (text ++ more)) = none := by
    cases hdigits : Cursor.descriptor? (c :: (text ++ more)) with
    | none => rfl
    | some digits =>
        obtain ⟨d, rest, hrest, hd, hall⟩ := Cursor.descriptor?_eq_some hdigits
        have hplain : ∀ c ∈ digits, isPlain c = true := fun c hc =>
          isPlain_of_isNameChar (isNameChar_of_isDigit (hall c hc))
        have hend : (d :: rest).head?.all isWordBoundary = true := by
          rcases hd with rfl | rfl <;> rfl
        have hword := Cursor.readWord_plain hplain hend [] .start
        obtain ⟨finish, hread⟩ := hread .start
        rw [List.cons_append, hrest, hword] at hread
        cases hread
        rcases hd with rfl | rfl
        · exact absurd rfl (hmore _ rfl).1
        · exact absurd rfl (hmore _ rfl).2
  refine lexed_of_lexeme rfl htext
    (fun position => Cursor.skipBlanks_of_ne (hne _ rfl) (hne _ rfl) hjoin position)
    (fun position => ?_)
  obtain ⟨finish, hread⟩ := hread position
  refine ⟨⟨.word, n.render, position⟩, finish, rfl, ?_⟩
  rw [List.cons_append] at hread
  rw [Cursor.lexeme, if_neg hcomment, if_neg (hne _ rfl),
    Cursor.operator?_of_not_boundary hboundary]
  simp only [hdescriptor, hread]
  rw [← htext, String.ofList_toList]

theorem Piece.lexed_word {n : Node} {opensArm : Bool} {more : List Char}
    (hfirst : ∃ c ∈ n.render.toList.head?, isWordBoundary c = false ∧ c ≠ '#')
    (hread : ∀ position, ∃ finish, Cursor.readWord [] [] (n.render.toList ++ more) position =
      .ok (n.render.toList, ⟨more, finish⟩))
    (hmore : Piece.endsWord more.head?) : (Piece.word opensArm n).Lexed more :=
  Piece.lexed_word_before hfirst hread fun c hc => by
    rcases hmore c hc with rfl | rfl | rfl <;> decide

end Conch.Syntax
