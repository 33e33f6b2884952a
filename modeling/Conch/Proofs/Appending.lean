import Conch.Proofs.Grammar.Steady
import Conch.Proofs.Parsing

/-!
# Texts after whole lines

A text that is parsed after the whole lines of a program is parsed as if it stood alone:
its statements follow those of the lines (`parse_append`).  Whole lines that are refused,
and not because more is needed, are never made right by what follows them
(`Attempt.error_final`).
-/

namespace Conch.Syntax

variable {more : List Lexeme}

theorem Closed.pastNewlines {s : Lexemes} (h : Closed s.items) : Closed s.pastNewlines.items := by
  rw [← List.takeWhile_append_dropWhile (p := fun lexeme : Lexeme => lexeme.kind == .newline)
    (l := s.items)] at h
  exact h.of_append

theorem Lexemes.Prolonged.frontOf_eq {s t : Lexemes} (h : Prolonged more s t) (hs : s.items ≠ []) :
    frontOf t.items = frontOf s.items := by
  obtain ⟨x, hx⟩ := Option.ne_none_iff_exists'.mp (mt List.head?_eq_none_iff.mp hs)
  obtain ⟨y, hy, hsymbol⟩ := h.front hx
  rw [frontOf, frontOf, hx, hy, Option.map_some, Option.map_some, hsymbol]

namespace Grammar

variable {command : Grammar Node} {s s' t : Lexemes}

/-! ## Statements of closed lexemes -/

/-- The state after part of some closed lexemes, alone and with more after them. -/
structure Onward (more : List Lexeme) (s s' t' : Lexemes) : Prop where
  prolonged : Lexemes.Prolonged more s' t'
  closed : Closed s'.items
  shorter : s'.items.length < s.items.length

/-- A result that used up no closing newline is found whatever follows. -/
theorem Answers.exact {α : Type} {a : α} {y : Except Failure (α × Lexemes)}
    (h : Answers more s (fun _ => Solid) (.ok (a, s')) y) (hclosed : Closed s.items) :
    ∃ t', y = .ok (a, t') ∧ s'.items ≠ [] ∧ Onward more s s' t' := by
  cases h with
  | ended _ _ hsolid =>
      rw [← List.append_nil s.items] at hclosed
      exact absurd rfl (hclosed.ne_nil hsolid)
  | @ok _ used _ t' hitems hsolid ht' =>
      have hsplit := hitems ▸ hclosed
      refine ⟨t', rfl, hsplit.ne_nil hsolid, ht', hsplit.of_append, ?_⟩
      rw [hitems, List.length_append]
      exact Nat.lt_add_of_pos_left (List.length_pos_iff.mpr hsolid.1)

/-- One lexeme is read. -/
theorem Onward.tail (hst : Lexemes.Prolonged more s t) (hclosed : Closed s.items)
    (hs : s.items ≠ []) :
    Onward more s ⟨s.items.tail, s.finish⟩ ⟨t.items.tail, t.finish⟩ := by
  refine ⟨hst.tail hs _ _, ?_, ?_⟩
  · obtain ⟨x, rest, hitems⟩ := List.exists_cons_of_ne_nil hs
    rw [hitems, ← List.singleton_append] at hclosed
    rw [hitems]
    exact hclosed.of_append
  · rw [List.length_tail]
    exact Nat.sub_one_lt (List.length_eq_zero_iff.not.mpr hs)

/-- What stands after an ampersand and the semicolon that may belong to it. -/
def pastSemicolon (items : List Lexeme) : List Lexeme :=
  if (frontOf items).any (fun s => s.kind == .op .semicolon) then items.tail else items

/-- The two ways a statement of a program can end before the end of the text. -/
theorem endStatement_eq_ok {statement : Node} {next : Option (Node × Following)} {x : Lexeme}
    {rest : List Lexeme} {finish : Position} :
    endStatement [] statement ⟨x :: rest, finish⟩ = .ok (next, s') ↔
      (x.kind = .op .ampersand ∧ ∃ args background, statement = .command args background ∧
        next = some (.command args true, .more) ∧ s' = ⟨pastSemicolon rest, finish⟩) ∨
      ((x.kind = .op .semicolon ∨ x.kind = .newline) ∧ next = some (statement, .more) ∧
        s' = ⟨rest, finish⟩) := by
  unfold endStatement
  rw [bind_ok (atOperator_run _ _ _), frontOf_cons, Option.any_some]
  cases hkind : x.symbol.kind == .op .ampersand with
  | true =>
      have hkind : x.kind = .op .ampersand := eq_of_beq hkind
      cases statement with
      | command args background =>
          have hrun : (do
              advance
              if ← atOperator .semicolon then advance
              return some (Node.command args true, Following.more) :
                Grammar (Option (Node × Following))) ⟨x :: rest, finish⟩ =
              .ok (some (.command args true, .more), ⟨pastSemicolon rest, finish⟩) := by
            rw [bind_ok (advance_run _), bind_ok (atOperator_run _ _ _), List.tail_cons,
              pastSemicolon]
            split <;> rfl
          simp only [if_true]
          rw [hrun]
          simp [hkind, eq_comm]
      | _ => simp [hkind, failHere]
  | false =>
      have hkind : x.kind ≠ .op .ampersand := ne_of_beq_false hkind
      simp only [Bool.false_eq_true, if_false]
      by_cases hend : x.kind = .op .semicolon ∨ x.kind = .newline
      · have hrun : endOfStatement [] ⟨x :: rest, finish⟩ = .ok (.more, ⟨rest, finish⟩) := by
          rw [endOfStatement_run, if_pos (by simpa using hend)]
          rfl
        rw [bind_ok hrun, pure_run, eq_comm]
        simp [hkind, hend]
      · have hrun : ∃ e, endOfStatement [] ⟨x :: rest, finish⟩ = .error e := by
          rw [endOfStatement_run, if_neg (by simpa using hend)]
          simp [stopsAt, unexpected]
        obtain ⟨e, hrun⟩ := hrun
        rw [bind_error hrun]
        simp [hkind, hend]

theorem endStatement_exact {statement : Node} {next : Option (Node × Following)}
    (hst : Lexemes.Prolonged more s t) (hclosed : Closed s.items) (hs : s.items ≠ [])
    (h : endStatement [] statement s = .ok (next, s')) :
    ∃ n t', next = some (n, .more) ∧ endStatement [] statement t = .ok (next, t') ∧
      Onward more s s' t' := by
  have hnext := Onward.tail hst hclosed hs
  obtain ⟨x, hx⟩ := Option.ne_none_iff_exists'.mp (mt List.head?_eq_none_iff.mp hs)
  obtain ⟨y, hy, hsymbol⟩ := hst.front hx
  obtain ⟨items, finish⟩ := s
  obtain ⟨items', finish'⟩ := t
  obtain ⟨rest, rfl⟩ := List.head?_eq_some_iff.mp hx
  obtain ⟨rest', rfl⟩ := List.head?_eq_some_iff.mp hy
  rcases endStatement_eq_ok.mp h with ⟨hkind, args, background, rfl, rfl, rfl⟩ | ⟨hkind, rfl, rfl⟩
  · have hsolid : Solid [x] := .singleton (by simp [hkind])
    have hrest : rest ≠ [] := Closed.ne_nil hclosed hsolid
    refine ⟨_, ⟨pastSemicolon rest', finish'⟩, rfl, endStatement_eq_ok.mpr (.inl
      ⟨kind_eq hsymbol ▸ hkind, args, background, rfl, rfl, rfl⟩), ?_⟩
    have hfront : frontOf rest' = frontOf rest := hnext.prolonged.frontOf_eq hrest
    unfold pastSemicolon
    rw [hfront]
    split
    · have hlast := Onward.tail hnext.prolonged hnext.closed hrest
      exact ⟨hlast.prolonged, hlast.closed, hlast.shorter.trans hnext.shorter⟩
    · exact hnext
  · exact ⟨_, ⟨rest', finish'⟩, rfl,
      endStatement_eq_ok.mpr (.inr ⟨kind_eq hsymbol ▸ hkind, rfl, rfl⟩), hnext⟩

theorem nextStatement_run (command : Grammar Node) (stream : Lexemes) :
    nextStatement command [] stream =
      if stream.pastNewlines.items = [] then .ok (none, stream.pastNewlines)
      else (do endStatement [] (← andOrList command)) stream.pastNewlines := by
  have hcurrent : ∀ stream : Lexemes, current stream = .ok (stream.items.head?, stream) :=
    fun _ => rfl
  rw [nextStatement_eq, bind_ok (skipNewlines_run stream), bind_ok (hcurrent _)]
  cases stream.pastNewlines.items with
  | nil => rfl
  | cons lexeme rest => simp [stopsAt]

/-- The next statement of closed lexemes is the same one whatever follows; after the last one
the search goes on in what follows. -/
theorem nextStatement_cases (hcommand : Steady more command (fun _ => Solid))
    (hst : Lexemes.Prolonged more s t) (hclosed : Closed s.items)
    {next : Option (Node × Following)} (h : nextStatement command [] s = .ok (next, s')) :
    (next = none ∧ nextStatement command [] t = nextStatement command [] ⟨more, t.finish⟩) ∨
      ∃ n t', next = some (n, .more) ∧ nextStatement command [] t = .ok (next, t') ∧
        Onward more s s' t' := by
  rw [nextStatement_run] at h
  by_cases hs : s.pastNewlines.items = []
  · rw [if_pos hs] at h
    cases h
    refine .inl ⟨rfl, ?_⟩
    rw [nextStatement_run, nextStatement_run, hst.pastNewlines_eq hs]
  · rw [if_neg hs] at h
    have hpast := hst.pastNewlines (.inr hs)
    have ht : t.pastNewlines.items ≠ [] := by
      rw [← List.length_pos_iff, hpast.length_eq]
      exact Nat.add_pos_left (List.length_pos_iff.mpr hs) _
    obtain ⟨n, middle, hfirst, hsecond⟩ := bind_eq_ok h
    have hanswers := steady_andOrList hcommand _ _ hpast (fun _ => hclosed.pastNewlines) trivial
    rw [hfirst] at hanswers
    obtain ⟨middle', hfirst', hmiddle, honward⟩ := hanswers.exact hclosed.pastNewlines
    obtain ⟨m, t', hm, hsecond', hlast⟩ := endStatement_exact honward.prolonged honward.closed
      hmiddle hsecond
    refine .inr ⟨m, t', hm, ?_, hlast.prolonged, hlast.closed, ?_⟩
    · rw [nextStatement_run, if_neg ht, bind_ok hfirst', hsecond']
    · exact (hlast.shorter.trans honward.shorter).trans_le (List.dropWhile_suffix _).length_le

section Collecting

variable {stops : List Token} {bound : List Lexeme} {found : List Node}

theorem statements_none (h : nextStatement command stops s = .ok (none, s')) :
    statements command stops bound found s = .ok (found.reverse, s') := by
  unfold statements
  rw [bind_ok h]
  rfl

theorem statements_more {n : Node} {lexeme : Lexeme}
    (h : nextStatement command stops s = .ok (some (n, .more), s')) :
    statements command stops (lexeme :: bound) found s =
      statements command stops bound (n :: found) s' := by
  rw [statements, bind_ok h]

theorem statements_congr (h : nextStatement command stops s = nextStatement command stops t) :
    statements command stops bound found s = statements command stops bound found t := by
  unfold statements
  simp only [bind, h]

/-- Statements found earlier stand before those that are collected. -/
theorem statements_found (found new : List Node) :
    statements command stops bound (new ++ found) s =
      (statements command stops bound new s).map (fun r => (found.reverse ++ r.1, r.2)) := by
  induction bound generalizing new s with
  | nil =>
      unfold statements
      cases hnext : nextStatement command stops s with
      | error e =>
          rw [bind_error hnext, bind_error hnext]
          rfl
      | ok result =>
          rw [bind_ok hnext, bind_ok hnext]
          rcases result with ⟨_ | ⟨n, _ | _⟩, s'⟩ <;> simp [Except.map]
  | cons lexeme bound ih =>
      unfold statements
      cases hnext : nextStatement command stops s with
      | error e =>
          rw [bind_error hnext, bind_error hnext]
          rfl
      | ok result =>
          rw [bind_ok hnext, bind_ok hnext]
          rcases result with ⟨_ | ⟨n, _ | _⟩, s'⟩
          · simp [Except.map]
          · exact ih (n :: new)
          · simp [Except.map]

end Collecting

/-- After all statements of closed lexemes those of what follows are collected. -/
theorem statements_append (hcommand : Steady more command (fun _ => Solid))
    (hst : Lexemes.Prolonged more s t) (hclosed : Closed s.items)
    {bound bound' : List Lexeme} (hbound : s.items.length ≤ bound.length)
    (hbound' : t.items.length ≤ bound'.length) {found nodes : List Node}
    (h : statements command [] bound found s = .ok (nodes, s')) :
    ∃ bound'' finish, more.length ≤ bound''.length ∧
      statements command [] bound' found t =
        statements command [] bound'' nodes.reverse ⟨more, finish⟩ := by
  induction hsize : s.items.length using Nat.strongRecOn generalizing s t bound bound' found with
  | ind size ih =>
      have hlength := hst.length_eq
      obtain ⟨next, middle, hnext⟩ :
          ∃ next middle, nextStatement command [] s = .ok (next, middle) := by
        unfold statements at h
        obtain ⟨next, middle, hnext, _⟩ := bind_eq_ok h
        exact ⟨next, middle, hnext⟩
      rcases nextStatement_cases hcommand hst hclosed hnext with
        ⟨rfl, hsame⟩ | ⟨n, middle', rfl, hnext', honward⟩
      · rw [statements_none hnext] at h
        cases h
        rw [List.reverse_reverse]
        exact ⟨bound', t.finish, by omega, statements_congr hsame⟩
      · have hshorter := honward.shorter
        have hmiddle := honward.prolonged.length_eq
        obtain ⟨_, bound, rfl⟩ := List.exists_cons_of_length_pos (by omega : 0 < bound.length)
        obtain ⟨_, bound', rfl⟩ := List.exists_cons_of_length_pos (by omega : 0 < bound'.length)
        rw [statements_more hnext] at h
        rw [statements_more hnext']
        rw [List.length_cons] at hbound hbound'
        exact ih _ (hsize ▸ hshorter) honward.prolonged honward.closed (by omega) (by omega) h rfl

/-! ## Whole programs -/

/-- No lexeme may be left after the statements of a program. -/
def ending (body : Program) : Grammar Program := do
  match ← current with
  | none => return body
  | some _ => unexpected

theorem wholeProgram_run (command : Grammar Node) (stream : Lexemes) :
    wholeProgram command stream = (statements command [] stream.items [] >>= ending) stream := rfl

theorem ending_run (body : Program) (stream : Lexemes) :
    ending body stream =
      if stream.items = [] then .ok (body, stream) else unexpected stream := by
  obtain ⟨items, finish⟩ := stream
  cases items <;> rfl

theorem unexpected_ne_ok {α : Type} {stream rest : Lexemes} {a : α} :
    (unexpected : Grammar α) stream ≠ .ok (a, rest) := by
  unfold unexpected
  split <;> simp

theorem ending_append (first body : Program) (stream : Lexemes) :
    ending (first ++ body) stream = (ending body stream).map (fun r => (first ++ r.1, r.2)) := by
  rw [ending_run, ending_run]
  split
  · rfl
  · obtain ⟨items, finish⟩ := stream
    cases items <;> rfl

/-- Where nothing more follows both results are the same up to places. -/
theorem Answers.alike {α : Type} {Q : α → List Lexeme → Prop}
    {x y : Except Failure (α × Lexemes)} (h : Answers [] s Q x y) :
    Alike Eq (Failure.errorOf (x.map Prod.fst)) (Failure.errorOf (y.map Prod.fst)) := by
  cases h with
  | ended hmore => exact absurd rfl hmore
  | ok => exact .ok rfl
  | starved hmore => exact absurd rfl hmore
  | error _ hcause => exact .error hcause

/-- The program of lexemes that come after those of a program. -/
theorem wholeProgram_append (hcommand : ∀ more, Steady more command (fun _ => Solid))
    (hst : Lexemes.Prolonged more s t) (hclosed : Closed s.items) {first : Program}
    (h : wholeProgram command s = .ok (first, s')) {r : Lexemes}
    (hr : more.map Lexeme.symbol = r.items.map Lexeme.symbol) :
    Alike (fun program whole => whole = first ++ program)
      (Failure.errorOf ((wholeProgram command r).map Prod.fst))
      (Failure.errorOf ((wholeProgram command t).map Prod.fst)) := by
  have hfirst : ∃ middle, statements command [] s.items [] s = .ok (first, middle) := by
    rw [wholeProgram_run] at h
    obtain ⟨nodes, middle, hnodes, hend⟩ := bind_eq_ok h
    rw [ending_run] at hend
    split at hend
    · cases hend
      exact ⟨_, hnodes⟩
    · exact absurd hend unexpected_ne_ok
  obtain ⟨middle, hfirst⟩ := hfirst
  obtain ⟨bound, finish, hbound, hsame⟩ := statements_append (hcommand more) hst hclosed
    (Nat.le_refl _) (Nat.le_refl t.items.length) hfirst
  have hanswers : Answers [] r (fun _ _ => True)
      ((statements command [] r.items [] >>= ending) r)
      ((statements command [] bound [] >>= ending) ⟨more, finish⟩) := by
    have hlength := congrArg List.length hr
    rw [List.length_map, List.length_map] at hlength
    refine (follows_statements (hcommand []) [] r.items.length (Nat.le_refl _) (by omega) []).bind
      (N := fun _ _ => True) (S := fun _ _ _ => True) (fun body => ?_) (fun _ _ _ _ _ _ => trivial)
      (fun _ _ _ _ _ _ => trivial) r _ ⟨more, (List.append_nil _).symm, hr⟩
      (fun hne => absurd rfl hne) (Nat.le_refl _)
    exact steady_current (.pure trivial) (fun x y _ => steady_unexpected.follows)
  have hwhole : wholeProgram command t =
      ((statements command [] bound [] >>= ending) ⟨more, finish⟩).map
        (fun x => (first ++ x.1, x.2)) := by
    rw [wholeProgram_run]
    have hfound : statements command [] bound ([] ++ first.reverse) ⟨more, finish⟩ = _ :=
      statements_found first.reverse []
    rw [List.nil_append, List.reverse_reverse] at hfound
    rw [hfound] at hsame
    cases hrest : statements command [] bound [] ⟨more, finish⟩ with
    | error e =>
        rw [hrest] at hsame
        rw [bind_error hrest, bind_error hsame]
        rfl
    | ok result =>
        rw [hrest] at hsame
        rw [bind_ok hrest, bind_ok hsame, ending_append]
  have hmap : Failure.errorOf ((wholeProgram command t).map Prod.fst) =
      (Failure.errorOf (((statements command [] bound [] >>= ending) ⟨more, finish⟩).map
        Prod.fst)).map (fun program => first ++ program) := by
    rw [hwhole]
    cases (statements command [] bound [] >>= ending) ⟨more, finish⟩ <;> rfl
  rw [hmap, wholeProgram_run]
  exact hanswers.alike.map (fun _ => rfl)

end Grammar

open Grammar

theorem programOf_run {command : Grammar Node} {text : List Char} {stream : Lexemes}
    (hsize : byteSize text ≤ maxInputSize) (hstream : Lexemes.ofText text = .ok stream) :
    programOf command text = (wholeProgram command stream).map Prod.fst := by
  rw [programOf, sized_eq_ok.mpr hsize, hstream]
  simp only [Grammar.run]
  cases wholeProgram command stream <;> rfl

theorem programOf_error {command : Grammar Node} {text : List Char} {e : ParseError}
    (hsize : byteSize text ≤ maxInputSize) (hstream : Lexemes.ofText text = .error e) :
    programOf command text = .error ⟨e, false⟩ := by
  rw [programOf, sized_eq_ok.mpr hsize, hstream]
  rfl

theorem parse_tooLarge {text : String} (h : maxInputSize < byteSize text.toList) :
    ∃ e, parse text = .error e := by
  cases hparse : parse text with
  | error e => exact ⟨e, rfl⟩
  | ok program =>
      rw [parse_eq_ok, programOf_eq_ok] at hparse
      omega

/-- What is parsed after the whole lines of a program adds its statements to it, or fails as it
does by itself. -/
theorem alike_append {first second : String} {program : Program}
    (hparse : parse first = .ok program) (hlines : WholeLines first.toList)
    (hsize : byteSize first.toList + byteSize second.toList ≤ maxInputSize) :
    Alike (fun rest whole => whole = program ++ rest) (parse second) (parse (first ++ second)) := by
  rw [parse_eq_ok, programOf_eq_ok] at hparse
  obtain ⟨_, stream, rest, hstream, hprogram⟩ := hparse
  have hwhole : byteSize (first.toList ++ second.toList) ≤ maxInputSize := by
    rwa [byteSize_append]
  have hsecond : byteSize second.toList ≤ maxInputSize := by omega
  have halike := Lexemes.ofText_append hstream hlines second.toList
  rw [parse_eq, parse_eq, String.toList_append]
  cases hlexemes : Lexemes.ofText second.toList with
  | error e =>
      obtain ⟨f, hf, hcause⟩ := halike.of_error hlexemes
      rw [programOf_error hsecond hlexemes, programOf_error hwhole hf]
      exact .error hcause
  | ok r =>
      obtain ⟨t, ht, items, hitems, hsymbols⟩ := halike.of_ok hlexemes
      rw [programOf_run hsecond hlexemes, programOf_run hwhole ht]
      exact wholeProgram_append (fun _ => steady_command maxNesting)
        ⟨stream.items, hitems, rfl⟩ (Lexemes.ofText_closed hstream hlines) hprogram hsymbols

/-- Whole lines that are refused, and not because more is needed, are refused for good. -/
theorem error_append {text : String} {e : ParseError} (hparse : parse text = .error e)
    (hfinal : e.incomplete = false) (hlines : WholeLines text.toList) (more : String) :
    ∃ f, parse (text ++ more) = .error f := by
  by_cases hsize : maxInputSize < byteSize (text ++ more).toList
  · exact parse_tooLarge hsize
  have hwhole : byteSize (text.toList ++ more.toList) ≤ maxInputSize := by
    rw [← String.toList_append]
    omega
  have htext : byteSize text.toList ≤ maxInputSize := by
    rw [byteSize_append] at hwhole
    omega
  rw [parse_eq] at hparse ⊢
  rw [String.toList_append]
  cases hstream : Lexemes.ofText text.toList with
  | error f =>
      rw [programOf_error htext hstream] at hparse
      cases hparse
      rw [Lexemes.read_error hstream] at hfinal
      cases hfinal
  | ok stream =>
      have halike := Lexemes.ofText_append hstream hlines more.toList
      cases hmore : Lexemes.ofText more.toList with
      | error f =>
          obtain ⟨f', hf', _⟩ := halike.of_error hmore
          exact ⟨f', by rw [programOf_error hwhole hf']; rfl⟩
      | ok r =>
          obtain ⟨t, ht, items, hitems, _⟩ := halike.of_ok hmore
          rw [programOf_run htext hstream] at hparse
          rw [programOf_run hwhole ht]
          have hprolonged : Lexemes.Prolonged items stream t := ⟨stream.items, hitems, rfl⟩
          have hanswers := steady_program maxNesting stream t hprolonged
            (fun _ => Lexemes.ofText_closed hstream hlines) trivial
          generalize wholeProgram (Level.atRoom maxNesting).command stream = x at hanswers hparse
          generalize wholeProgram (Level.atRoom maxNesting).command t = y at hanswers
          cases hanswers with
          | ended => cases hparse
          | ok => cases hparse
          | starved _ he =>
              cases hparse
              rw [he] at hfinal
              cases hfinal
          | @error _ f => exact ⟨f.error, rfl⟩

namespace Attempt

/-- What is wrong with input that is refused. -/
def refusal? : Attempt → Option ParseError
  | .error e => some e
  | _ => none

theorem refusal?_eq_some {attempt : Attempt} {e : ParseError} :
    attempt.refusal? = some e ↔ attempt = .error e := by
  cases attempt <;> simp [refusal?]

theorem ofText_eq_error {text : String} {e : ParseError} :
    ofText text = .error e ↔ parse text = .error e ∧ e.incomplete = false := by
  unfold ofText
  cases parse text with
  | ok program => simp [ofResult]
  | error f =>
      rw [ofResult, Except.error.injEq]
      split
      · rename_i hf
        simp only [reduceCtorEq, false_iff, not_and, Bool.not_eq_false]
        rintro rfl
        exact hf
      · rename_i hf
        rw [Attempt.error.injEq]
        refine ⟨?_, And.left⟩
        rintro rfl
        exact ⟨rfl, by simpa using hf⟩

/-- Interactive input that is refused is never completed by more input. -/
theorem error_final {text : String} {e : ParseError} (hlines : WholeLines text.toList)
    (h : Attempt.ofText text = .error e) (more : String) (program : Program) :
    Attempt.ofText (text ++ more) ≠ .complete program := by
  obtain ⟨hparse, hfinal⟩ := ofText_eq_error.mp h
  obtain ⟨f, hf⟩ := error_append hparse hfinal hlines more
  rw [ofText, hf, ofResult]
  split <;> simp

/-- A reserved word that only closes stands where a command should. -/
theorem done_refused :
    ∃ e, ofText "a |\ndone\n" = .error e ∧
      ∀ more program, ofText ("a |\ndone\n" ++ more) ≠ .complete program := by
  have h : ofText "a |\ndone\n" = .error ⟨.unexpectedToken "done", ⟨2, 1⟩⟩ :=
    refusal?_eq_some.mp (by decide +kernel)
  exact ⟨_, h, error_final (by decide +kernel) h⟩

end Attempt

/-- Parsing goes on after whole lines as if it started there: it succeeds exactly when what
follows is a program, with the statements of both, and otherwise fails in the same way. -/
theorem parse_append {first second : String} {program : Program}
    (hparse : parse first = .ok program) (hlines : WholeLines first.toList)
    (hsize : byteSize first.toList + byteSize second.toList ≤ maxInputSize) :
    (∀ whole, parse (first ++ second) = .ok whole ↔
        ∃ rest, parse second = .ok rest ∧ whole = program ++ rest) ∧
      ∀ e, parse second = .error e → ∃ f, parse (first ++ second) = .error f ∧
        f.message = e.message ∧ f.incomplete = e.incomplete := by
  have halike := alike_append hparse hlines hsize
  cases hsecond : parse second with
  | ok rest =>
      obtain ⟨whole, hwhole, rfl⟩ := halike.of_ok hsecond
      rw [hwhole]
      exact ⟨fun _ => by simp [eq_comm], fun _ he => by cases he⟩
  | error e =>
      obtain ⟨f, hf, hcause⟩ := halike.of_error hsecond
      rw [hf]
      refine ⟨fun _ => by simp, fun e' he => ?_⟩
      cases he
      refine ⟨f, rfl, ?_, ?_⟩
      · rw [ParseError.message, ParseError.message, hcause]
      · rw [ParseError.incomplete, ParseError.incomplete, hcause]

/-- A loop over several lines, and a comment that nothing closes. -/
theorem loop_continued :
    ∃ program, parse "while a\ndo b; done\n" = .ok program ∧
      ∀ whole, parse ("while a\ndo b; done\n" ++ "c # d") = .ok whole ↔
        ∃ rest, parse "c # d" = .ok rest ∧ whole = program ++ rest := by
  obtain ⟨program, hparse, _⟩ := exists_parse "while a\ndo b; done\n" (fun _ => true)
    (by decide +kernel)
  exact ⟨program, hparse, (parse_append hparse (by decide +kernel) (by decide +kernel)).1⟩

end Conch.Syntax
