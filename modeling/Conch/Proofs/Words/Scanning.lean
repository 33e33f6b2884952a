import Conch.Syntax.Delimited
import Conch.Syntax.Substitution
import Mathlib.Logic.Relation

/-!
# What a scan depends on

A scan for a closing delimiter depends only on the text up to it.  So a body that was
found is found again whatever follows the delimiter.  Letters that are no delimiters and
texts in single quotes are passed over.

For the body of a command substitution this also says at which offsets of a text it can
end (`Substitution.closeFrom_stable`).  The scan does not get stuck on the way, although
what it counts goes down without a test: a machine with integers for its counters takes
the same steps and never has one below zero.
-/

namespace Conch.Syntax

namespace Delimited

variable {opening closing : Char} {quoting : Quoting} {depth : Nat}
  {seen text body rest : List Char}

theorem scan_prefix (h : scan opening closing quoting depth seen text = .ok (body, rest)) :
    ∃ consumed, text = consumed ++ closing :: rest ∧ body = seen.reverse ++ consumed ∧
      ∀ rest', scan opening closing quoting depth seen (consumed ++ closing :: rest') =
        .ok (body, rest') := by
  fun_induction scan opening closing quoting depth seen text with
  | case1 => cases h
  | case2 quoting depth seen c rest' quoting' depth' hs ih =>
      obtain ⟨consumed, rfl, rfl, hagain⟩ := ih h
      refine ⟨c :: consumed, rfl, by simp, fun rest' => ?_⟩
      rw [List.cons_append, scan.eq_def]
      simp only [hs]
      exact hagain rest'
  | case3 => cases h
  | case4 quoting depth seen c hs d rest' ih =>
      obtain ⟨consumed, rfl, rfl, hagain⟩ := ih h
      refine ⟨c :: d :: consumed, rfl, by simp, fun rest' => ?_⟩
      rw [List.cons_append, List.cons_append, scan.eq_def]
      simp only [hs]
      exact hagain rest'
  | case5 quoting depth seen c rest' hs =>
      cases h
      have hc := step_close hs
      subst hc
      refine ⟨[], rfl, by simp, fun rest' => ?_⟩
      rw [List.nil_append, scan.eq_def]
      simp only [hs]

/-- A body that was found is found again before any other rest. -/
theorem split_again (h : split opening closing text = .ok (body, rest)) (rest' : List Char) :
    split opening closing (body ++ closing :: rest') = .ok (body, rest') := by
  obtain ⟨consumed, _, rfl, hagain⟩ := scan_prefix h
  exact hagain rest'

theorem scan_letters {letters : List Char}
    (h : ∀ c ∈ letters, step opening closing quoting depth c = .one quoting depth)
    (seen rest : List Char) :
    scan opening closing quoting depth seen (letters ++ rest) =
      scan opening closing quoting depth (letters.reverse ++ seen) rest := by
  induction letters generalizing seen with
  | nil => rfl
  | cons c letters ih =>
      obtain ⟨hc, hletters⟩ := List.forall_mem_cons.mp h
      rw [List.cons_append, scan.eq_def]
      simp only [hc]
      rw [ih hletters]
      simp

/-- A text in single quotes holds no delimiters. -/
theorem scan_single {inner : List Char} (h : ∀ c ∈ inner, c ≠ '\'') (seen rest : List Char) :
    scan opening closing .none depth seen ('\'' :: (inner ++ '\'' :: rest)) =
      scan opening closing .none depth ('\'' :: (inner.reverse ++ '\'' :: seen)) rest := by
  have hinner : ∀ c ∈ inner, step opening closing .single depth c = .one .single depth := by
    intro c hc
    rw [step, if_neg (h c hc)]
  have hopen : step opening closing .none depth '\'' = .one .single depth := by simp [step]
  have hclose : step opening closing .single depth '\'' = .one .none depth := by simp [step]
  rw [scan.eq_def]
  simp only [hopen]
  rw [scan_letters hinner, scan.eq_def]
  simp only [hclose]

end Delimited

namespace Substitution

/-- The parenthesis that ends a body ends it whatever follows. -/
theorem step_close_next {stack : List Frame} {c : Char} {next : Option Char}
    (h : step stack c next = .close) (next' : Option Char) : step stack c next' = .close := by
  have hc := step_close h
  subst hc
  match stack with
  | [] => exact h
  | .quote :: below => exact h
  | .string :: below => exact h
  | .braces depth :: below => exact h
  | .body body :: below => exact h

variable {stack : List Frame} {seen text body rest : List Char}

theorem scan_prefix (h : scan stack seen text = some (body, rest)) :
    ∃ consumed, text = consumed ++ ')' :: rest ∧ body = seen.reverse ++ consumed ∧
      ∀ rest', scan stack seen (consumed ++ ')' :: rest') = some (body, rest') := by
  fun_induction scan stack seen text with
  | case1 => cases h
  | case2 stack seen c rest' stack' hs ih =>
      obtain ⟨consumed, rfl, rfl, hagain⟩ := ih h
      refine ⟨c :: consumed, rfl, by simp, fun rest' => ?_⟩
      have hnext : (consumed ++ ')' :: rest').head? = (consumed ++ ')' :: rest).head? := by
        cases consumed <;> rfl
      rw [List.cons_append, scan, hnext, hs]
      exact hagain rest'
  | case3 => cases h
  | case4 stack seen c stack' d rest' hs ih =>
      obtain ⟨consumed, rfl, rfl, hagain⟩ := ih h
      refine ⟨c :: d :: consumed, rfl, by simp, fun rest' => ?_⟩
      have hnext : (d :: (consumed ++ ')' :: rest')).head? = some d := rfl
      rw [List.cons_append, List.cons_append, scan, hnext]
      rw [List.head?_cons] at hs
      rw [hs]
      exact hagain rest'
  | case5 stack seen c rest' hs =>
      cases h
      have hc := step_close hs
      subst hc
      refine ⟨[], rfl, by simp, fun rest' => ?_⟩
      rw [List.nil_append, scan, step_close_next hs]

/-- A body that was found is found again before any other rest. -/
theorem split_again (h : split text = some (body, rest)) (rest' : List Char) :
    split (body ++ ')' :: rest') = some (body, rest') := by
  obtain ⟨consumed, _, rfl, hagain⟩ := scan_prefix h
  exact hagain rest'

end Substitution

/-! ## Where a body ends in a text -/

namespace Substitution

/-- The offset of the parenthesis that ends the body which starts at an offset of the text. -/
def closeFrom (text : List Char) (start : Nat) : Option Nat :=
  (split (text.drop start)).map fun found => start + found.1.length

theorem closeFrom_eq_some {text : List Char} {start i : Nat} :
    closeFrom text start = some i ↔ ∃ body rest, split (text.drop start) = some (body, rest) ∧
      start + body.length = i := by
  simp [closeFrom]

/-- The text around a body that ends. -/
theorem closeFrom_text {text : List Char} {start i : Nat} (h : closeFrom text start = some i) :
    ∃ before body rest, text = before ++ (body ++ ')' :: rest) ∧ before.length = start ∧
      start + body.length = i ∧
        ∀ rest', closeFrom (before ++ (body ++ ')' :: rest')) start = some i := by
  obtain ⟨body, rest, hsplit, hend⟩ := closeFrom_eq_some.mp h
  have hdrop := split_eq_some hsplit
  have hstart : (text.take start).length = start := by
    rw [List.length_take]
    have hlength := congrArg List.length hdrop
    rw [List.length_drop, List.length_append, List.length_cons] at hlength
    omega
  refine ⟨text.take start, body, rest, ?_, hstart, hend, fun rest' => ?_⟩
  · rw [← hdrop, List.take_append_drop]
  · rw [closeFrom, List.drop_left' hstart, split_again hsplit, Option.map_some, hend]

theorem closeFrom_paren {text : List Char} {start i : Nat} (h : closeFrom text start = some i) :
    text[i]? = some ')' := by
  obtain ⟨before, body, rest, rfl, rfl, rfl, _⟩ := closeFrom_text h
  simp

/-- What stands behind the parenthesis does not matter. -/
theorem closeFrom_congr {text other : List Char} {start i : Nat}
    (h : closeFrom text start = some i) (hother : other.take (i + 1) = text.take (i + 1)) :
    closeFrom other start = some i := by
  obtain ⟨before, body, rest, rfl, rfl, rfl, hagain⟩ := closeFrom_text h
  have hfront : other.take (before.length + body.length + 1) = before ++ (body ++ [')']) := by
    have htext : before ++ (body ++ ')' :: rest) = before ++ (body ++ [')']) ++ rest := by simp
    rw [hother, htext, List.take_left' (by simp [Nat.add_assoc])]
  have hsame : other = before ++ (body ++ ')' :: other.drop (before.length + body.length + 1)) := by
    have := List.take_append_drop (before.length + body.length + 1) other
    rw [hfront] at this
    simpa using this.symm
  rw [hsame]
  exact hagain _

/-- A text that stops before the parenthesis leaves the body open. -/
theorem closeFrom_take {text : List Char} {start i n : Nat} (h : closeFrom text start = some i)
    (hn : n ≤ i) : closeFrom (text.take n) start = none := by
  cases hfound : closeFrom (text.take n) start with
  | none => rfl
  | some j =>
      have hlt : j < n := by
        obtain ⟨hlength, _⟩ := List.getElem?_eq_some_iff.mp (closeFrom_paren hfound)
        rw [List.length_take] at hlength
        omega
      have hfull : closeFrom text start = some j :=
        closeFrom_congr hfound (by rw [List.take_take, Nat.min_eq_left hlt])
      rw [h] at hfull
      cases hfull
      exact absurd hn (Nat.not_le.mpr hlt)

/-! ## The scan with counters that may fall below zero

The scan stops at the end of the text, and what it counts are natural numbers that it matches on
before it takes one away.  The machine here runs by offsets, may step over the end of the text,
and takes one from integers without a look at what is left; the rest of its state is that of the
scan.
-/

namespace Signed

structure Cases where
  depth : Int
  awaitingIn : Bool
  inPattern : Bool
  commandStart : Bool

def Cases.word (cases : Cases) (word : Option String) : Cases :=
  let token := word.bind Token.reserved?
  let noted :=
    match token with
    | some .caseWord =>
        if cases.commandStart && !cases.inPattern then
          { cases with depth := cases.depth + 1, awaitingIn := true }
        else cases
    | some .inWord =>
        if cases.awaitingIn then { cases with awaitingIn := false, inPattern := true } else cases
    | some .esacWord =>
        if 0 < cases.depth && (cases.commandStart || cases.inPattern) then
          { cases with depth := cases.depth - 1, inPattern := false }
        else cases
    | _ => cases
  { noted with commandStart := opensCommand token }

structure Body where
  /-- Closing parentheses still needed. -/
  depth : Int
  cases : Cases
  word : List Char
  plain : Bool
  comment : Bool

def Body.start : Body := ⟨1, ⟨0, false, false, true⟩, [], true, false⟩

def Body.endWord (body : Body) : Body :=
  if body.word.isEmpty && body.plain then body
  else
    { body with
      cases := body.cases.word
        (if body.plain then some (String.ofList body.word.reverse) else none)
      word := []
      plain := true }

inductive Frame where
  | body (state : Body)
  | quote
  | string
  /-- Closing braces still needed. -/
  | braces (depth : Int)

inductive Step where
  | one (stack : List Frame)
  | two (stack : List Frame)
  | close

def Body.boundary (body : Body) (below : List Frame) (c : Char) (next : Option Char) : Step :=
  let ended := { body with comment := false }.endWord
  let cases := ended.cases
  match c with
  | '(' =>
      .one (.body { ended with
        depth := if cases.inPattern then ended.depth else ended.depth + 1
        cases := { cases with commandStart := true } } :: below)
  | ')' =>
      if cases.inPattern then
        .one (.body { ended with
          cases := { cases with inPattern := false, commandStart := true } } :: below)
      else
        let depth := ended.depth - 1
        if depth = 0 then (if below.isEmpty then .close else .one below)
        else .one (.body { ended with depth := depth } :: below)
  | ';' =>
      if next = some ';' then
        .two (.body { ended with
          cases := { cases with
            inPattern := cases.inPattern || 0 < cases.depth
            commandStart := true } } :: below)
      else .one (.body { ended with cases := { cases with commandStart := true } } :: below)
  | '\n' | '&' | '|' =>
      .one (.body { ended with cases := { cases with commandStart := true } } :: below)
  | _ => .one (.body ended :: below)

def Body.inner (body : Body) (below : List Frame) (c : Char) (next : Option Char) : Step :=
  let marked := Frame.body { body with plain := false }
  match c with
  | '\\' => .two (marked :: below)
  | '\'' => .one (.quote :: marked :: below)
  | '"' => .one (.string :: marked :: below)
  | '$' =>
      match next with
      | some '(' => .two (.body .start :: marked :: below)
      | some '\x7b' => .two (.braces 1 :: marked :: below)
      | _ => .one (marked :: below)
  | '#' =>
      if body.word.isEmpty && body.plain then .one (.body { body with comment := true } :: below)
      else .one (.body { body with word := c :: body.word } :: below)
  | _ => .one (.body { body with word := c :: body.word } :: below)

def step : List Frame → Char → Option Char → Step
  | [], _, _ => .one []
  | .quote :: below, c, _ => .one (if c = '\'' then below else .quote :: below)
  | .string :: below, c, next =>
      match c with
      | '\\' => .two (.string :: below)
      | '"' => .one below
      | '$' =>
          if next = some '(' then .two (.body .start :: .string :: below)
          else .one (.string :: below)
      | _ => .one (.string :: below)
  | .braces depth :: below, c, _ =>
      match c with
      | '\\' => .two (.braces depth :: below)
      | '\x7b' => .one (.braces (depth + 1) :: below)
      | '\x7d' =>
          let depth := depth - 1
          .one (if depth = 0 then below else .braces depth :: below)
      | _ => .one (.braces depth :: below)
  | .body body :: below, c, next =>
      if body.comment && c ≠ '\n' then .one (.body body :: below)
      else if isWordBoundary c then body.boundary below c next
      else body.inner below c next

/-- The constructs that are open at an offset of a text. -/
structure State where
  stack : List Frame
  offset : Nat

def State.start (offset : Nat) : State := ⟨[.body .start], offset⟩

inductive Outcome where
  | goes (state : State)
  | ends (found : Option Nat)

def State.next (text : List Char) (state : State) : Outcome :=
  match text[state.offset]? with
  | none => .ends none
  | some c =>
      match step state.stack c text[state.offset + 1]? with
      | .one stack => .goes ⟨stack, state.offset + 1⟩
      | .two stack => .goes ⟨stack, state.offset + 2⟩
      | .close => .ends (some state.offset)

/-- The machine comes to an end, with what it has found. -/
inductive Halts (text : List Char) : State → Option Nat → Prop
  | ends {state : State} {found : Option Nat} (h : state.next text = .ends found) :
      Halts text state found
  | goes {state after : State} {found : Option Nat} (h : state.next text = .goes after)
      (hafter : Halts text after found) : Halts text state found

/-- The machine comes from one state to another. -/
def Reaches (text : List Char) : State → State → Prop :=
  Relation.ReflTransGen fun state after => state.next text = .goes after

/-- What a construct still needs to be closed is more than zero, and its open cases are not less. -/
def Frame.Positive : Frame → Prop
  | .body state => 0 < state.depth ∧ 0 ≤ state.cases.depth
  | .braces depth => 0 < depth
  | _ => True

end Signed

/-! ### The machine takes the steps of the scan -/

def Cases.signed (cases : Cases) : Signed.Cases :=
  ⟨cases.depth, cases.awaitingIn, cases.inPattern, cases.commandStart⟩

def Body.signed (body : Body) : Signed.Body :=
  ⟨body.unmatched + 1, body.cases.signed, body.word, body.plain, body.comment⟩

def Frame.signed : Frame → Signed.Frame
  | body state => .body state.signed
  | quote => .quote
  | string => .string
  | braces depth => .braces (depth + 1)

def Step.signed : Step → Signed.Step
  | one stack => .one (stack.map Frame.signed)
  | two stack => .two (stack.map Frame.signed)
  | close => .close

theorem Cases.word_signed (cases : Cases) (word : Option String) :
    cases.signed.word word = (cases.word word).signed := by
  unfold Signed.Cases.word Cases.word Cases.signed
  grind

theorem Body.endWord_signed (body : Body) : body.signed.endWord = body.endWord.signed := by
  unfold Signed.Body.endWord Body.endWord Body.signed
  grind [Cases.word_signed]

theorem Body.boundary_signed (body : Body) (below : List Frame) (c : Char) (next : Option Char) :
    body.signed.boundary (below.map Frame.signed) c next =
      (body.boundary below c next).signed := by
  have hended : { body.signed with comment := false : Signed.Body }.endWord =
      ({ body with comment := false } : Body).endWord.signed :=
    Body.endWord_signed { body with comment := false }
  unfold Signed.Body.boundary Body.boundary
  simp only [hended]
  generalize ({ body with comment := false } : Body).endWord = ended
  have hpattern : ended.signed.cases.inPattern = ended.cases.inPattern := rfl
  split
  · simp only [hpattern]
    cases ended.cases.inPattern <;> rfl
  · simp only [hpattern]
    have hdepth : ended.signed.depth - 1 = ended.unmatched := Int.add_sub_cancel _ 1
    rw [hdepth]
    cases ended.cases.inPattern with
    | true => rfl
    | false =>
        cases hunmatched : ended.unmatched with
        | zero => cases below <;> rfl
        | succ n => rfl
  · have hopen : decide (0 < ended.signed.cases.depth) = decide (0 < ended.cases.depth) :=
      decide_eq_decide.mpr Int.natCast_pos
    simp only [hpattern, hopen]
    split <;> rfl
  · rfl
  · rfl
  · rfl
  · grind [Step.signed, Frame.signed]

theorem Body.inner_dollar (body : Body) (below : List Frame) (next : Option Char) :
    body.inner below '$' next =
      match next with
      | some '(' => .two (.body .start :: .body { body with plain := false } :: below)
      | some '\x7b' => .two (.braces 0 :: .body { body with plain := false } :: below)
      | _ => .one (.body { body with plain := false } :: below) := rfl

theorem Body.inner_hash (body : Body) (below : List Frame) (next : Option Char) :
    body.inner below '#' next =
      if body.word.isEmpty && body.plain then .one (.body { body with comment := true } :: below)
      else .one (.body { body with word := '#' :: body.word } :: below) := rfl

theorem Body.inner_signed (body : Body) (below : List Frame) (c : Char) (next : Option Char) :
    body.signed.inner (below.map Frame.signed) c next = (body.inner below c next).signed := by
  unfold Signed.Body.inner
  split
  · rfl
  · rfl
  · rfl
  · rw [Body.inner_dollar]
    split <;> rfl
  · rw [Body.inner_hash, apply_ite Step.signed]
    rfl
  · unfold Body.inner
    grind [Step.signed, Frame.signed, Body.signed]

theorem step_signed (stack : List Frame) (c : Char) (next : Option Char) :
    Signed.step (stack.map Frame.signed) c next = (step stack c next).signed := by
  match stack with
  | [] => rfl
  | .quote :: below =>
      simp only [List.map_cons, Frame.signed, Signed.step, step]
      split <;> rfl
  | .string :: below =>
      simp only [List.map_cons, Frame.signed, Signed.step, step]
      split
      · rfl
      · rfl
      · split <;> rfl
      · grind [Step.signed, Frame.signed]
  | .braces depth :: below =>
      simp only [List.map_cons, Frame.signed, Signed.step, step]
      split
      · rfl
      · rfl
      · rw [Int.add_sub_cancel]
        cases depth <;> rfl
      · grind [Step.signed, Frame.signed]
  | .body body :: below =>
      have hcomment : body.signed.comment = body.comment := rfl
      simp only [List.map_cons, Frame.signed, Signed.step, step, Body.boundary_signed,
        Body.inner_signed, hcomment, apply_ite Step.signed]
      rfl

theorem Frame.signed_positive (frame : Frame) : frame.signed.Positive := by
  cases frame with
  | body state => exact ⟨Int.natCast_succ_pos _, Int.natCast_nonneg _⟩
  | braces depth => exact Int.natCast_succ_pos _
  | _ => trivial

theorem getElem?_of_drop {text rest : List Char} {offset : Nat} (h : text.drop offset = rest) :
    text[offset]? = rest.head? := by
  rw [← h, List.head?_drop]

theorem drop_succ_of_drop {text rest : List Char} {offset : Nat} {c : Char}
    (h : text.drop offset = c :: rest) : text.drop (offset + 1) = rest := by
  rw [← List.drop_drop, h, List.drop_one, List.tail_cons]

theorem State.next_signed {text rest : List Char} {offset : Nat} {c : Char} (stack : List Frame)
    (h : text.drop offset = c :: rest) :
    (Signed.State.mk (stack.map Frame.signed) offset).next text =
      match step stack c rest.head? with
      | .one stack => .goes ⟨stack.map Frame.signed, offset + 1⟩
      | .two stack => .goes ⟨stack.map Frame.signed, offset + 2⟩
      | .close => .ends (some offset) := by
  unfold Signed.State.next
  simp only [getElem?_of_drop h, getElem?_of_drop (drop_succ_of_drop h), List.head?_cons,
    step_signed]
  cases step stack c rest.head? <;> rfl

/-- The machine comes to an end and finds what the scan finds. -/
theorem halts_scan {text rest seen : List Char} {start : Nat} (stack : List Frame)
    (h : text.drop (start + seen.length) = rest) :
    Signed.Halts text ⟨stack.map Frame.signed, start + seen.length⟩
      ((scan stack seen rest).map fun found => start + found.1.length) := by
  fun_induction scan stack seen rest with
  | case1 stack seen =>
      refine .ends ?_
      unfold Signed.State.next
      rw [getElem?_of_drop h]
      rfl
  | case2 stack seen c rest stack' hstep ih =>
      have hnext := State.next_signed stack h
      rw [hstep] at hnext
      exact .goes hnext (ih (drop_succ_of_drop h))
  | case3 stack seen c stack' hstep =>
      have hnext := State.next_signed stack h
      rw [hstep] at hnext
      refine .goes hnext (.ends ?_)
      have hend : text.drop (start + seen.length + 2) = [] := by
        rw [← List.drop_drop, h]
        rfl
      unfold Signed.State.next
      simp only [getElem?_of_drop hend]
      rfl
  | case4 stack seen c stack' d rest hstep ih =>
      have hnext := State.next_signed stack h
      rw [hstep] at hnext
      exact .goes hnext (ih (drop_succ_of_drop (drop_succ_of_drop h)))
  | case5 stack seen c rest hstep =>
      have hnext := State.next_signed stack h
      rw [hstep] at hnext
      rw [Option.map_some, List.length_reverse]
      exact .ends hnext

/-- Where the machine comes, something that the scan can have open is open. -/
theorem reaches_signed {text : List Char} {state final : Signed.State}
    (h : Signed.Reaches text state final)
    (hstate : ∃ stack : List Frame, state.stack = stack.map Frame.signed) :
    ∃ stack : List Frame, final.stack = stack.map Frame.signed := by
  induction h with
  | refl => exact hstate
  | @tail middle final _ hnext ih =>
      obtain ⟨stack, hstack⟩ := ih
      unfold Signed.State.next at hnext
      rw [hstack] at hnext
      split at hnext
      · cases hnext
      · rename_i c _
        rw [step_signed] at hnext
        cases hstep : step stack c text[middle.offset + 1]? with
        | one stack' | two stack' =>
            rw [hstep] at hnext
            cases hnext
            exact ⟨stack', rfl⟩
        | close =>
            rw [hstep] at hnext
            cases hnext

/--
The parenthesis that ends a body is found from the text up to it and from no less.  The search
comes to an end on every text, with every count on the way where it can be taken from.
-/
theorem closeFrom_stable (text : List Char) (start : Nat) :
    (∀ i, closeFrom text start = some i →
      text[i]? = some ')' ∧
        (∀ other, other.take (i + 1) = text.take (i + 1) → closeFrom other start = some i) ∧
          ∀ n ≤ i, closeFrom (text.take n) start = none) ∧
      Signed.Halts text (.start start) (closeFrom text start) ∧
        ∀ state, Signed.Reaches text (.start start) state →
          ∀ frame ∈ state.stack, frame.Positive := by
  refine ⟨fun i h => ?_, ?_, fun state hstate frame hframe => ?_⟩
  · exact ⟨closeFrom_paren h, fun other => closeFrom_congr h, fun n => closeFrom_take h⟩
  · exact halts_scan [.body .start] (rfl : text.drop (start + [].length) = text.drop start)
  obtain ⟨stack, hstack⟩ := reaches_signed hstate ⟨[.body .start], rfl⟩
  rw [hstack] at hframe
  obtain ⟨frame, _, rfl⟩ := List.mem_map.mp hframe
  exact frame.signed_positive

/-- The parenthesis of a pattern and a quoted one do not end the body. -/
theorem closeFrom_stable_choice :
    closeFrom "$(case x in x) echo \")\";; esac) z".toList 2 = some 30 ∧
      closeFrom ("$(case x in x) echo \")\";; esac) z".toList.take 30) 2 = none := by
  have hclose : closeFrom "$(case x in x) echo \")\";; esac) z".toList 2 = some 30 := by
    decide +kernel
  obtain ⟨_, _, htruncated⟩ := (closeFrom_stable _ 2).1 30 hclose
  exact ⟨hclose, htruncated 30 (Nat.le_refl 30)⟩

end Substitution

end Conch.Syntax
