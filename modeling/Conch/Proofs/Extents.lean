import Conch.Proofs.Lexing.Extents
import Conch.Proofs.Words.Rereading

/-!
# The extent of an expansion

The lexer reads over an expansion by its nested structure; the parser of words finds the end
again by counting delimiters, and knows less of what is nested.  The two go side by side as
long as the count stands at the depth of what the lexer has open, and at every stretch that
they read differently the count has to come back to where it was (`expansion_extent`); where
no further dollar sign stands it always does (`Cursor.Reads.followed`).
Otherwise the parser of words may end an expansion early (`extents_differ`).
-/

namespace Conch.Syntax

namespace Delimited

/-- Reading the piece leaves the quotes and the depth as they are. -/
def Passes (opening closing : Char) (quoting : Quoting) (piece : List Char) : Prop :=
  ∀ depth seen rest, scan opening closing quoting depth seen (piece ++ rest) =
    scan opening closing quoting depth (piece.reverse ++ seen) rest

/-- What an open construct is to a scan that only knows quotes and one kind of delimiter. -/
inductive Level where
  /-- Delimiters count, and so many more are open in this construct. -/
  | counted (depth : Nat)
  | single
  | double

/-- The quotes that a scan is in there. -/
def Level.quoting : Level → Quoting
  | counted _ => .none
  | single => .single
  | double => .double

section

variable {Layer : Type} (level : Layer → Option Level)

/-- How many delimiters are open in all, the outermost one included. -/
inductive Counts : List Layer → Nat → Prop
  | nil : Counts [] 0
  | cons {layer : Layer} {below : List Layer} {depth outer : Nat}
      (h : level layer = some (.counted depth)) (hbelow : Counts below outer) :
      Counts (layer :: below) (depth + outer + 1)

/-- The scan stands where the open constructs say. -/
inductive Aligned : List Layer → Quoting → Nat → Prop
  | plain {stack : List Layer} {depth : Nat} (h : Counts level stack (depth + 1)) :
      Aligned stack .none depth
  | single {layer : Layer} {below : List Layer} {depth : Nat} (h : level layer = some .single)
      (hbelow : Counts level below (depth + 1)) : Aligned (layer :: below) .single depth
  | double {layer : Layer} {below : List Layer} {depth : Nat} (h : level layer = some .double)
      (hbelow : Counts level below (depth + 1)) : Aligned (layer :: below) .double depth

variable {level} {layer other : Layer} {below : List Layer} {count depth : Nat}

theorem Counts.outside (h : Counts level (layer :: below) count)
    (hlayer : level layer = some (.counted depth)) :
    ∃ outer, Counts level below outer ∧ count = depth + outer + 1 := by
  cases h with
  | cons hcounted hbelow =>
      cases hlayer.symm.trans hcounted
      exact ⟨_, hbelow, rfl⟩

/-- A delimiter opens inside the innermost construct. -/
theorem Counts.deeper (h : Counts level (layer :: below) count)
    (hlayer : level layer = some (.counted depth))
    (hother : level other = some (.counted (depth + 1))) :
    Counts level (other :: below) (count + 1) := by
  obtain ⟨outer, hbelow, rfl⟩ := h.outside hlayer
  have hcount : depth + outer + 1 + 1 = depth + 1 + outer + 1 := by omega
  exact hcount ▸ .cons hother hbelow

/-- A delimiter closes inside the innermost construct. -/
theorem Counts.higher (h : Counts level (layer :: below) (count + 1))
    (hlayer : level layer = some (.counted (depth + 1)))
    (hother : level other = some (.counted depth)) :
    ∃ left, count = left + 1 ∧ Counts level (other :: below) (left + 1) := by
  obtain ⟨outer, hbelow, hcount⟩ := h.outside hlayer
  exact ⟨depth + outer, by omega, .cons hother hbelow⟩

/-- A construct opens inside, and with it a delimiter. -/
theorem Counts.nested (h : Counts level below count) (hlayer : level layer = some (.counted 0)) :
    Counts level (layer :: below) (count + 1) := by
  have hcount : 0 + count + 1 = count + 1 := by omega
  exact hcount ▸ .cons hlayer h

/-- The innermost construct closes. -/
theorem Counts.closed (h : Counts level (layer :: below) (count + 1))
    (hlayer : level layer = some (.counted 0)) : Counts level below count := by
  obtain ⟨outer, hbelow, hcount⟩ := h.outside hlayer
  have heq : count = outer := by omega
  exact heq ▸ hbelow

theorem Aligned.nonempty {stack : List Layer} {quoting : Quoting}
    (h : Aligned level stack quoting depth) : stack ≠ [] := by
  rintro rfl
  cases h with | plain hcounts => cases hcounts

theorem Aligned.quoting {quoting : Quoting} (h : Aligned level (layer :: below) quoting depth) :
    ∃ top, level layer = some top ∧ top.quoting = quoting := by
  cases h with
  | plain hcounts =>
      cases hcounts with
      | cons hcounted => exact ⟨_, hcounted, rfl⟩
  | single h => exact ⟨_, h, rfl⟩
  | double h => exact ⟨_, h, rfl⟩

/-- What the innermost construct is counted as is all that counts. -/
theorem Aligned.replace {quoting : Quoting} (h : Aligned level (layer :: below) quoting depth)
    (hlevel : level other = level layer) : Aligned level (other :: below) quoting depth := by
  cases h with
  | plain h =>
      generalize hcount : depth + 1 = count at h
      cases h with
      | cons hcounted hbelow => exact .plain (hcount ▸ .cons (hlevel.trans hcounted) hbelow)
  | single h hbelow => exact .single (hlevel.trans h) hbelow
  | double h hbelow => exact .double (hlevel.trans h) hbelow

end

theorem step_double_other {opening closing c : Char} (hquote : c ≠ '"') (hslash : c ≠ '\\')
    (depth : Nat) : step opening closing .double depth c = .one .double depth := by
  simp [step, hquote, hslash]

theorem step_none_other {opening closing c : Char} (hslash : c ≠ '\\') (hsingle : c ≠ '\'')
    (hdouble : c ≠ '"') (hopening : c ≠ opening) (hclosing : c ≠ closing) (depth : Nat) :
    step opening closing .none depth c = .one .none depth := by
  simp [step, hslash, hsingle, hdouble, hopening, hclosing]

end Delimited

namespace Cursor

open Delimited (Level Aligned Counts Passes Quoting)

def Bracket.level : Bracket → Option Level
  | single => some .single
  | double => some .double
  | braces depth => some (.counted depth)

/--
What is read inside `$\x7b` can be followed by counting braces.  Command substitutions, and
within double quotes all expansions, are not followed but have to be passed as a whole.
-/
inductive Followed : List Bracket → List Char → Prop
  | closed (rest : List Char) : Followed [] rest
  | one {stack next : List Bracket} {c : Char} {after : List Char}
      (h : step stack c after.head? = .one next) (hrest : Followed next after) :
      Followed stack (c :: after)
  | two {stack next : List Bracket} {c d : Char} {after : List Char}
      (h : step stack c (some d) = .two next) (hdollar : c = '$' → stack.head? ≠ some .double)
      (hrest : Followed next after) : Followed stack (c :: d :: after)
  | passed {top : Bracket} {below : List Bracket} {piece rest : List Char}
      (hreads : Reads (top :: below) (piece ++ rest) (top :: below) rest)
      (hpasses : ∀ level ∈ top.level, Passes '\x7b' '\x7d' level.quoting piece)
      (hrest : Followed (top :: below) rest) : Followed (top :: below) (piece ++ rest)

section

variable {stack next : List Bracket} {quoting : Quoting} {depth : Nat} {c d : Char}

theorem dollar_eq_one {below : List Bracket} {follower : Option Char}
    (h : dollar below follower = .one next) : next = below := by
  unfold dollar at h
  split at h <;> cases h
  rfl

/-- Outside quotes the lexer is in braces. -/
theorem braces_of_counts (h : Counts Bracket.level stack (depth + 1)) :
    ∃ held below, stack = .braces held :: below := by
  cases h with
  | @cons top below _ _ htop =>
      cases top with
      | braces held => exact ⟨held, below, rfl⟩
      | single => cases htop
      | double => cases htop

/-- A character that the lexer reads alone is counted alike. -/
theorem aligned_one {follower : Option Char} (haligned : Aligned Bracket.level stack quoting depth)
    (h : step stack c follower = .one next) :
    (next = [] ∧ depth = 0 ∧ Delimited.step '\x7b' '\x7d' quoting depth c = .close) ∨
    ∃ quoting' depth', Delimited.step '\x7b' '\x7d' quoting depth c = .one quoting' depth' ∧
      Aligned Bracket.level next quoting' depth' := by
  cases haligned with
  | @single top below _ htop hbelow =>
      cases top <;> cases htop
      cases h
      refine .inr ⟨_, _, rfl, ?_⟩
      split
      · exact .plain hbelow
      · exact .single rfl hbelow
  | @double top below _ htop hbelow =>
      cases top <;> cases htop
      rw [step_double] at h
      split at h
      · cases h
        exact .inr ⟨_, _, rfl, .plain hbelow⟩
      · cases h
      · obtain rfl := dollar_eq_one h
        exact .inr ⟨_, _, rfl, .double rfl hbelow⟩
      · rename_i hquote hslash _
        cases h
        exact .inr ⟨_, _, Delimited.step_double_other hquote hslash depth, .double rfl hbelow⟩
  | plain hcounts =>
      obtain ⟨held, below, rfl⟩ := braces_of_counts hcounts
      rw [step_braces] at h
      split at h
      · cases h
      · cases h
        exact .inr ⟨_, _, rfl, .single rfl hcounts⟩
      · cases h
        exact .inr ⟨_, _, rfl, .double rfl hcounts⟩
      · obtain rfl := dollar_eq_one h
        exact .inr ⟨_, _, rfl, .plain hcounts⟩
      · cases h
        exact .inr ⟨_, _, rfl, .plain (hcounts.deeper rfl rfl)⟩
      · cases h
        have hnext := hcounts.closed rfl
        cases depth with
        | zero =>
            cases hnext
            exact .inl ⟨rfl, rfl, rfl⟩
        | succ depth => exact .inr ⟨_, _, rfl, .plain hnext⟩
      · rename_i inner
        cases h
        have hinner : Bracket.level (.braces inner) = some (.counted inner) := rfl
        obtain ⟨left, rfl, hnext⟩ := hcounts.higher rfl hinner
        exact .inr ⟨_, _, rfl, .plain hnext⟩
      · rename_i hslash hsingle hdouble _ hbrace hzero hsucc
        cases h
        have hclose : c ≠ '\x7d' := by
          rintro rfl
          cases held with
          | zero => exact hzero rfl rfl
          | succ n => exact hsucc n rfl rfl
        exact .inr ⟨_, _, Delimited.step_none_other hslash hsingle hdouble hbrace hclose depth,
          .plain hcounts⟩

/-- Two characters that the lexer reads together are counted alike. -/
theorem aligned_two (haligned : Aligned Bracket.level stack quoting depth)
    (h : step stack c (some d) = .two next) (hdollar : c = '$' → stack.head? ≠ some .double) :
    (Delimited.step '\x7b' '\x7d' quoting depth c = .two ∧
      Aligned Bracket.level next quoting depth) ∨
    (Delimited.step '\x7b' '\x7d' quoting depth c = .one quoting depth ∧
      Delimited.step '\x7b' '\x7d' quoting depth d = .one quoting (depth + 1) ∧
      Aligned Bracket.level next quoting (depth + 1)) := by
  cases haligned with
  | @single top below _ htop hbelow =>
      cases top <;> cases htop
      cases h
  | @double top below _ htop hbelow =>
      cases top <;> cases htop
      rw [step_double] at h
      split at h
      · cases h
      · cases h
        exact .inl ⟨rfl, .double rfl hbelow⟩
      · exact absurd rfl (hdollar rfl)
      · cases h
  | plain hcounts =>
      obtain ⟨held, below, rfl⟩ := braces_of_counts hcounts
      rw [step_braces] at h
      split at h
      · cases h
        exact .inl ⟨rfl, .plain hcounts⟩
      · cases h
      · cases h
      · obtain ⟨hbrace, rfl⟩ := dollar_two h
        obtain rfl := Option.some.inj hbrace
        exact .inr ⟨rfl, rfl, .plain (hcounts.nested rfl)⟩
      · cases h
      · cases h
      · cases h
      · cases h

/-- Where the lexer can be followed the braces are counted up to the same place. -/
theorem Followed.scan {text rest : List Char} (h : Followed stack text)
    (haligned : Aligned Bracket.level stack quoting depth) (hreads : Reads stack text [] rest)
    (seen : List Char) :
    ∃ body, Delimited.scan '\x7b' '\x7d' quoting depth seen text = .ok (body, rest) := by
  induction h generalizing quoting depth seen with
  | closed => exact absurd rfl haligned.nonempty
  | @one stack next c after hstep _ ih =>
      have hlater : Reads next after [] rest :=
        (Reads.one haligned.nonempty hstep (.here next after)).resume hreads
      rw [Delimited.scan.eq_def]
      rcases aligned_one haligned hstep with ⟨rfl, rfl, hclose⟩ | ⟨quoting', depth', hcount, hnext⟩
      · obtain rfl := hlater.of_nil
        simp only [hclose]
        exact ⟨_, rfl⟩
      · simp only [hcount]
        exact ih hnext hlater (c :: seen)
  | @two stack next c d after hstep hdollar _ ih =>
      have hlater : Reads next after [] rest :=
        (Reads.two haligned.nonempty hstep (.here next after)).resume hreads
      rw [Delimited.scan.eq_def]
      rcases aligned_two haligned hstep hdollar with ⟨hcount, hnext⟩ | ⟨hfirst, hsecond, hnext⟩
      · simp only [hcount]
        exact ih hnext hlater (d :: c :: seen)
      · simp only [hfirst]
        rw [Delimited.scan.eq_def]
        simp only [hsecond]
        exact ih hnext hlater (d :: c :: seen)
  | @passed top below piece middle hpassed hpasses _ ih =>
      obtain ⟨level, htop, rfl⟩ := haligned.quoting
      rw [hpasses level htop]
      exact ih haligned (hpassed.resume hreads) (piece.reverse ++ seen)

end

end Cursor

namespace Substitution

open Delimited (Level Aligned Counts Passes Quoting)

/-- How the scan comes from one stack and text to another. -/
inductive Reads : List Frame → List Char → List Frame → List Char → Prop
  | here (stack : List Frame) (text : List Char) : Reads stack text stack text
  | one {stack next final : List Frame} {c : Char} {after rest : List Char}
      (h : step stack c after.head? = .one next) (hrest : Reads next after final rest) :
      Reads stack (c :: after) final rest
  | two {stack next final : List Frame} {c d : Char} {after rest : List Char}
      (h : step stack c (some d) = .two next) (hrest : Reads next after final rest) :
      Reads stack (c :: d :: after) final rest

theorem Reads.scan {stack next : List Frame} {text middle : List Char}
    (h : Reads stack text next middle) (seen : List Char) :
    ∃ seen', Substitution.scan stack seen text = Substitution.scan next seen' middle := by
  induction h generalizing seen with
  | here => exact ⟨seen, rfl⟩
  | @one _ _ _ c _ _ h _ ih =>
      obtain ⟨seen', hscan⟩ := ih (c :: seen)
      exact ⟨seen', by rw [Substitution.scan, h]; exact hscan⟩
  | @two _ _ _ c d _ _ h _ ih =>
      obtain ⟨seen', hscan⟩ := ih (d :: c :: seen)
      exact ⟨seen', by rw [Substitution.scan, List.head?_cons, h]; exact hscan⟩

def Frame.level : Frame → Option Level
  | body state => some (.counted state.unmatched)
  | quote => some .single
  | string => some .double
  | braces _ => none

/-- The character is not in a comment, is no parenthesis among patterns, and opens no expansion
that the scan for parentheses reads in a way of its own. -/
def Frame.isAlike : Frame → Char → Option Char → Bool
  | body state, c, follower =>
      (!state.comment || c == '\n') &&
        !(({ state with comment := false } : Body).endWord.cases.inPattern &&
          (c == '(' || c == ')')) &&
        !(c == '$' && follower == some '\x7b')
  | quote, _, _ => true
  | string, c, follower => !(c == '$' && follower == some '(')
  | braces _, _, _ => false

/--
What is read inside `$((` can be followed by counting parentheses.  Comments, parameter
expansions, the patterns of choices, and within double quotes substitutions are not
followed but have to be passed as a whole.
-/
inductive Followed : List Frame → List Char → Prop
  | close {stack : List Frame} {c : Char} {after : List Char}
      (h : step stack c after.head? = .close) : Followed stack (c :: after)
  | one {stack next : List Frame} {c : Char} {after : List Char}
      (h : step stack c after.head? = .one next)
      (halike : ∀ top ∈ stack.head?, top.isAlike c after.head? = true)
      (hrest : Followed next after) : Followed stack (c :: after)
  | two {stack next : List Frame} {c d : Char} {after : List Char}
      (h : step stack c (some d) = .two next)
      (halike : ∀ top ∈ stack.head?, top.isAlike c (some d) = true)
      (hrest : Followed next after) : Followed stack (c :: d :: after)
  | passed {top other : Frame} {below : List Frame} {piece rest : List Char}
      (hreads : Reads (top :: below) (piece ++ rest) (other :: below) rest)
      (hlevel : other.level = top.level)
      (hpasses : ∀ level ∈ top.level, Passes '(' ')' level.quoting piece)
      (hrest : Followed (other :: below) rest) : Followed (top :: below) (piece ++ rest)

section

variable {stack next : List Frame} {quoting : Quoting} {depth : Nat} {c d : Char}

@[simp] theorem endWord_unmatched (state : Body) : state.endWord.unmatched = state.unmatched := by
  unfold Body.endWord
  split <;> rfl

theorem boundary_two {state : Body} {below : List Frame} {follower : Option Char}
    (h : state.boundary below c follower = .two next) : c = ';' ∧ follower = some ';' ∧
      ∃ changed : Body, changed.unmatched = state.unmatched ∧ next = .body changed :: below := by
  unfold Body.boundary at h
  simp only at h
  split at h
  · split at h <;> cases h
  · split at h
    · cases h
    · split at h <;> cases h
  · split at h
    · rename_i hfollower
      cases h
      refine ⟨rfl, hfollower, _, ?_, rfl⟩
      exact endWord_unmatched _
    · cases h
  · cases h
  · cases h
  · cases h
  · cases h

/-- Outside quotes the scan is in a body. -/
theorem body_of_counts (h : Counts Frame.level stack (depth + 1)) :
    ∃ state below, stack = .body state :: below := by
  cases h with
  | @cons top below _ _ htop =>
      cases top with
      | body state => exact ⟨state, below, rfl⟩
      | quote => cases htop
      | string => cases htop
      | braces held => cases htop

/-- How a body is counted depends on its open parentheses alone. -/
theorem counts_body {state changed : Body} {below : List Frame}
    (hcounts : Counts Frame.level (.body state :: below) (depth + 1))
    (h : changed.unmatched = state.unmatched) :
    Counts Frame.level (.body changed :: below) (depth + 1) := by
  have haligned : Aligned Frame.level (.body changed :: below) .none depth :=
    (Aligned.plain hcounts).replace (by simp [Frame.level, h])
  cases haligned with
  | plain h => exact h

/-- A parenthesis that is not among patterns, or any other boundary, is counted alike. -/
theorem aligned_boundary {state : Body} {below : List Frame} {follower : Option Char}
    (hc : isWordBoundary c = true)
    (hcounts : Counts Frame.level (.body state :: below) (depth + 1))
    (halike : (Frame.body state).isAlike c follower = true)
    (h : state.boundary below c follower = .one next) :
    ∃ depth', Delimited.step '(' ')' .none depth c = .one .none depth' ∧
      Aligned Frame.level next .none depth' := by
  have hunmatched : ({ state with comment := false } : Body).endWord.unmatched = state.unmatched :=
    endWord_unmatched _
  have hpattern : c = '(' ∨ c = ')' →
      ({ state with comment := false } : Body).endWord.cases.inPattern = false := by
    intro hparen
    simp only [Frame.isAlike, Bool.and_eq_true, Bool.not_eq_true', Bool.and_eq_false_iff,
      Bool.or_eq_false_iff, beq_eq_false_iff_ne] at halike
    rcases halike.1.2 with hpattern | ⟨hopen, hclose⟩
    · exact hpattern
    · rcases hparen with rfl | rfl
      · exact absurd rfl hopen
      · exact absurd rfl hclose
  unfold Body.boundary at h
  generalize ({ state with comment := false } : Body).endWord = ended at h hunmatched hpattern
  have hlevel : ∀ changed : Body, changed.unmatched = ended.unmatched →
      Aligned Frame.level (.body changed :: below) .none depth :=
    fun _ hchanged => .plain (counts_body hcounts (hchanged.trans hunmatched))
  simp only at h
  split at h
  · rw [hpattern (.inl rfl)] at h
    cases h
    refine ⟨depth + 1, rfl, .plain (hcounts.deeper rfl ?_)⟩
    simp [Frame.level, hunmatched]
  · rw [hpattern (.inr rfl)] at h
    simp only [Bool.false_eq_true, if_false] at h
    split at h
    · cases h
    · rename_i hzero hbelow
      cases h
      have hnext := hcounts.closed (by simp [Frame.level, ← hunmatched, hzero])
      cases depth with
      | zero =>
          cases hnext
          exact absurd rfl hbelow
      | succ depth => exact ⟨depth, rfl, .plain hnext⟩
    · rename_i left hleft
      cases h
      obtain ⟨depth, rfl, hnext⟩ := hcounts.higher (by simp [Frame.level, ← hunmatched, hleft])
        (show Frame.level (.body { ended with unmatched := left }) = some (.counted left) from rfl)
      exact ⟨depth, rfl, .plain hnext⟩
  · split at h <;> cases h
    exact ⟨depth, rfl, hlevel _ rfl⟩
  · cases h
    exact ⟨depth, rfl, hlevel _ rfl⟩
  · cases h
    exact ⟨depth, rfl, hlevel _ rfl⟩
  · cases h
    exact ⟨depth, rfl, hlevel _ rfl⟩
  · rename_i hopen hclose _ _ _ _
    cases h
    have hother : c ≠ '\\' ∧ c ≠ '\'' ∧ c ≠ '"' := by
      refine ⟨?_, ?_, ?_⟩ <;> rintro rfl <;> exact absurd hc (by decide)
    obtain ⟨hslash, hsingle, hdouble⟩ := hother
    exact ⟨depth, Delimited.step_none_other hslash hsingle hdouble hopen hclose depth,
      hlevel _ rfl⟩

theorem aligned_inner_one {state : Body} {below : List Frame} {follower : Option Char}
    (hc : isWordBoundary c = false)
    (hcounts : Counts Frame.level (.body state :: below) (depth + 1))
    (h : state.inner below c follower = .one next) :
    ∃ quoting', Delimited.step '(' ')' .none depth c = .one quoting' depth ∧
      Aligned Frame.level next quoting' depth := by
  have hlevel : ∀ changed : Body, changed.unmatched = state.unmatched →
      Aligned Frame.level (.body changed :: below) .none depth :=
    fun _ hchanged => .plain (counts_body hcounts hchanged)
  unfold Body.inner at h
  simp only at h
  split at h
  · cases h
  · cases h
    exact ⟨.single, rfl, .single rfl (counts_body hcounts rfl)⟩
  · cases h
    exact ⟨.double, rfl, .double rfl (counts_body hcounts rfl)⟩
  · split at h
    · cases h
    · cases h
    · cases h
      exact ⟨.none, rfl, hlevel _ rfl⟩
  · split at h <;> cases h
    · exact ⟨.none, rfl, hlevel _ rfl⟩
    · exact ⟨.none, rfl, hlevel _ rfl⟩
  · rename_i hslash hsingle hdouble _ _
    cases h
    have hparens : c ≠ '(' ∧ c ≠ ')' := by
      constructor <;> rintro rfl <;> exact absurd hc (by decide)
    exact ⟨.none, Delimited.step_none_other hslash hsingle hdouble hparens.1 hparens.2 depth,
      hlevel _ rfl⟩

theorem aligned_inner_two {state : Body} {below : List Frame}
    (hcounts : Counts Frame.level (.body state :: below) (depth + 1))
    (halike : (Frame.body state).isAlike c (some d) = true)
    (h : state.inner below c (some d) = .two next) :
    (Delimited.step '(' ')' .none depth c = .two ∧ Aligned Frame.level next .none depth) ∨
    ∃ depth', Delimited.step '(' ')' .none depth c = .one .none depth ∧
      Delimited.step '(' ')' .none depth d = .one .none depth' ∧
      Aligned Frame.level next .none depth' := by
  unfold Body.inner at h
  simp only at h
  split at h
  · cases h
    exact .inl ⟨rfl, .plain (counts_body hcounts rfl)⟩
  · cases h
  · cases h
  · split at h
    · rename_i hparen
      obtain rfl := Option.some.inj hparen
      cases h
      refine .inr ⟨depth + 1, rfl, rfl, .plain (.nested (counts_body hcounts ?_) rfl)⟩
      rfl
    · rename_i hbrace
      obtain rfl := Option.some.inj hbrace
      simp [Frame.isAlike] at halike
    · cases h
  · split at h <;> cases h
  · cases h

/-- A character that the scan for a substitution reads alone is counted alike. -/
theorem aligned_one {follower : Option Char} (haligned : Aligned Frame.level stack quoting depth)
    (halike : ∀ top ∈ stack.head?, top.isAlike c follower = true)
    (h : step stack c follower = .one next) :
    ∃ quoting' depth', Delimited.step '(' ')' quoting depth c = .one quoting' depth' ∧
      Aligned Frame.level next quoting' depth' := by
  cases haligned with
  | @single top below _ htop hbelow =>
      cases top <;> cases htop
      cases h
      refine ⟨_, _, rfl, ?_⟩
      split
      · exact .plain hbelow
      · exact .single rfl hbelow
  | @double top below _ htop hbelow =>
      cases top <;> cases htop
      unfold step at h
      simp only at h
      split at h
      · cases h
      · cases h
        exact ⟨_, _, rfl, .plain hbelow⟩
      · split at h <;> cases h
        exact ⟨_, _, rfl, .double rfl hbelow⟩
      · rename_i hslash hquote _
        cases h
        exact ⟨_, _, Delimited.step_double_other hquote hslash depth, .double rfl hbelow⟩
  | plain hcounts =>
      obtain ⟨state, below, rfl⟩ := body_of_counts hcounts
      have hhere := halike _ rfl
      unfold step at h
      simp only at h
      split at h
      · rename_i hcomment
        simp only [Frame.isAlike, Bool.and_eq_true] at hhere
        simp_all
      · split at h
        · rename_i hc
          obtain ⟨depth', hcount, hnext⟩ := aligned_boundary hc hcounts hhere h
          exact ⟨.none, depth', hcount, hnext⟩
        · rename_i hc
          obtain ⟨quoting', hcount, hnext⟩ :=
            aligned_inner_one (Bool.eq_false_iff.mpr hc) hcounts h
          exact ⟨quoting', depth, hcount, hnext⟩

/-- Two characters that the scan for a substitution reads together are counted alike. -/
theorem aligned_two (haligned : Aligned Frame.level stack quoting depth)
    (halike : ∀ top ∈ stack.head?, top.isAlike c (some d) = true)
    (h : step stack c (some d) = .two next) :
    (Delimited.step '(' ')' quoting depth c = .two ∧ Aligned Frame.level next quoting depth) ∨
    ∃ depth', Delimited.step '(' ')' quoting depth c = .one quoting depth ∧
      Delimited.step '(' ')' quoting depth d = .one quoting depth' ∧
      Aligned Frame.level next quoting depth' := by
  cases haligned with
  | @single top below _ htop hbelow =>
      cases top <;> cases htop
      cases h
  | @double top below _ htop hbelow =>
      cases top <;> cases htop
      unfold step at h
      simp only at h
      split at h
      · cases h
        exact .inl ⟨rfl, .double rfl hbelow⟩
      · cases h
      · have hhere := halike _ rfl
        split at h
        · simp_all [Frame.isAlike]
        · cases h
      · cases h
  | plain hcounts =>
      obtain ⟨state, below, rfl⟩ := body_of_counts hcounts
      have hhere := halike _ rfl
      unfold step at h
      simp only at h
      split at h
      · cases h
      · split at h
        · obtain ⟨rfl, hfollower, changed, hchanged, rfl⟩ := boundary_two h
          obtain rfl := Option.some.inj hfollower
          exact .inr ⟨depth, rfl, rfl, .plain (counts_body hcounts hchanged)⟩
        · exact aligned_inner_two hcounts hhere h

/-- The parenthesis that ends a body is the one that the count ends at. -/
theorem aligned_close {follower : Option Char} (haligned : Aligned Frame.level stack quoting depth)
    (h : step stack c follower = .close) : Delimited.step '(' ')' quoting depth c = .close := by
  obtain rfl := step_close h
  cases haligned with
  | @single top below _ htop hbelow =>
      cases top <;> cases htop
      cases h
  | @double top below _ htop hbelow =>
      cases top <;> cases htop
      cases h
  | plain hcounts =>
      obtain ⟨state, below, rfl⟩ := body_of_counts hcounts
      unfold step at h
      simp only at h
      split at h
      · cases h
      · unfold Body.boundary at h
        simp only [show isWordBoundary ')' = true from rfl, if_true, endWord_unmatched] at h
        split at h
        · cases h
        · split at h
          · rename_i hzero
            have houtside := hcounts.closed (by simp [Frame.level, hzero])
            cases houtside
            rfl
          · cases h
          · cases h

/-- Where the scan for a substitution can be followed the parentheses are counted up to the same
place. -/
theorem Followed.scan {text seen body rest : List Char} (h : Followed stack text)
    (haligned : Aligned Frame.level stack quoting depth)
    (hscan : Substitution.scan stack seen text = some (body, rest)) (seen' : List Char) :
    ∃ body', Delimited.scan '(' ')' quoting depth seen' text = .ok (body', rest) := by
  induction h generalizing quoting depth seen seen' with
  | @close stack c after hstep =>
      rw [Substitution.scan, hstep] at hscan
      cases hscan
      rw [Delimited.scan.eq_def]
      simp only [aligned_close haligned hstep]
      exact ⟨_, rfl⟩
  | @one stack next c after hstep halike _ ih =>
      rw [Substitution.scan, hstep] at hscan
      obtain ⟨quoting', depth', hcount, hnext⟩ := aligned_one haligned halike hstep
      rw [Delimited.scan.eq_def]
      simp only [hcount]
      exact ih hnext hscan (c :: seen')
  | @two stack next c d after hstep halike _ ih =>
      rw [Substitution.scan, List.head?_cons, hstep] at hscan
      rw [Delimited.scan.eq_def]
      rcases aligned_two haligned halike hstep with
        ⟨hcount, hnext⟩ | ⟨depth', hfirst, hsecond, hnext⟩
      · simp only [hcount]
        exact ih hnext hscan (d :: c :: seen')
      · simp only [hfirst]
        rw [Delimited.scan.eq_def]
        simp only [hsecond]
        exact ih hnext hscan (d :: c :: seen')
  | @passed top other below piece middle hreads hlevel hpasses _ ih =>
      obtain ⟨level, htop, rfl⟩ := haligned.quoting
      obtain ⟨later, hlater⟩ := hreads.scan seen
      rw [hpasses level htop]
      exact ih (haligned.replace hlevel) (hlater ▸ hscan) (piece.reverse ++ seen')

end

end Substitution

/-- Without a dollar sign in it, what is read inside braces can be followed. -/
theorem Cursor.Reads.followed {stack : List Cursor.Bracket} {text rest : List Char}
    (h : Cursor.Reads stack text [] rest)
    (hdollar : ∀ piece, text = piece ++ rest → '$' ∉ piece) : Cursor.Followed stack text := by
  generalize hfinal : [] = final at h
  induction h with
  | here => exact hfinal ▸ .closed _
  | @one _ _ _ c after rest _ hstep hrest ih =>
      refine .one hstep (ih (fun piece hpiece hmem => ?_) hfinal)
      exact hdollar (c :: piece) (by rw [hpiece, List.cons_append]) (List.mem_cons_of_mem c hmem)
  | @two _ _ _ c d after rest _ hstep hrest ih =>
      obtain ⟨piece, hpiece, _⟩ := hrest.readWord
      have hfree := hdollar (c :: d :: piece) (by rw [hpiece, List.cons_append, List.cons_append])
      refine .two hstep (fun hc => absurd (hc ▸ List.mem_cons_self) hfree)
        (ih (fun piece hpiece hmem => ?_) hfinal)
      exact hdollar (c :: d :: piece) (by rw [hpiece, List.cons_append, List.cons_append])
        (List.mem_cons_of_mem c (List.mem_cons_of_mem d hmem))
  | @substitution _ _ c body after middle rest _ hstep hsplit hrest ih =>
      obtain ⟨rfl, _⟩ := Cursor.step_substitution hstep
      obtain ⟨piece, rfl, _⟩ := hrest.readWord
      obtain rfl := Substitution.split_eq_some hsplit
      exact absurd List.mem_cons_self (hdollar ('$' :: '(' :: (body ++ ')' :: piece)) (by simp))

/-- The parser of words follows the lexer through the expansion after a dollar sign. -/
def Word.Followed : List Char → Prop
  | '(' :: '(' :: inside => Substitution.Followed [.body .start] ('(' :: inside)
  | '\x7b' :: inside => Cursor.Followed [.braces 0] inside
  | _ => True

/--
What the lexer takes for an expansion, the parser of words takes for one, as long as it
follows: the lexer goes on at `rest` wherever the expansion stands, and so does the parser
of words unless it fails.  A substitution is always followed.
-/
theorem expansion_extent {text rest : List Char} (hexpands : Cursor.Expands text rest)
    (hfollowed : Word.Followed text) :
    (∃ piece, text = piece ++ rest ∧
      ∀ below : List Cursor.Bracket, below.head? ≠ some .single → ∀ seen position,
        Cursor.readWord below seen ('$' :: text) position =
          Cursor.readWord below (piece.reverse ++ '$' :: seen) rest
            (position.afterAll ('$' :: piece))) ∧
    ∀ parse place found, Word.expansion parse place text = .ok found →
      ∃ node, found = some (node, rest) := by
  refine ⟨Cursor.readWord_expansion hexpands, fun parse place found hfound => ?_⟩
  have hsubstitution : ∀ body, Word.substitution parse body rest = .ok found →
      ∃ node, found = some (node, rest) := by
    intro body h
    unfold Word.substitution at h
    split at h <;> cases h
    exact ⟨_, rfl⟩
  cases hexpands with
  | @parameter inside rest hreads =>
      obtain ⟨body, hsplit⟩ : ∃ body, Delimited.split '\x7b' '\x7d' inside = .ok (body, rest) :=
        Cursor.Followed.scan hfollowed (.plain (.cons rfl .nil)) hreads []
      rw [Word.expansion_braces, hsplit] at hfound
      cases hfound
      exact ⟨_, rfl⟩
  | @substitution inside body rest hbody =>
      by_cases hdoubled : ∃ more, inside = '(' :: more
      · obtain ⟨more, rfl⟩ := hdoubled
        obtain ⟨body', hsplit⟩ : ∃ body',
            Delimited.split '(' ')' ('(' :: more) = .ok (body', rest) :=
          Substitution.Followed.scan hfollowed (.plain (.cons rfl .nil)) hbody []
        rw [Word.expansion_doubled, hsplit] at hfound
        simp only at hfound
        split at hfound
        · cases hfound
          exact ⟨_, rfl⟩
        · exact hsubstitution _ hfound
      · have hsingle : ∀ more, inside ≠ '(' :: more := fun more h => hdoubled ⟨more, h⟩
        rw [Word.expansion_single hsingle, hbody] at hfound
        exact hsubstitution _ hfound

/-- A substitution within double quotes, in a parameter within another one. -/
theorem nested_extent : Cursor.Expands "\x7bx:-$\x7by:-\"$(echo a)\"\x7d\x7d!".toList ['!'] ∧
    Word.Followed "\x7bx:-$\x7by:-\"$(echo a)\"\x7d\x7d!".toList ∧
    ∀ parse place found,
      Word.expansion parse place "\x7bx:-$\x7by:-\"$(echo a)\"\x7d\x7d!".toList = .ok found →
        ∃ node, found = some (node, ['!']) := by
  have hexpands : Cursor.Expands "\x7bx:-$\x7by:-\"$(echo a)\"\x7d\x7d!".toList ['!'] :=
    .parameter <| .one (by simp) rfl <| .one (by simp) rfl <| .one (by simp) rfl <|
      .two (by simp) rfl <| .one (by simp) rfl <| .one (by simp) rfl <| .one (by simp) rfl <|
      .one (by simp) rfl <| .substitution (by simp) rfl rfl <| .one (by simp) rfl <|
      .one (by simp) rfl <| .one (by simp) rfl <| .here _ _
  have hfollowed : Word.Followed "\x7bx:-$\x7by:-\"$(echo a)\"\x7d\x7d!".toList := by
    refine Cursor.Followed.one rfl <| .one rfl <| .one rfl <| .two rfl (by simp) <| .one rfl <|
      .one rfl <| .one rfl <| .one rfl ?_
    have hpasses : ∀ level ∈ Cursor.Bracket.double.level,
        Delimited.Passes '\x7b' '\x7d' level.quoting "$(echo a)".toList := by
      intro level hlevel
      cases hlevel
      exact fun _ _ _ => rfl
    exact .passed (.substitution (by simp) rfl rfl (.here _ _)) hpasses <| .one rfl <| .one rfl <|
      .one rfl <| .closed _
  exact ⟨hexpands, hfollowed, (expansion_extent hexpands hfollowed).2⟩

/-- The lexer passes over the substitution, but the count ends at the brace in it. -/
theorem extents_differ : Cursor.Expands "\x7bx:-$(echo \x7d)\x7d".toList [] ∧
    Word.expansion (fun _ => .ok []) (fun _ => .start) "\x7bx:-$(echo \x7d)\x7d".toList =
      .ok (some (.parameter false "x:-$(echo ", [')', '\x7d'])) := by
  refine ⟨?_, ?_⟩
  · exact .parameter <| .one (by simp) rfl <| .one (by simp) rfl <| .one (by simp) rfl <|
      .substitution (by simp) rfl rfl <| .one (by simp) rfl <| .here _ _
  · rfl

end Conch.Syntax
