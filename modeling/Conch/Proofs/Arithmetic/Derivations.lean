import Conch.Arithmetic.Grammar

/-!
# Derivations of expressions

The grammar of expressions as rules.  `Derives phrase tokens e rest` says that the tokens
start with a phrase that stands for `e` and go on with `rest`.  The parsers find what can be
derived, and nothing else (`Phrase.reads_iff_derives`).
-/

namespace Conch.Arithmetic

/-- What a parser looks for. -/
inductive Phrase where
  | expression
  | conditional
  /-- Operands joined by operators that bind at least so tightly. -/
  | binary (least : Nat)
  /-- What extends a left operand to such a phrase. -/
  | climb (least : Nat) (left : Expression)
  | unary
  | primary

namespace Token

/-- The tokens start with a name and the symbol of an assignment. -/
def startAssignment : List Token → Bool
  | .name _ :: .symbol found :: _ => found.assignment?.isSome
  | _ => false

/-- The tokens start with the symbol of a unary operator. -/
def startUnary : List Token → Bool
  | .symbol found :: _ => found.unary?.isSome
  | _ => false

/-- The tokens do not start with an operator that binds so tightly. -/
def stopAt (least : Nat) : List Token → Bool
  | .symbol found :: _ => found.binary?.all (fun entry => decide (entry.2 < least))
  | _ => true

end Token

/-- How tightly the operators in a right operand bind at least: powers group to the right. -/
def BinaryOperator.rightLeast (op : BinaryOperator) (strength : Nat) : Nat :=
  if op = .pow then strength else strength + 1

inductive Derives : Phrase → List Token → Expression → List Token → Prop where
  | assign {name : String} {found : Symbol} {op : Option BinaryOperator} {tokens rest : List Token}
      {value : Expression} (hop : found.assignment? = some op)
      (hvalue : Derives .expression tokens value rest) :
      Derives .expression (.name name :: .symbol found :: tokens) (.assign name op value) rest
  | whole {tokens rest : List Token} {e : Expression}
      (hstart : Token.startAssignment tokens = false)
      (he : Derives .conditional tokens e rest) : Derives .expression tokens e rest
  | choice {tokens afterMark afterColon rest : List Token}
      {test consequent alternative : Expression}
      (htest : Derives (.binary 1) tokens test (.symbol .question :: afterMark))
      (hconsequent : Derives .expression afterMark consequent (.symbol .colon :: afterColon))
      (halternative : Derives .conditional afterColon alternative rest) :
      Derives .conditional tokens (.conditional test consequent alternative) rest
  | test {tokens rest : List Token} {e : Expression} (he : Derives (.binary 1) tokens e rest)
      (hrest : rest.head? ≠ some (.symbol .question)) : Derives .conditional tokens e rest
  | operand {least : Nat} {tokens middle rest : List Token} {left e : Expression}
      (hleft : Derives .unary tokens left middle) (he : Derives (.climb least left) middle e rest) :
      Derives (.binary least) tokens e rest
  | stop {least : Nat} {left : Expression} {tokens : List Token}
      (hstop : Token.stopAt least tokens = true) : Derives (.climb least left) tokens left tokens
  | operator {least strength : Nat} {found : Symbol} {op : BinaryOperator}
      {tokens middle rest : List Token} {left right e : Expression}
      (hop : found.binary? = some (op, strength)) (hleast : least ≤ strength)
      (hright : Derives (.binary (op.rightLeast strength)) tokens right middle)
      (he : Derives (.climb least (.binary op left right)) middle e rest) :
      Derives (.climb least left) (.symbol found :: tokens) e rest
  | unary {found : Symbol} {op : UnaryOperator} {tokens rest : List Token} {operand : Expression}
      (hop : found.unary? = some op) (hoperand : Derives .unary tokens operand rest) :
      Derives .unary (.symbol found :: tokens) (.unary op operand) rest
  | primary {tokens rest : List Token} {e : Expression} (hstart : Token.startUnary tokens = false)
      (he : Derives .primary tokens e rest) : Derives .unary tokens e rest
  | number {value : Int64} {rest : List Token} :
      Derives .primary (.number value :: rest) (.number value) rest
  | variable {name : String} {rest : List Token} :
      Derives .primary (.name name :: rest) (.variable name) rest
  | group {tokens rest : List Token} {e : Expression}
      (he : Derives .expression tokens e (.symbol .closing :: rest)) :
      Derives .primary (.symbol .opening :: tokens) e rest

/-- The parser of the phrase gives the expression and leaves the rest. -/
def Phrase.Reads (phrase : Phrase) (tokens : List Token) (e : Expression) (rest : List Token) :
    Prop :=
  match phrase with
  | .expression => ∃ h, Arithmetic.expression tokens = .ok (e, ⟨rest, h⟩)
  | .conditional => ∃ h, Arithmetic.conditional tokens = .ok (e, ⟨rest, h⟩)
  | .binary least => ∃ h, Arithmetic.binary least tokens = .ok (e, ⟨rest, h⟩)
  | .climb least left => ∃ h, Arithmetic.climb least left tokens = .ok (e, ⟨rest, h⟩)
  | .unary => ∃ h, Arithmetic.unary tokens = .ok (e, ⟨rest, h⟩)
  | .primary => ∃ h, Arithmetic.primary tokens = .ok (e, ⟨rest, h⟩)

/-! ## What can be derived is found -/

theorem expression_of_conditional {tokens : List Token} (h : Token.startAssignment tokens = false) :
    expression tokens = conditional tokens := by
  rw [expression.eq_def]
  split
  · split
    · rename_i hop
      simp [Token.startAssignment, hop] at h
    · rfl
  · rfl

theorem unary_of_primary {tokens : List Token} (h : Token.startUnary tokens = false) :
    unary tokens = primary tokens := by
  rw [unary.eq_def]
  split
  · split
    · rename_i hop
      simp [Token.startUnary, hop] at h
    · rfl
  · rfl

theorem climb_of_stopAt {least : Nat} {left : Expression} {tokens : List Token}
    (h : Token.stopAt least tokens = true) :
    climb least left tokens = .ok (left, ⟨tokens, Nat.le_refl _⟩) := by
  rw [climb.eq_def]
  split
  · split
    · rfl
    · rename_i hop
      have hlt := h
      simp only [Token.stopAt, hop, Option.all_some, decide_eq_true_eq] at hlt
      rw [if_pos hlt]
  · rfl

theorem conditional_of_binary {tokens rest : List Token} {e : Expression}
    {h : rest.length < tokens.length} (he : binary 1 tokens = .ok (e, ⟨rest, h⟩))
    (hrest : rest.head? ≠ some (.symbol .question)) :
    conditional tokens = .ok (e, ⟨rest, h⟩) := by
  rw [conditional, he]
  split
  · rename_i heq
    cases heq
  · rename_i heq
    cases heq
    exact absurd rfl hrest
  · rename_i heq
    cases heq
    rfl

theorem reads_of_derives {phrase : Phrase} {tokens rest : List Token} {e : Expression}
    (h : Derives phrase tokens e rest) : phrase.Reads tokens e rest := by
  induction h with
  | assign hop _ ih =>
      obtain ⟨hrest, hvalue⟩ := ih
      refine ⟨Nat.lt_succ_of_lt (Nat.lt_succ_of_lt hrest), ?_⟩
      simp only [expression, hop, hvalue]
  | whole hstart _ ih =>
      obtain ⟨hrest, he⟩ := ih
      exact ⟨hrest, (expression_of_conditional hstart).trans he⟩
  | choice _ _ _ ihtest ihconsequent ihalternative =>
      obtain ⟨hmark, htest⟩ := ihtest
      obtain ⟨hcolon, hconsequent⟩ := ihconsequent
      obtain ⟨hrest, halternative⟩ := ihalternative
      simp only [List.length_cons] at hmark hcolon
      refine ⟨by omega, ?_⟩
      simp [conditional, htest, hconsequent, expect, halternative]
  | test _ hhead ih =>
      obtain ⟨hrest, he⟩ := ih
      exact ⟨hrest, conditional_of_binary he hhead⟩
  | operand _ _ ihleft ih =>
      obtain ⟨hmiddle, hleft⟩ := ihleft
      obtain ⟨hrest, he⟩ := ih
      exact ⟨Nat.lt_of_le_of_lt hrest hmiddle, by simp only [binary, hleft, he]⟩
  | stop hstop => exact ⟨Nat.le_refl _, climb_of_stopAt hstop⟩
  | operator hop hleast _ _ ihright ih =>
      obtain ⟨hmiddle, hright⟩ := ihright
      obtain ⟨hrest, he⟩ := ih
      rw [BinaryOperator.rightLeast] at hright
      refine ⟨by simp only [List.length_cons]; omega, ?_⟩
      simp only [climb, hop, if_neg (Nat.not_lt.mpr hleast), hright, he]
  | unary hop _ ih =>
      obtain ⟨hrest, hoperand⟩ := ih
      exact ⟨Nat.lt_succ_of_lt hrest, by simp only [unary, hop, hoperand]⟩
  | primary hstart _ ih =>
      obtain ⟨hrest, he⟩ := ih
      exact ⟨hrest, (unary_of_primary hstart).trans he⟩
  | number => exact ⟨Nat.lt_succ_self _, by rw [primary]⟩
  | «variable» => exact ⟨Nat.lt_succ_self _, by rw [primary]⟩
  | group _ ih =>
      obtain ⟨hrest, he⟩ := ih
      simp only [List.length_cons] at hrest
      refine ⟨by simp only [List.length_cons]; omega, ?_⟩
      simp [primary, he, expect]

/-! ## What is found can be derived -/

/-- A parser comes before those that call it on the same tokens. -/
def Phrase.rank : Phrase → Nat
  | .primary => 0
  | .unary | .climb .. => 1
  | .binary _ => 2
  | .conditional => 3
  | .expression => 4

theorem expect_eq_ok {symbol : Symbol} {tokens rest : List Token}
    {h : rest.length < tokens.length} (hexpect : expect symbol tokens = .ok ⟨rest, h⟩) :
    tokens = .symbol symbol :: rest := by
  unfold expect at hexpect
  split at hexpect
  · split at hexpect
    · rename_i hfound
      cases hexpect
      rw [hfound]
    · cases hexpect
  · cases hexpect

theorem reads_expression {tokens rest : List Token} {e : Expression}
    (h : Phrase.expression.Reads tokens e rest) :
    (∃ name found op after value, tokens = .name name :: .symbol found :: after ∧
      found.assignment? = some op ∧ e = .assign name op value ∧
      Phrase.expression.Reads after value rest) ∨
    Token.startAssignment tokens = false ∧ Phrase.conditional.Reads tokens e rest := by
  cases hstart : Token.startAssignment tokens with
  | false =>
      obtain ⟨hrest, he⟩ := h
      exact .inr ⟨rfl, hrest, (expression_of_conditional hstart).symm.trans he⟩
  | true =>
      unfold Token.startAssignment at hstart
      split at hstart
      · rename_i name found after
        obtain ⟨op, hop⟩ := Option.isSome_iff_exists.mp hstart
        obtain ⟨hrest, he⟩ := h
        simp only [expression, hop] at he
        split at he
        · cases he
        · rename_i value rest' hlt hvalue
          cases he
          exact .inl ⟨name, found, op, after, value, rfl, hop, rfl, hlt, hvalue⟩
      · cases hstart

theorem reads_conditional {tokens rest : List Token} {e : Expression}
    (h : Phrase.conditional.Reads tokens e rest) :
    (∃ test afterMark consequent afterColon alternative,
      e = .conditional test consequent alternative ∧
      (Phrase.binary 1).Reads tokens test (.symbol .question :: afterMark) ∧
      Phrase.expression.Reads afterMark consequent (.symbol .colon :: afterColon) ∧
      Phrase.conditional.Reads afterColon alternative rest) ∨
    (Phrase.binary 1).Reads tokens e rest ∧ rest.head? ≠ some (.symbol .question) := by
  obtain ⟨hrest, he⟩ := h
  rw [conditional] at he
  split at he
  · cases he
  · rename_i htest
    split at he
    · cases he
    · rename_i hconsequent
      split at he
      · cases he
      · rename_i hexpect
        split at he
        · cases he
        · rename_i halternative
          cases he
          have hcolon := expect_eq_ok hexpect
          subst hcolon
          exact .inl ⟨_, _, _, _, _, rfl, ⟨_, htest⟩, ⟨_, hconsequent⟩, ⟨_, halternative⟩⟩
  · rename_i hhead htest
    cases he
    refine .inr ⟨⟨_, htest⟩, fun hmark => ?_⟩
    obtain ⟨more, hmore⟩ := List.head?_eq_some_iff.mp hmark
    subst hmore
    exact hhead _ _ rfl

theorem reads_binary {least : Nat} {tokens rest : List Token} {e : Expression}
    (h : (Phrase.binary least).Reads tokens e rest) :
    ∃ left middle, Phrase.unary.Reads tokens left middle ∧
      (Phrase.climb least left).Reads middle e rest := by
  obtain ⟨hrest, he⟩ := h
  rw [binary] at he
  split at he
  · cases he
  · rename_i hleft
    split at he
    · cases he
    · rename_i hwhole
      cases he
      exact ⟨_, _, ⟨_, hleft⟩, _, hwhole⟩

theorem reads_climb {least : Nat} {left e : Expression} {tokens rest : List Token}
    (h : (Phrase.climb least left).Reads tokens e rest) :
    (Token.stopAt least tokens = true ∧ e = left ∧ rest = tokens) ∨
    ∃ found op strength after right middle, tokens = .symbol found :: after ∧
      found.binary? = some (op, strength) ∧ least ≤ strength ∧
      (Phrase.binary (op.rightLeast strength)).Reads after right middle ∧
      (Phrase.climb least (.binary op left right)).Reads middle e rest := by
  obtain ⟨hrest, he⟩ := h
  cases hstop : Token.stopAt least tokens with
  | true =>
      rw [climb_of_stopAt hstop] at he
      cases he
      exact .inl ⟨rfl, rfl, rfl⟩
  | false =>
      unfold Token.stopAt at hstop
      split at hstop
      · rename_i found after
        cases hop : found.binary? with
        | none => simp [hop] at hstop
        | some entry =>
            obtain ⟨op, strength⟩ := entry
            simp only [hop, Option.all_some, decide_eq_false_iff_not] at hstop
            simp only [climb, hop, if_neg hstop] at he
            split at he
            · cases he
            · rename_i hright
              split at he
              · cases he
              · rename_i hwhole
                cases he
                exact .inr ⟨found, op, strength, after, _, _, rfl, hop, Nat.not_lt.mp hstop,
                  ⟨_, hright⟩, _, hwhole⟩
      · cases hstop

theorem reads_unary {tokens rest : List Token} {e : Expression}
    (h : Phrase.unary.Reads tokens e rest) :
    (∃ found op after operand, tokens = .symbol found :: after ∧ found.unary? = some op ∧
      e = .unary op operand ∧ Phrase.unary.Reads after operand rest) ∨
    Token.startUnary tokens = false ∧ Phrase.primary.Reads tokens e rest := by
  obtain ⟨hrest, he⟩ := h
  cases hstart : Token.startUnary tokens with
  | false => exact .inr ⟨rfl, hrest, (unary_of_primary hstart).symm.trans he⟩
  | true =>
      unfold Token.startUnary at hstart
      split at hstart
      · rename_i found after
        obtain ⟨op, hop⟩ := Option.isSome_iff_exists.mp hstart
        simp only [unary, hop] at he
        split at he
        · cases he
        · rename_i operand rest' hlt hoperand
          cases he
          exact .inl ⟨found, op, after, operand, rfl, hop, rfl, hlt, hoperand⟩
      · cases hstart

theorem reads_primary {tokens rest : List Token} {e : Expression}
    (h : Phrase.primary.Reads tokens e rest) :
    (∃ value, tokens = .number value :: rest ∧ e = .number value) ∨
    (∃ name, tokens = .name name :: rest ∧ e = .variable name) ∨
    ∃ after, tokens = .symbol .opening :: after ∧
      Phrase.expression.Reads after e (.symbol .closing :: rest) := by
  obtain ⟨hrest, he⟩ := h
  rw [primary.eq_def] at he
  split at he
  · cases he
    exact .inl ⟨_, rfl, rfl⟩
  · cases he
    exact .inr (.inl ⟨_, rfl, rfl⟩)
  · split at he
    · rename_i hopening
      split at he
      · cases he
      · rename_i hinner
        split at he
        · cases he
        · rename_i hexpect
          cases he
          have hclosing := expect_eq_ok hexpect
          subst hopening hclosing
          exact .inr (.inr ⟨_, rfl, _, hinner⟩)
    · cases he
  · cases he

theorem derives_of_reads : ∀ (phrase : Phrase) {tokens rest : List Token} {e : Expression},
    phrase.Reads tokens e rest → Derives phrase tokens e rest
  | .expression, tokens, rest, e, h => by
      rcases reads_expression h with
        ⟨name, found, op, after, value, rfl, hop, rfl, hvalue⟩ | ⟨hstart, he⟩
      · exact .assign hop (derives_of_reads .expression hvalue)
      · exact .whole hstart (derives_of_reads .conditional he)
  | .conditional, tokens, rest, e, h => by
      rcases reads_conditional h with
        ⟨test, afterMark, consequent, afterColon, alternative, rfl, htest, hconsequent,
          halternative⟩ | ⟨he, hrest⟩
      · have hmark := htest.1
        have hcolon := hconsequent.1
        exact .choice (derives_of_reads (.binary 1) htest)
          (derives_of_reads .expression hconsequent) (derives_of_reads .conditional halternative)
      · exact .test (derives_of_reads (.binary 1) he) hrest
  | .binary least, tokens, rest, e, h => by
      obtain ⟨left, middle, hleft, he⟩ := reads_binary h
      have hmiddle := hleft.1
      exact .operand (derives_of_reads .unary hleft) (derives_of_reads (.climb least left) he)
  | .climb least left, tokens, rest, e, h => by
      rcases reads_climb h with ⟨hstop, rfl, rfl⟩ |
        ⟨found, op, strength, after, right, middle, rfl, hop, hleast, hright, he⟩
      · exact .stop hstop
      · have hmiddle := hright.1
        exact .operator hop hleast (derives_of_reads (.binary _) hright)
          (derives_of_reads (.climb least _) he)
  | .unary, tokens, rest, e, h => by
      rcases reads_unary h with ⟨found, op, after, operand, rfl, hop, rfl, hoperand⟩ | ⟨hstart, he⟩
      · exact .unary hop (derives_of_reads .unary hoperand)
      · exact .primary hstart (derives_of_reads .primary he)
  | .primary, tokens, rest, e, h => by
      rcases reads_primary h with ⟨value, rfl, rfl⟩ | ⟨name, rfl, rfl⟩ | ⟨after, rfl, he⟩
      · exact .number
      · exact .variable
      · exact .group (derives_of_reads .expression he)
termination_by phrase tokens => (tokens.length, phrase.rank)
decreasing_by
  all_goals subst_vars
  all_goals simp only [Phrase.rank, List.length_cons, Prod.lex_def, true_and] at *
  all_goals omega

theorem Phrase.reads_iff_derives {phrase : Phrase} {tokens rest : List Token} {e : Expression} :
    phrase.Reads tokens e rest ↔ Derives phrase tokens e rest :=
  ⟨derives_of_reads phrase, reads_of_derives⟩

/-- Tokens spell an expression if it can be derived from all of them. -/
theorem ofTokens_eq_ok {tokens : List Token} (hne : tokens ≠ []) {e : Expression} :
    Expression.ofTokens tokens = .ok e ↔ Derives .expression tokens e [] := by
  rw [← Phrase.reads_iff_derives]
  unfold Expression.ofTokens
  constructor
  · intro h
    split at h
    · exact absurd rfl hne
    · split at h
      · cases h
      · rename_i hread
        cases h
        exact ⟨_, hread⟩
      · cases h
  · rintro ⟨hlength, hread⟩
    cases tokens with
    | nil => exact absurd rfl hne
    | cons token tokens => simp only [hread]

end Conch.Arithmetic
