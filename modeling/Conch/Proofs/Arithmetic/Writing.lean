import Conch.Proofs.Arithmetic.Derivations
import Conch.Proofs.Arithmetic.Tokens

/-!
# Writing expressions

An expression is written with a blank between its tokens, and with parentheses only where it
binds more loosely than its place asks for.  Expressions are read back from what is written
(`ofText_write`).

The levels of the table, from the loosest: assignments are 0, conditionals 1, binary operators
2 to 12, unary operators 13 and operands 14.
-/

namespace Conch.Arithmetic

namespace BinaryOperator

def symbol : BinaryOperator → Symbol
  | .add => .plus
  | .sub => .minus
  | .mul => .star
  | .div => .slash
  | .mod => .percent
  | .pow => .starStar
  | .shiftLeft => .lessLess
  | .shiftRight => .greaterGreater
  | .less => .less
  | .lessEq => .lessEq
  | .greater => .greater
  | .greaterEq => .greaterEq
  | .equal => .equalEqual
  | .notEqual => .notEqual
  | .bitAnd => .ampersand
  | .bitOr => .bar
  | .bitXor => .caret
  | .and => .andAnd
  | .or => .orOr

/-- The row of the table, counted from the loosest binary operator. -/
def strength : BinaryOperator → Nat
  | .or => 1
  | .and => 2
  | .bitOr => 3
  | .bitXor => 4
  | .bitAnd => 5
  | .equal | .notEqual => 6
  | .less | .lessEq | .greater | .greaterEq => 7
  | .shiftLeft | .shiftRight => 8
  | .add | .sub => 9
  | .mul | .div | .mod => 10
  | .pow => 11

def level (op : BinaryOperator) : Nat := op.strength + 1

/-- Powers group to the right, the other operators to the left. -/
def leftLevel (op : BinaryOperator) : Nat := if op = .pow then op.level + 1 else op.level

def rightLevel (op : BinaryOperator) : Nat := if op = .pow then op.level else op.level + 1

end BinaryOperator

def UnaryOperator.symbol : UnaryOperator → Symbol
  | .negate => .minus
  | .plus => .plus
  | .not => .bang
  | .complement => .tilde

/-- The symbol of an assignment, if there is one that combines with the operator. -/
def assignmentSymbol? : Option BinaryOperator → Option Symbol
  | none => some .assign
  | some .add => some .plusAssign
  | some .sub => some .minusAssign
  | some .mul => some .starAssign
  | some .div => some .slashAssign
  | some .mod => some .percentAssign
  | some .shiftLeft => some .shiftLeftAssign
  | some .shiftRight => some .shiftRightAssign
  | some _ => none

namespace Expression

def level : Expression → Nat
  | .assign .. => 0
  | .conditional .. => 1
  | .binary op .. => op.level
  | .unary .. => 13
  | .number _ | .variable _ => 14

/-- The tokens of an expression where one of this level or a tighter one can stand. -/
def tokens (e : Expression) (least : Nat) : List Token :=
  let plain :=
    match e with
    | .number value => [.number value]
    | .variable name => [.name name]
    | .unary op operand => .symbol op.symbol :: operand.tokens 13
    | .binary op left right =>
        left.tokens op.leftLevel ++ .symbol op.symbol :: right.tokens op.rightLevel
    | .conditional test consequent alternative =>
        test.tokens 2 ++
          .symbol .question :: (consequent.tokens 0 ++ .symbol .colon :: alternative.tokens 1)
    | .assign name op value =>
        .name name :: .symbol ((assignmentSymbol? op).getD .assign) :: value.tokens 0
  if e.level < least then .symbol .opening :: (plain ++ [.symbol .closing]) else plain

def write (e : Expression) : String := Token.write (e.tokens 0)

/-- The expression has a spelling: its numbers have no sign, its names are names, and it
combines assignments only with operators that have a symbol for it. -/
def isWritable : Expression → Bool
  | .number value => 0 ≤ value
  | .variable name => Syntax.isName name
  | .unary _ operand => operand.isWritable
  | .binary _ left right => left.isWritable && right.isWritable
  | .conditional test consequent alternative =>
      test.isWritable && consequent.isWritable && alternative.isWritable
  | .assign name op value =>
      Syntax.isName name && (assignmentSymbol? op).isSome && value.isWritable

/-! ## Parentheses -/

section

variable {e : Expression}

theorem tokens_of_le {least : Nat} (h : least ≤ e.level) : e.tokens least = e.tokens 0 := by
  cases e <;> simp only [tokens, if_neg (Nat.not_lt.mpr h), Nat.not_lt_zero, if_false]

theorem tokens_of_lt {least : Nat} (h : e.level < least) :
    e.tokens least = .symbol .opening :: (e.tokens 0 ++ [.symbol .closing]) := by
  cases e <;> simp only [tokens, if_pos h, Nat.not_lt_zero, if_false]

/-- Where there are parentheses, or none, at two levels, the tokens are the same. -/
theorem tokens_congr {first second : Nat} (h : first ≤ e.level ↔ second ≤ e.level) :
    e.tokens first = e.tokens second := by
  by_cases hle : first ≤ e.level
  · rw [tokens_of_le hle, tokens_of_le (h.mp hle)]
  · rw [tokens_of_lt (Nat.not_le.mp hle), tokens_of_lt (Nat.not_le.mp (mt h.mpr hle))]

end

theorem tokens_binary (op : BinaryOperator) (left right : Expression) :
    (binary op left right).tokens 0 =
      left.tokens op.leftLevel ++ .symbol op.symbol :: right.tokens op.rightLevel := by
  rw [tokens, if_neg (Nat.not_lt_zero _)]

theorem tokens_conditional (test consequent alternative : Expression) :
    (conditional test consequent alternative).tokens 0 =
      test.tokens 2 ++
        .symbol .question :: (consequent.tokens 0 ++ .symbol .colon :: alternative.tokens 1) := by
  rw [tokens, if_neg (Nat.not_lt_zero _)]

end Expression

namespace BinaryOperator

variable (op : BinaryOperator)

theorem one_le_strength : 1 ≤ op.strength := by cases op <;> decide

theorem strength_le : op.strength ≤ 11 := by cases op <;> decide

/-- Only powers are as strong as powers. -/
theorem strength_lt (h : op ≠ .pow) : op.strength < 11 := by
  cases op <;> first | exact absurd rfl h | decide

theorem binary?_symbol : op.symbol.binary? = some (op, op.strength) := by cases op <;> rfl

theorem assignment?_symbol : op.symbol.assignment? = none := by cases op <;> rfl

theorem leftLevel_of_ne (h : op ≠ .pow) : op.leftLevel = op.strength + 1 := by
  rw [leftLevel, if_neg h, level]

theorem rightLevel_eq : op.rightLevel = op.rightLeast op.strength + 1 := by
  unfold rightLevel rightLeast level
  split <;> rfl

end BinaryOperator

theorem UnaryOperator.unary?_symbol (op : UnaryOperator) : op.symbol.unary? = some op := by
  cases op <;> rfl

theorem assignment?_of_symbol? {op : Option BinaryOperator} {found : Symbol}
    (h : assignmentSymbol? op = some found) : found.assignment? = some op := by
  unfold assignmentSymbol? at h
  split at h <;> cases h <;> rfl

/-! ## Reading back -/

namespace Token

/-- What can stand after a whole expression. -/
def closes : List Token → Bool
  | [] => true
  | .symbol found :: _ => found = .closing || found = .colon
  | _ => false

theorem closes_cases {rest : List Token} (h : closes rest = true) :
    rest = [] ∨ ∃ more, rest = .symbol .closing :: more ∨ rest = .symbol .colon :: more := by
  unfold closes at h
  split at h
  · exact .inl rfl
  · rename_i found more
    simp only [Bool.or_eq_true, decide_eq_true_eq] at h
    rcases h with rfl | rfl
    · exact .inr ⟨more, .inl rfl⟩
    · exact .inr ⟨more, .inr rfl⟩
  · cases h

theorem stopAt_of_closes {rest : List Token} (h : closes rest = true) (least : Nat) :
    stopAt least rest = true := by
  rcases closes_cases h with rfl | ⟨more, rfl | rfl⟩ <;> rfl

theorem head?_of_closes {rest : List Token} (h : closes rest = true) :
    rest.head? ≠ some (.symbol .question) := by
  rcases closes_cases h with rfl | ⟨more, rfl | rfl⟩ <;> simp

theorem startAssignment_of_closes {rest : List Token} (h : closes rest = true) (name : String) :
    startAssignment (.name name :: rest) = false := by
  rcases closes_cases h with rfl | ⟨more, rfl | rfl⟩ <;> rfl

theorem stopAt_mono {first second : Nat} (hle : first ≤ second) {rest : List Token}
    (h : stopAt first rest = true) : stopAt second rest = true := by
  unfold stopAt at h ⊢
  split at h
  · rename_i found more
    cases hop : found.binary? with
    | none => rfl
    | some entry =>
        simp only [hop, Option.all_some, decide_eq_true_eq] at h ⊢
        omega
  · rfl

/-- An operator stops what binds more tightly. -/
theorem stopAt_symbol {op : BinaryOperator} {least : Nat} (h : op.strength < least)
    (more : List Token) : stopAt least (.symbol op.symbol :: more) = true := by
  simp [stopAt, op.binary?_symbol, h]

end Token

namespace Expression

open Token (closes startAssignment stopAt)

theorem startAssignment_of_plain {e : Expression} {least : Nat} (hleast : 1 ≤ least)
    {rest : List Token} (h : 1 ≤ e.level → startAssignment (e.tokens 0 ++ rest) = false) :
    startAssignment (e.tokens least ++ rest) = false := by
  rcases Nat.lt_or_ge e.level least with hlt | hle
  · rw [tokens_of_lt hlt]
    rfl
  · rw [tokens_of_le hle]
    exact h (Nat.le_trans hleast hle)

/-- Only assignments start with a name and the symbol of an assignment. -/
theorem startAssignment_tokens (e : Expression) (hlevel : 1 ≤ e.level) {rest : List Token}
    (hrest : ∀ name, startAssignment (.name name :: rest) = false) :
    startAssignment (e.tokens 0 ++ rest) = false := by
  induction e generalizing rest with
  | number value => rfl
  | «variable» name => exact hrest name
  | unary op operand => rfl
  | binary op left right ihleft =>
      have hleft : 1 ≤ op.leftLevel := by
        unfold BinaryOperator.leftLevel BinaryOperator.level
        split <;> omega
      rw [tokens_binary, List.append_assoc]
      refine startAssignment_of_plain hleft fun hlevel => ihleft hlevel fun name => ?_
      simp [startAssignment, op.assignment?_symbol]
  | conditional test consequent alternative ihtest =>
      rw [tokens_conditional, List.append_assoc]
      exact startAssignment_of_plain (by decide) fun hlevel => ihtest hlevel fun name => rfl
  | assign name op value => cases hlevel

/-- The tokens of an expression are read back at every level, whatever closes the expression or
cannot extend it. -/
structure IsReread (e : Expression) : Prop where
  expression (rest : List Token) (hrest : closes rest = true) :
    Derives .expression (e.tokens 0 ++ rest) e rest
  conditional (rest : List Token) (hrest : closes rest = true) :
    Derives .conditional (e.tokens 1 ++ rest) e rest
  /-- As the first operand of a phrase that goes on as `w`. -/
  climb {strength least : Nat} (hstrength : 1 ≤ strength ∧ strength ≤ 11)
    (hleast : least ≤ strength) {w : Expression} {rest after : List Token}
    (hrest : stopAt (min (strength + 1) 11) rest = true)
    (hclimb : Derives (.climb least e) rest w after) :
    Derives (.binary least) (e.tokens (strength + 1) ++ rest) w after
  unary (rest : List Token) : Derives .unary (e.tokens 13 ++ rest) e rest

namespace IsReread

variable {e : Expression}

/-- In parentheses every expression is an operand. -/
theorem unary_of_expression (hlevel : e.level < 13)
    (h : ∀ rest, closes rest = true → Derives .expression (e.tokens 0 ++ rest) e rest)
    (rest : List Token) : Derives .unary (e.tokens 13 ++ rest) e rest := by
  rw [tokens_of_lt hlevel, List.cons_append, List.append_assoc]
  exact .primary rfl (.group (h _ rfl))

/-- Operands, and what stands in parentheses, can be extended. -/
theorem climb_of_unary (h : ∀ rest, Derives .unary (e.tokens 13 ++ rest) e rest)
    {strength least : Nat} (hlevel : strength + 1 ≤ e.level ↔ 13 ≤ e.level)
    {w : Expression} {rest after : List Token} (hclimb : Derives (.climb least e) rest w after) :
    Derives (.binary least) (e.tokens (strength + 1) ++ rest) w after := by
  rw [tokens_congr hlevel]
  exact .operand (h rest) hclimb

theorem conditional_of_climb (hlevel : 1 ≤ e.level ↔ 2 ≤ e.level)
    (h : ∀ rest, stopAt 2 rest = true → Derives (.climb 1 e) rest e rest →
      Derives (.binary 1) (e.tokens 2 ++ rest) e rest)
    (rest : List Token) (hrest : closes rest = true) :
    Derives .conditional (e.tokens 1 ++ rest) e rest := by
  rw [tokens_congr hlevel]
  exact .test (h rest (Token.stopAt_of_closes hrest 2) (.stop (Token.stopAt_of_closes hrest 1)))
    (Token.head?_of_closes hrest)

theorem expression_of_conditional (hlevel : 1 ≤ e.level)
    (h : ∀ rest, closes rest = true → Derives .conditional (e.tokens 1 ++ rest) e rest)
    (rest : List Token) (hrest : closes rest = true) :
    Derives .expression (e.tokens 0 ++ rest) e rest := by
  refine .whole (startAssignment_tokens e hlevel (Token.startAssignment_of_closes hrest)) ?_
  rw [← tokens_of_le hlevel]
  exact h rest hrest

theorem of_unary (hlevel : 13 ≤ e.level)
    (h : ∀ rest, Derives .unary (e.tokens 13 ++ rest) e rest) : IsReread e := by
  have hconditional := conditional_of_climb (by omega) fun _ _ hclimb =>
    climb_of_unary h (by omega) hclimb
  refine ⟨expression_of_conditional (by omega) hconditional, hconditional, ?_, h⟩
  intro strength least hstrength _ w rest after _ hclimb
  exact climb_of_unary h (by omega) hclimb

theorem number (value : Int64) : IsReread (.number value) :=
  of_unary (Nat.le_succ 13) fun _ => .primary rfl .number

theorem name (name : String) : IsReread (.variable name) :=
  of_unary (Nat.le_succ 13) fun _ => .primary rfl .variable

theorem unaryOperator (op : UnaryOperator) (h : IsReread e) : IsReread (.unary op e) :=
  of_unary (Nat.le_refl 13) fun rest => .unary op.unary?_symbol (h.unary rest)

theorem assign {name : String} {op : Option BinaryOperator} {found : Symbol}
    (hop : assignmentSymbol? op = some found) (h : IsReread e) : IsReread (.assign name op e) := by
  have hlevel : (Expression.assign name op e).level = 0 := rfl
  have hexpression : ∀ rest, closes rest = true →
      Derives .expression ((Expression.assign name op e).tokens 0 ++ rest) (.assign name op e)
        rest := by
    intro rest hrest
    rw [tokens, if_neg (Nat.not_lt_zero _), hop]
    exact .assign (assignment?_of_symbol? hop) (h.expression rest hrest)
  have hunary := unary_of_expression (by omega) hexpression
  refine ⟨hexpression, ?_, ?_, hunary⟩
  · exact conditional_of_climb (by omega) fun _ _ hclimb => climb_of_unary hunary (by omega) hclimb
  · intro strength least _ _ w rest after _ hclimb
    exact climb_of_unary hunary (by omega) hclimb

theorem choice {test consequent alternative : Expression} (htest : IsReread test)
    (hconsequent : IsReread consequent) (halternative : IsReread alternative) :
    IsReread (.conditional test consequent alternative) := by
  have hlevel : (Expression.conditional test consequent alternative).level = 1 := rfl
  have hconditional : ∀ rest, closes rest = true →
      Derives .conditional ((Expression.conditional test consequent alternative).tokens 1 ++ rest)
        (.conditional test consequent alternative) rest := by
    intro rest hrest
    rw [tokens_of_le (Nat.le_of_eq hlevel.symm), tokens_conditional]
    simp only [List.append_assoc, List.cons_append]
    exact .choice (htest.climb (by decide) (Nat.le_refl 1) rfl (.stop rfl))
      (hconsequent.expression _ rfl) (halternative.conditional rest hrest)
  have hexpression := expression_of_conditional (by omega) hconditional
  have hunary := unary_of_expression (by omega) hexpression
  refine ⟨hexpression, hconditional, ?_, hunary⟩
  intro strength least hstrength _ w rest after _ hclimb
  exact climb_of_unary hunary (by omega) hclimb

/-- What stands left of an operator stops before it, and what stands right of it stops where the
whole does. -/
theorem climb_binary {op : BinaryOperator} {left right w : Expression} (hleft : IsReread left)
    (hright : IsReread right) {strength least : Nat} (hstrength : strength ≤ op.strength)
    (hleast : least ≤ strength) {rest after : List Token}
    (hrest : stopAt (min (strength + 1) 11) rest = true)
    (hclimb : Derives (.climb least (.binary op left right)) rest w after) :
    Derives (.binary least) ((Expression.binary op left right).tokens 0 ++ rest) w after := by
  have hone := op.one_le_strength
  have heleven := op.strength_le
  have hbounds : 1 ≤ op.rightLeast op.strength ∧ op.rightLeast op.strength ≤ 11 ∧
      min (strength + 1) 11 ≤ op.rightLeast op.strength := by
    unfold BinaryOperator.rightLeast
    split
    · rename_i hpow
      subst hpow
      exact ⟨hone, heleven, Nat.min_le_right ..⟩
    · rename_i hne
      have := op.strength_lt hne
      omega
  have hoperand : Derives (.binary (op.rightLeast op.strength)) (right.tokens op.rightLevel ++ rest)
      right rest := by
    rw [op.rightLevel_eq]
    exact hright.climb ⟨hbounds.1, hbounds.2.1⟩ (Nat.le_refl _)
      (Token.stopAt_mono (by omega) hrest) (.stop (Token.stopAt_mono hbounds.2.2 hrest))
  have hwhole : Derives (.climb least left)
      (.symbol op.symbol :: (right.tokens op.rightLevel ++ rest)) w after :=
    .operator op.binary?_symbol (Nat.le_trans hleast hstrength) hoperand hclimb
  rw [tokens_binary, List.append_assoc, List.cons_append]
  by_cases hpow : op = .pow
  · subst hpow
    exact .operand (hleft.unary _) hwhole
  · have := op.strength_lt hpow
    rw [op.leftLevel_of_ne hpow]
    exact hleft.climb ⟨hone, heleven⟩ (Nat.le_trans hleast hstrength)
      (Token.stopAt_symbol (by omega) _) hwhole

theorem binary (op : BinaryOperator) {left right : Expression} (hleft : IsReread left)
    (hright : IsReread right) : IsReread (.binary op left right) := by
  have hone := op.one_le_strength
  have heleven := op.strength_le
  have hlevel : (Expression.binary op left right).level = op.strength + 1 := rfl
  have hconditional : ∀ rest, closes rest = true →
      Derives .conditional ((Expression.binary op left right).tokens 1 ++ rest)
        (.binary op left right) rest := by
    refine conditional_of_climb (by omega) fun rest hrest hclimb => ?_
    rw [tokens_of_le (by omega)]
    exact climb_binary hleft hright hone (Nat.le_refl 1) hrest hclimb
  have hexpression := expression_of_conditional (by omega) hconditional
  have hunary := unary_of_expression (by omega) hexpression
  refine ⟨hexpression, hconditional, ?_, hunary⟩
  intro strength least hstrength hleast w rest after hrest hclimb
  by_cases hle : strength ≤ op.strength
  · rw [tokens_of_le (by omega)]
    exact climb_binary hleft hright hle hleast hrest hclimb
  · exact climb_of_unary hunary (by omega) hclimb

end IsReread

theorem isReread {e : Expression} (h : e.isWritable = true) : IsReread e := by
  induction e with
  | number value => exact .number value
  | «variable» name => exact .name name
  | unary op operand ih => exact .unaryOperator op (ih h)
  | binary op left right ihleft ihright =>
      obtain ⟨hleft, hright⟩ := Bool.and_eq_true_iff.mp h
      exact .binary op (ihleft hleft) (ihright hright)
  | conditional test consequent alternative ihtest ihconsequent ihalternative =>
      obtain ⟨h, halternative⟩ := Bool.and_eq_true_iff.mp h
      obtain ⟨htest, hconsequent⟩ := Bool.and_eq_true_iff.mp h
      exact .choice (ihtest htest) (ihconsequent hconsequent) (ihalternative halternative)
  | assign name op value ih =>
      obtain ⟨h, hvalue⟩ := Bool.and_eq_true_iff.mp h
      obtain ⟨-, hop⟩ := Bool.and_eq_true_iff.mp h
      obtain ⟨found, hop⟩ := Option.isSome_iff_exists.mp hop
      exact .assign hop (ih hvalue)

theorem all_isSpelled_of_plain {e : Expression} (h : (e.tokens 0).all Token.isSpelled = true)
    (least : Nat) : (e.tokens least).all Token.isSpelled = true := by
  rcases Nat.lt_or_ge e.level least with hlt | hle
  · rw [tokens_of_lt hlt, List.all_cons, List.all_append, h]
    rfl
  · rwa [tokens_of_le hle]

theorem all_isSpelled {e : Expression} (h : e.isWritable = true) :
    (e.tokens 0).all Token.isSpelled = true := by
  induction e with
  | number value => simpa [tokens, Token.isSpelled, isWritable] using h
  | «variable» name => simpa [tokens, Token.isSpelled, isWritable] using h
  | unary op operand ih =>
      have hoperand := all_isSpelled_of_plain (ih h) 13
      simp [tokens, Token.isSpelled, hoperand]
  | binary op left right ihleft ihright =>
      obtain ⟨hleft, hright⟩ := Bool.and_eq_true_iff.mp h
      rw [tokens_binary, List.all_append, List.all_cons, all_isSpelled_of_plain (ihleft hleft),
        all_isSpelled_of_plain (ihright hright)]
      rfl
  | conditional test consequent alternative ihtest ihconsequent ihalternative =>
      obtain ⟨h, halternative⟩ := Bool.and_eq_true_iff.mp h
      obtain ⟨htest, hconsequent⟩ := Bool.and_eq_true_iff.mp h
      rw [tokens_conditional, List.all_append, List.all_cons, List.all_append, List.all_cons,
        all_isSpelled_of_plain (ihtest htest), ihconsequent hconsequent,
        all_isSpelled_of_plain (ihalternative halternative)]
      rfl
  | assign name op value ih =>
      obtain ⟨h, hvalue⟩ := Bool.and_eq_true_iff.mp h
      obtain ⟨hname, -⟩ := Bool.and_eq_true_iff.mp h
      simp [tokens, Token.isSpelled, hname, ih hvalue]

/-- Every expression that has a spelling is read back from what it is written as. -/
theorem ofText_write (e : Expression) (h : e.isWritable = true) : ofText e.write = .ok e := by
  have hderives := (isReread h).expression [] rfl
  rw [List.append_nil] at hderives
  have hne : e.tokens 0 ≠ [] := by
    intro hnil
    obtain ⟨hlength, -⟩ := reads_of_derives hderives
    rw [hnil] at hlength
    exact Nat.lt_irrefl 0 hlength
  rw [ofText, write, Token.ofText_spelled (List.all_eq_true.mp (all_isSpelled h))]
  exact (ofTokens_eq_ok hne).mpr hderives

/-- Every kind of expression, with parentheses at both sides of a power and around an assignment
after a conditional. -/
def assorted : Expression :=
  .assign "x" (some .shiftLeft) (.conditional
    (.binary .pow (.binary .pow (.variable "_a1") (.unary .not (.number 0)))
      (.binary .mul (.number 9223372036854775807) (.variable "b")))
    (.assign "y" none (.binary .sub (.binary .sub (.number 1) (.number 2))
      (.binary .sub (.number 3) (.unary .negate (.unary .negate (.number 4))))))
    (.conditional (.variable "x") (.number 5) (.assign "z" (some .mod) (.number 6))))

theorem assorted_read_back : assorted.isWritable = true ∧
    assorted.write = "x <<= ( _a1 ** ! 0 ) ** ( 9223372036854775807 * b ) ? " ++
      "y = 1 - 2 - ( 3 - - - 4 ) : x ? 5 : ( z %= 6 )" ∧
    ofText assorted.write = .ok assorted := by
  have hwritable : assorted.isWritable = true := by decide
  exact ⟨hwritable, by decide +kernel, ofText_write assorted hwritable⟩

end Expression

end Conch.Arithmetic
