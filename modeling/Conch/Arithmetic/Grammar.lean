import Conch.Arithmetic.Token

/-!
# Reading expressions

Precedence climbing over tokens.  Assignment binds loosest and to the right, then
the conditional, the binary operators by their strength, the unary operators and
the primaries.  Every parser returns the tokens it left, which are fewer than it
was given.
-/

namespace Conch.Arithmetic

/-- What a parser leaves of its tokens. -/
abbrev Rest (tokens : List Token) := { rest : List Token // rest.length < tokens.length }

/-- An operand is climbed from tokens that may all be left. -/
abbrev RestLe (tokens : List Token) := { rest : List Token // rest.length ≤ tokens.length }

def expect (symbol : Symbol) (tokens : List Token) : Except Fault (Rest tokens) :=
  match tokens with
  | .symbol found :: rest =>
      if found = symbol then .ok ⟨rest, Nat.lt_succ_self _⟩ else .error (.expected symbol)
  | _ => .error (.expected symbol)

mutual

/-- An assignment or a conditional. -/
def expression (tokens : List Token) : Except Fault (Expression × Rest tokens) :=
  match tokens with
  | .name name :: .symbol symbol :: rest =>
      match symbol.assignment? with
      | some op =>
          match expression rest with
          | .error fault => .error fault
          | .ok (value, ⟨rest', h⟩) =>
              .ok (.assign name op value, ⟨rest', Nat.lt_succ_of_lt (Nat.lt_succ_of_lt h)⟩)
      | none => conditional (.name name :: .symbol symbol :: rest)
  | tokens => conditional tokens
termination_by (tokens.length, 4)

def conditional (tokens : List Token) : Except Fault (Expression × Rest tokens) :=
  match binary 1 tokens with
  | .error fault => .error fault
  | .ok (test, ⟨.symbol .question :: afterMark, h⟩) =>
      match expression afterMark with
      | .error fault => .error fault
      | .ok (consequent, ⟨afterConsequent, hc⟩) =>
          match expect .colon afterConsequent with
          | .error fault => .error fault
          | .ok ⟨afterColon, hk⟩ =>
              match conditional afterColon with
              | .error fault => .error fault
              | .ok (alternative, ⟨rest, hr⟩) =>
                  .ok (.conditional test consequent alternative,
                    ⟨rest, by simp only [List.length_cons] at h; omega⟩)
  | .ok (test, rest) => .ok (test, rest)
termination_by (tokens.length, 3)
decreasing_by
  all_goals (try simp only [List.length_cons] at *)
  all_goals omega

/-- Operands joined by operators that bind at least this tightly. -/
def binary (least : Nat) (tokens : List Token) : Except Fault (Expression × Rest tokens) :=
  match unary tokens with
  | .error fault => .error fault
  | .ok (left, ⟨rest, h⟩) =>
      match climb least left rest with
      | .error fault => .error fault
      | .ok (whole, ⟨rest', h'⟩) => .ok (whole, ⟨rest', Nat.lt_of_le_of_lt h' h⟩)
termination_by (tokens.length, 2)

/-- Extends a left operand by the operators after it; powers group to the right. -/
def climb (least : Nat) (left : Expression) (tokens : List Token) :
    Except Fault (Expression × RestLe tokens) :=
  match tokens with
  | .symbol symbol :: rest =>
      match symbol.binary? with
      | none => .ok (left, ⟨.symbol symbol :: rest, Nat.le_refl _⟩)
      | some (op, strength) =>
          if strength < least then .ok (left, ⟨.symbol symbol :: rest, Nat.le_refl _⟩)
          else
            match binary (if op = .pow then strength else strength + 1) rest with
            | .error fault => .error fault
            | .ok (right, ⟨after, h⟩) =>
                match climb least (.binary op left right) after with
                | .error fault => .error fault
                | .ok (whole, ⟨after', h'⟩) =>
                    .ok (whole, ⟨after', by simp only [List.length_cons]; omega⟩)
  | tokens => .ok (left, ⟨tokens, Nat.le_refl _⟩)
termination_by (tokens.length, 1)
decreasing_by
  all_goals simp_wf
  all_goals omega

def unary (tokens : List Token) : Except Fault (Expression × Rest tokens) :=
  match tokens with
  | .symbol symbol :: rest =>
      match symbol.unary? with
      | some op =>
          match unary rest with
          | .error fault => .error fault
          | .ok (operand, ⟨rest', h⟩) => .ok (.unary op operand, ⟨rest', Nat.lt_succ_of_lt h⟩)
      | none => primary (.symbol symbol :: rest)
  | tokens => primary tokens
termination_by (tokens.length, 1)

def primary (tokens : List Token) : Except Fault (Expression × Rest tokens) :=
  match tokens with
  | .number value :: rest => .ok (.number value, ⟨rest, Nat.lt_succ_self _⟩)
  | .name name :: rest => .ok (.variable name, ⟨rest, Nat.lt_succ_self _⟩)
  | .symbol symbol :: rest =>
      if symbol = .opening then
        match expression rest with
        | .error fault => .error fault
        | .ok (inner, ⟨after, h⟩) =>
            match expect .closing after with
            | .error fault => .error fault
            | .ok ⟨rest', h'⟩ => .ok (inner, ⟨rest', by simp only [List.length_cons]; omega⟩)
      else .error (.operandExpected (some symbol))
  | [] => .error (.operandExpected none)
termination_by (tokens.length, 0)

end

/-- The expression that tokens spell; no tokens at all spell zero. -/
def Expression.ofTokens : List Token → Except Fault Expression
  | [] => .ok (.number 0)
  | tokens =>
      match expression tokens with
      | .error fault => .error fault
      | .ok (whole, ⟨[], _⟩) => .ok whole
      | .ok (_, ⟨token :: _, _⟩) => .error (.leftOver token)

def Expression.ofText (text : String) : Except Fault Expression :=
  match Token.ofText text.toList with
  | .error fault => .error fault
  | .ok tokens => ofTokens tokens

end Conch.Arithmetic
