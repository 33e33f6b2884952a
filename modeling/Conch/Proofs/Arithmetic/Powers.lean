import Conch.Proofs.Arithmetic.Closed
import Conch.Proofs.Arithmetic.Tokens
import Mathlib.RingTheory.Int.Basic

/-!
# Powers

Repeated squaring of a word gives the power of the integer, wrapped around (`power_ofInt`).
Exponents beyond `maxExponent` count as `maxExponent`, so the power of two operands is the
wrapped power of their values for the exponents up to there, for even bases, and for the odd
bases whose powers come back to one over the exponents that were cut off (`evaluate_pow`).
-/

namespace Conch.Arithmetic

theorem power_ofInt (base : Int) (exponent : Nat) :
    power (Int64.ofInt base) exponent = Int64.ofInt (base ^ exponent) := by
  induction exponent using Nat.strongRecOn generalizing base with
  | ind exponent ih =>
      rw [power]
      split
      · rename_i hzero
        rw [hzero, pow_zero]
        rfl
      · have hsplit : exponent = 2 * (exponent / 2) + exponent % 2 :=
          (Nat.div_add_mod exponent 2).symm
        have hsquares : power (Int64.ofInt base * Int64.ofInt base) (exponent / 2) =
            Int64.ofInt (base ^ (2 * (exponent / 2))) := by
          rw [← Int64.ofInt_mul, ih (exponent / 2) (by omega) (base * base), ← pow_two, ← pow_mul]
        dsimp only
        rw [hsquares]
        split
        -- an odd exponent has one factor more than the squares
        · rename_i hodd
          rw [← Int64.ofInt_mul, ← pow_succ', ← hodd, ← hsplit]
        · rename_i heven
          rw [Nat.mod_two_ne_one.mp heven, Nat.add_zero] at hsplit
          rw [← hsplit]

theorem power_toInt (base : Int64) (exponent : Nat) :
    (power base exponent).toInt = (base.toInt ^ exponent).bmod (2 ^ 64) := by
  have hpower := power_ofInt base.toInt exponent
  rw [Int64.ofInt_toInt] at hpower
  rw [hpower, Int64.toInt_ofInt]
  rfl

theorem bmod_eq_bmod_iff_dvd {a b : Int} : a.bmod (2 ^ 64) = b.bmod (2 ^ 64) ↔ 2 ^ 64 ∣ b - a := by
  rw [eq_comm, Int.bmod_eq_bmod_iff_bmod_sub_eq_zero, ← Int.dvd_iff_bmod_eq_zero]
  rfl

/-- Factors may be left out of a power of an odd base only if they multiply to one. -/
theorem dvd_pow_sub_pow_iff {base : Int} {short long : Nat} (hle : short ≤ long)
    (hlong : 64 ≤ short) :
    (2 : Int) ^ 64 ∣ base ^ long - base ^ short ↔
      2 ∣ base ∨ (2 : Int) ^ 64 ∣ base ^ (long - short) - 1 := by
  have hfactor : base ^ long - base ^ short = base ^ short * (base ^ (long - short) - 1) := by
    rw [mul_sub, ← pow_add, Nat.add_sub_cancel' hle, mul_one]
  rw [hfactor]
  constructor
  · intro h
    by_cases heven : 2 ∣ base
    · exact .inl heven
    · have hcoprime : IsCoprime ((2 : Int) ^ 64) (base ^ short) :=
        ((Int.isCoprime_two_left).mpr (Int.odd_iff.mpr (by omega))).pow
      exact .inr (hcoprime.dvd_of_dvd_mul_left h)
  · rintro (heven | hone)
    · exact Dvd.dvd.mul_right ((pow_dvd_pow_of_dvd heven 64).trans (pow_dvd_pow base hlong)) _
    · exact Dvd.dvd.mul_left hone _

/-- An exponent that is cut off leaves the power alone in these cases only. -/
theorem bmod_pow_min_iff (base : Int) (exponent : Nat) :
    (base ^ min exponent maxExponent).bmod (2 ^ 64) = (base ^ exponent).bmod (2 ^ 64) ↔
      exponent ≤ maxExponent ∨ 2 ∣ base ∨ (2 : Int) ^ 64 ∣ base ^ (exponent - maxExponent) - 1 := by
  rcases Nat.le_total exponent maxExponent with hle | hle
  · rw [Nat.min_eq_left hle]
    exact iff_of_true rfl (.inl hle)
  · rw [Nat.min_eq_right hle, bmod_eq_bmod_iff_dvd, dvd_pow_sub_pow_iff hle (by decide)]
    refine ⟨.inr, fun h => h.elim (fun hge => .inr ?_) id⟩
    rw [Nat.sub_eq_zero_of_le hge, pow_zero, sub_self]
    exact dvd_zero _

theorem apply_pow {base exponent : Int64} (h : 0 ≤ exponent) :
    BinaryOperator.apply .pow base exponent =
      .ok (power base (min exponent.toInt.toNat maxExponent)) :=
  if_neg (Int64.not_lt.mpr h)

section

variable {resolve : String → Evaluation Int64} {left right : Expression}
  {before middle after : Bindings String} {base exponent : Int64}

theorem run_binary_pow (hleft : (left.evaluate resolve).run before = (.ok base, middle))
    (hright : (right.evaluate resolve).run middle = (.ok exponent, after)) :
    ((Expression.binary .pow left right).evaluate resolve).run before =
      (BinaryOperator.apply .pow base exponent, after) := by
  rw [Expression.evaluate_binary (by decide) (by decide), run_bind_of_ok hleft,
    run_bind_of_ok hright, run_liftExcept]

/-- A power is the wrapped power of the values of its operands, the exponent cut off at
`maxExponent`. -/
theorem evaluate_pow (hleft : (left.evaluate resolve).run before = (.ok base, middle))
    (hright : (right.evaluate resolve).run middle = (.ok exponent, after)) (h : 0 ≤ exponent) :
    ∃ result,
      ((Expression.binary .pow left right).evaluate resolve).run before = (.ok result, after) ∧
      result.toInt = (base.toInt ^ min exponent.toInt.toNat maxExponent).bmod (2 ^ 64) ∧
      (result.toInt = (base.toInt ^ exponent.toInt.toNat).bmod (2 ^ 64) ↔
        exponent.toInt.toNat ≤ maxExponent ∨ 2 ∣ base.toInt ∨
          (2 : Int) ^ 64 ∣ base.toInt ^ (exponent.toInt.toNat - maxExponent) - 1) := by
  have hvalue := power_toInt base (min exponent.toInt.toNat maxExponent)
  refine ⟨_, (run_binary_pow hleft hright).trans (by rw [apply_pow h]), hvalue, ?_⟩
  rw [hvalue]
  exact bmod_pow_min_iff base.toInt exponent.toInt.toNat

end

/-- The power wraps around. -/
theorem evaluate_pow_wrapped :
    ∃ result,
      ((Expression.binary .pow (.number 3) (.number 41)).evaluate (resolve 0)).run ∅ =
        (.ok result, ∅) ∧
      result.toInt = ((3 : Int) ^ 41).bmod (2 ^ 64) := by
  have hleft : ((Expression.number 3).evaluate (resolve 0)).run ∅ = (.ok 3, ∅) := rfl
  have hright : ((Expression.number 41).evaluate (resolve 0)).run ∅ = (.ok 41, ∅) := rfl
  obtain ⟨result, hrun, -, hexact⟩ := evaluate_pow hleft hright (by decide)
  exact ⟨result, hrun, hexact.mpr (.inl (by decide))⟩

theorem ofText_pow_cut_off : Expression.ofText "(-1) ** 4294967296" =
    .ok (.binary .pow (.unary .negate (.number 1)) (.number 4294967296)) := by
  have hopening : Token.read '(' ['-', '1', ')'] = .ok (.symbol .opening, ['-', '1', ')']) := rfl
  have hminus : Token.read '-' ['1', ')'] = .ok (.symbol .minus, ['1', ')']) := rfl
  have hone : Token.read '1' [')'] = .ok (.number 1, [')']) := rfl
  have hclosing : Token.read ')' [] = .ok (.symbol .closing, []) := rfl
  have hbase : Token.ofText ['(', '-', '1', ')'] =
      .ok [.symbol .opening, .symbol .minus, .number 1, .symbol .closing] := by
    rw [Token.ofText_of_read rfl hopening, Token.ofText_of_read rfl hminus,
      Token.ofText_of_read rfl hone, Token.ofText_of_read_all rfl hclosing]
    rfl
  have hsplit : "(-1) ** 4294967296".toList = ['(', '-', '1', ')'] ++
      ' ' :: (Token.write [.symbol .starStar, .number 4294967296]).toList := by decide +kernel
  have hpower : ∀ token ∈ [Token.symbol .starStar, .number 4294967296],
      token.isSpelled = true := by simp [Token.isSpelled]
  rw [Expression.ofText, hsplit, Token.ofText_append rfl, hbase, Token.ofText_blank rfl,
    Token.ofText_spelled hpower]
  cbv

/-- A negative one to an even power that is cut off to an odd one. -/
theorem value_pow_cut_off :
    value "(-1) ** 4294967296" ∅ = (.ok (-1), ∅) ∧
      ((-1 : Int) ^ (4294967296 : Int64).toInt.toNat).bmod (2 ^ 64) = 1 := by
  -- the exponent counts as `maxExponent`, which is odd
  have hodd : power (-1) (min (4294967296 : Int64).toInt.toNat maxExponent) = -1 := by
    rw [← Int64.toInt_inj, power_toInt]
    change ((-1 : Int) ^ 4294967295).bmod (2 ^ 64) = -1
    rw [Odd.neg_one_pow (by decide)]
    rfl
  have hleft : ((Expression.unary .negate (.number 1)).evaluate (resolve maxResolveDepth)).run ∅ =
      (.ok (-1), ∅) := rfl
  have hright : ((Expression.number 4294967296).evaluate (resolve maxResolveDepth)).run ∅ =
      (.ok 4294967296, ∅) := rfl
  constructor
  · rw [value, ofText_pow_cut_off]
    exact (run_binary_pow hleft hright).trans (by rw [apply_pow (by decide), hodd])
  · change ((-1 : Int) ^ 4294967296).bmod (2 ^ 64) = 1
    rw [Even.neg_one_pow (by decide)]
    rfl

end Conch.Arithmetic
