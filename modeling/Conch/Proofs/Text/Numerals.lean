import Conch.Text.Numeral

/-!
# Numerals read back

The decimal digits of a number are read as the number (`digits?_toDigits`), and have no zero
in front unless they are a zero.  A written integer that lies between the limits is a numeral
for itself (`integer?_toString`).  In another base the same digits have another value, unless
they are zeros up to the last (`readDigits_eq_iff`).
-/

namespace Conch.Text

theorem digit?_ten {c : Char} (h : c.isDigit = true) :
    digit? 10 c = some (c.toNat - '0'.toNat) := by
  have hle : c.toNat ≤ '9'.toNat := by
    simp only [Char.isDigit, Bool.and_eq_true, decide_eq_true_eq] at h
    exact h.2
  have hlt : c.toNat - '0'.toNat < 10 := by
    have h9 : '9'.toNat = 57 := rfl
    have h0 : '0'.toNat = 48 := rfl
    omega
  rw [digit?, if_pos h]
  exact Option.filter_some_pos (decide_eq_true hlt)

theorem isDigit_of_digit?_ten {c : Char} {d : Nat} (h : digit? 10 c = some d) :
    c.isDigit = true := by
  cases hc : c.isDigit with
  | true => rfl
  | false =>
      rw [digit?, hc, if_neg Bool.false_ne_true] at h
      obtain ⟨hvalue, hlt⟩ := Option.filter_eq_some_iff.mp h
      have hlt := of_decide_eq_true hlt
      split at hvalue
      · have := Option.some.inj hvalue
        omega
      · split at hvalue
        · have := Option.some.inj hvalue
          omega
        · cases hvalue

theorem readDigits_ten {text : List Char} (h : ∀ c ∈ text, c.isDigit = true) (value : Nat) :
    readDigits 10 value text = some (Nat.ofDigitChars 10 text value) := by
  induction text generalizing value with
  | nil => rfl
  | cons c rest ih =>
      obtain ⟨hc, hrest⟩ := List.forall_mem_cons.mp h
      rw [readDigits, digit?_ten hc]
      simp only [ih hrest, Nat.ofDigitChars_cons, Nat.mul_comm]

theorem isDigit_of_readDigits_ten {text : List Char} {value result : Nat}
    (h : readDigits 10 value text = some result) : ∀ c ∈ text, c.isDigit = true := by
  induction text generalizing value with
  | nil => simp
  | cons c rest ih =>
      rw [readDigits] at h
      split at h
      · rename_i hdigit
        exact List.forall_mem_cons.mpr ⟨isDigit_of_digit?_ten hdigit, ih h⟩
      · cases h

/-- A number in base ten is nothing but digits. -/
theorem digits?_ten_eq_some {text : List Char} {value : Nat} (h : digits? 10 text = some value) :
    text ≠ [] ∧ ∀ c ∈ text, c.isDigit = true := by
  cases text with
  | nil => cases h
  | cons c rest => exact ⟨List.cons_ne_nil c rest, isDigit_of_readDigits_ten h⟩

theorem isDigit_toDigits {n : Nat} : ∀ c ∈ Nat.toDigits 10 n, c.isDigit = true := fun _ hc =>
  Nat.isDigit_of_mem_toDigits (by decide) (by decide) hc

theorem digits?_toDigits (n : Nat) : digits? 10 (Nat.toDigits 10 n) = some n := by
  have hread : readDigits 10 0 (Nat.toDigits 10 n) = some n := by
    rw [readDigits_ten isDigit_toDigits, Nat.ofDigitChars_ten_toDigits]
  cases hdigits : Nat.toDigits 10 n with
  | nil => exact absurd hdigits Nat.toDigits_ne_nil
  | cons c rest => rwa [hdigits] at hread

/-- Only zero is written with a zero in front. -/
theorem head?_toDigits_ne_zero {n : Nat} (hn : n ≠ 0) : (Nat.toDigits 10 n).head? ≠ some '0' := by
  induction n using Nat.strongRecOn with
  | ind n ih =>
      rw [Nat.toDigits_eq_if (by decide)]
      split
      · rename_i hlt
        intro h
        have hzero : n.digitChar.toNat = '0'.toNat := congrArg Char.toNat (Option.some.inj h)
        rw [Nat.toNat_digitChar_of_lt_ten hlt] at hzero
        exact hn (Nat.add_left_cancel hzero)
      · rename_i hle
        rw [List.head?_append, Option.or_of_isSome (by simp [Nat.toDigits_ne_nil])]
        exact ih (n / 10) (by omega) (by omega)

theorem toList_toString (n : Int) : (toString n).toList =
    if n < 0 then '-' :: Nat.toDigits 10 n.natAbs else Nat.toDigits 10 n.natAbs := by
  cases n with
  | ofNat n => exact Nat.toList_repr
  | negSucc n =>
      rw [if_pos (Int.negSucc_lt_zero n)]
      change ("-" ++ (n + 1).repr).toList = _
      rw [String.toList_append, Nat.toList_repr]
      rfl

/-- What an integer is written as is read as the integer. -/
theorem integer?_toString {least greatest n : Int} (hleast : least ≤ n) (hgreatest : n ≤ greatest) :
    integer? least greatest (toString n) = some n := by
  have hbounds : (decide (least ≤ n) && decide (n ≤ greatest)) = true := by
    simp [hleast, hgreatest]
  have hdigits := digits?_toDigits n.natAbs
  rw [integer?, toList_toString]
  rcases Int.lt_or_le n 0 with hneg | hpos
  · have hvalue : -Int.ofNat n.natAbs = n := by
      rw [Int.ofNat_eq_natCast]
      omega
    rw [if_pos hneg]
    simp only [hdigits, Option.map_some, hvalue]
    exact Option.filter_some_pos hbounds
  · have hvalue : Int.ofNat n.natAbs = n := by
      rw [Int.ofNat_eq_natCast]
      omega
    rw [if_neg (Int.not_lt.mpr hpos)]
    cases htext : Nat.toDigits 10 n.natAbs with
    | nil => exact absurd htext Nat.toDigits_ne_nil
    | cons c rest =>
        have hc : c.isDigit = true := isDigit_toDigits c (htext ▸ List.mem_cons_self)
        split
        · rename_i heq
          cases heq
          cases hc
        · rename_i heq
          cases heq
          cases hc
        · rw [← htext, hdigits, Option.map_some, hvalue]
          exact Option.filter_some_pos hbounds

/-- A numeral is its digits, with a sign before them or none. -/
theorem integer?_eq_some {least greatest n : Int} {text : String}
    (h : integer? least greatest text = some n) :
    ∃ digits value, digits? 10 digits = some value ∧
      (text.toList = '-' :: digits ∧ n = -Int.ofNat value ∨
        (text.toList = digits ∨ text.toList = '+' :: digits) ∧ n = Int.ofNat value) := by
  obtain ⟨hvalue, -⟩ := Option.filter_eq_some_iff.mp h
  split at hvalue
  · rename_i rest htext
    obtain ⟨value, hdigits, rfl⟩ := Option.map_eq_some_iff.mp hvalue
    exact ⟨rest, value, hdigits, .inr ⟨.inr htext, rfl⟩⟩
  · rename_i rest htext
    obtain ⟨value, hdigits, rfl⟩ := Option.map_eq_some_iff.mp hvalue
    exact ⟨rest, value, hdigits, .inl ⟨htext, rfl⟩⟩
  · obtain ⟨value, hdigits, rfl⟩ := Option.map_eq_some_iff.mp hvalue
    exact ⟨text.toList, value, hdigits, .inr ⟨.inl rfl, rfl⟩⟩

theorem bounds_of_integer? {least greatest n : Int} {text : String}
    (h : integer? least greatest text = some n) : least ≤ n ∧ n ≤ greatest := by
  obtain ⟨-, hbounds⟩ := Option.filter_eq_some_iff.mp h
  simpa using hbounds

/-! ## Digits in two bases -/

theorem digit?_larger {base larger d : Nat} {c : Char} (h : digit? base c = some d)
    (hle : base ≤ larger) : digit? larger c = some d := by
  obtain ⟨hvalue, hlt⟩ := Option.filter_eq_some_iff.mp h
  have hlt := of_decide_eq_true hlt
  exact Option.filter_eq_some_iff.mpr ⟨hvalue, decide_eq_true (Nat.lt_of_lt_of_le hlt hle)⟩

theorem digit?_lt {base d : Nat} {c : Char} (h : digit? base c = some d) : d < base :=
  of_decide_eq_true (Option.filter_eq_some_iff.mp h).2

theorem readDigits_cons_eq_some {base value result : Nat} {c : Char} {rest : List Char}
    (h : readDigits base value (c :: rest) = some result) :
    ∃ d, digit? base c = some d ∧ readDigits base (value * base + d) rest = some result := by
  rw [readDigits] at h
  split at h
  · rename_i d hdigit
    exact ⟨d, hdigit, h⟩
  · cases h

/-- Both bases read the same digit. -/
theorem readDigits_cons_both {base larger value value' result result' : Nat} {c : Char}
    {rest : List Char} (hle : base ≤ larger)
    (h : readDigits base value (c :: rest) = some result)
    (h' : readDigits larger value' (c :: rest) = some result') :
    ∃ d, digit? base c = some d ∧ readDigits base (value * base + d) rest = some result ∧
      readDigits larger (value' * larger + d) rest = some result' := by
  obtain ⟨d, hdigit, hrest⟩ := readDigits_cons_eq_some h
  obtain ⟨d', hdigit', hrest'⟩ := readDigits_cons_eq_some h'
  have hsame : d = d' := Option.some.inj ((digit?_larger hdigit hle).symm.trans hdigit')
  exact ⟨d, hdigit, hrest, hsame ▸ hrest'⟩

theorem le_of_readDigits {base value result : Nat} {text : List Char} (hbase : 0 < base)
    (h : readDigits base value text = some result) : value ≤ result := by
  induction text generalizing value with
  | nil =>
      cases h
      exact Nat.le_refl _
  | cons c rest ih =>
      obtain ⟨d, -, hrest⟩ := readDigits_cons_eq_some h
      calc
        value ≤ value * base := Nat.le_mul_of_pos_right value hbase
        _ ≤ value * base + d := Nat.le_add_right _ d
        _ ≤ result := ih hrest

/-- What is less before the digits is less after them in a smaller base. -/
theorem readDigits_lt {base larger value value' result result' : Nat} {text : List Char}
    (hbase : base ≤ larger) (hpos : 0 < base) (hlt : value < value')
    (h : readDigits base value text = some result)
    (h' : readDigits larger value' text = some result') : result < result' := by
  induction text generalizing value value' with
  | nil =>
      cases h
      cases h'
      exact hlt
  | cons c rest ih =>
      obtain ⟨d, -, hrest, hrest'⟩ := readDigits_cons_both hbase h h'
      refine ih (Nat.add_lt_add_right ?_ d) hrest hrest'
      calc
        value * base < value' * base := Nat.mul_lt_mul_of_pos_right hlt hpos
        _ ≤ value' * larger := Nat.mul_le_mul_left value' hbase

/-- Digits have the same value in a smaller base only if all but the last are zeros. -/
theorem readDigits_eq_iff {base larger result result' : Nat} {text : List Char}
    (hbase : base < larger) (hpos : 0 < base) (h : readDigits base 0 text = some result)
    (h' : readDigits larger 0 text = some result') : result = result' ↔ result < base := by
  induction text with
  | nil =>
      cases h
      cases h'
      exact iff_of_true rfl hpos
  | cons c rest ih =>
      obtain ⟨d, hdigit, hrest, hrest'⟩ := readDigits_cons_both (Nat.le_of_lt hbase) h h'
      rw [Nat.zero_mul, Nat.zero_add] at hrest hrest'
      by_cases hzero : d = 0
      · subst hzero
        exact ih hrest hrest'
      cases rest with
      | nil =>
          cases hrest
          cases hrest'
          exact iff_of_true rfl (digit?_lt hdigit)
      | cons next more =>
          obtain ⟨e, -, hmore, hmore'⟩ := readDigits_cons_both (Nat.le_of_lt hbase) hrest hrest'
          have hfirst : d * base + e < d * larger + e :=
            Nat.add_lt_add_right (Nat.mul_lt_mul_of_pos_left hbase (Nat.pos_of_ne_zero hzero)) e
          have hlt := readDigits_lt (Nat.le_of_lt hbase) hpos hfirst hmore hmore'
          have hle := le_of_readDigits hpos hmore
          have hbig : base ≤ d * base := Nat.le_mul_of_pos_left base (Nat.pos_of_ne_zero hzero)
          exact iff_of_false (Nat.ne_of_lt hlt) (by omega)

end Conch.Text
