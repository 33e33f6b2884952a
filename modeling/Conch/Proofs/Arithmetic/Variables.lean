import Conch.Proofs.Arithmetic.Closed
import Conch.Proofs.Arithmetic.Tokens

/-!
# Values that variables hold

A variable that holds a numeral is its value at once, and one that holds another text is the
value of the text as an expression.  For a text without names that makes no difference
(`value_name_of_held`), but for a numeral that zeros lead: as an expression it is read in base
eight, and from a variable in base ten.
-/

namespace Conch.Arithmetic

open Text (isBlank)

/-! ## Signed digits -/

/-- Digits led by a zero stand for their value in base eight. -/
theorem numberOf_octal {c : Char} {rest : List Char} (hc : c.isDigit = true) :
    numberOf ('0' :: c :: rest) =
      match Text.digits? 8 (c :: rest) with
      | some value =>
          if value < 0x8000000000000000 then .ok (Int64.ofNat value)
          else .error (.badNumber (String.ofList ('0' :: c :: rest)))
      | none => .error (.badNumber (String.ofList ('0' :: c :: rest))) := by
  unfold numberOf
  split
  · rename_i heq
    cases heq
    cases hc
  · rename_i heq
    cases heq
    cases hc
  · rename_i heq
    cases heq
    rfl
  · rename_i hnot
    exact absurd rfl (hnot c rest)

/-- The digits of a number are its digits in base ten unless a zero leads them and it is more
than one digit in base eight. -/
theorem numberOf_digits {digits : List Char} {decimal : Nat} {value : Int64}
    (hdigits : Text.digits? 10 digits = some decimal) (h : numberOf digits = .ok value) :
    ∃ magnitude, magnitude < 0x8000000000000000 ∧ value = Int64.ofNat magnitude ∧
      (magnitude = decimal ↔ (leadsWithZero digits = true → magnitude < 8)) := by
  cases hlead : leadsWithZero digits with
  | false =>
      rw [numberOf_decimal hdigits hlead] at h
      split at h
      · rename_i hlt
        cases h
        exact ⟨decimal, hlt, rfl, iff_of_true rfl nofun⟩
      · cases h
  | true =>
      unfold leadsWithZero at hlead
      split at hlead
      · rename_i c rest
        have hc := (Text.digits?_ten_eq_some hdigits).2 c (by simp)
        rw [numberOf_octal hc] at h
        split at h
        · rename_i octal hoctal
          split at h
          · rename_i hlt
            cases h
            have hten : Text.readDigits 10 0 (c :: rest) = some decimal := hdigits
            have hvalues := Text.readDigits_eq_iff (by decide) (by decide) hoctal hten
            exact ⟨octal, hlt, rfl, hvalues.trans ⟨fun h _ => h, fun h => h rfl⟩⟩
          · cases h
        · cases h
      · cases hlead

theorem symbolAt_sign {c : Char} {rest : List Char} (hc : c.isDigit = true) :
    symbolAt ('-' :: c :: rest) = some .minus ∧ symbolAt ('+' :: c :: rest) = some .plus := by
  have hne : ('=' == c) = false := by
    rw [beq_eq_false_iff_ne]
    rintro rfl
    cases hc
  constructor <;> simp [symbolAt, Symbol.all, Symbol.text, List.isPrefixOf, hne]

/-- A sign before digits is a token of its own. -/
theorem ofText_sign {sign : Char} {found : Symbol} {digits : List Char}
    (hsign : isBlank sign = false ∧ sign.isDigit = false ∧ Syntax.isNameStart sign = false)
    (hfound : found.text.length = 1) (hread : symbolAt (sign :: digits) = some found)
    (hne : digits ≠ []) (hdigits : ∀ c ∈ digits, c.isDigit = true) :
    Token.ofText (sign :: digits) =
      (numberOf digits).map fun value => [.symbol found, .number value] := by
  obtain ⟨hblank, hdigit, hname⟩ := hsign
  have htoken : Token.read sign digits = .ok (.symbol found, digits) := by
    rw [Token.read, hdigit, if_neg Bool.false_ne_true, hname, if_neg Bool.false_ne_true, hread]
    simp only [hfound, Nat.sub_self, List.drop_zero]
  rw [Token.ofText_of_read hblank htoken, Token.ofText_of_isDigit hne hdigits]
  cases numberOf digits <;> rfl

theorem ofTokens_number (value : Int64) :
    Expression.ofTokens [.number value] = .ok (.number value) :=
  (ofTokens_eq_ok (List.cons_ne_nil _ _)).mpr
    (.whole rfl (.test (.operand (.primary rfl .number) (.stop rfl)) nofun))

theorem ofTokens_unary_number {found : Symbol} {op : UnaryOperator} (hop : found.unary? = some op)
    (value : Int64) :
    Expression.ofTokens [.symbol found, .number value] = .ok (.unary op (.number value)) :=
  (ofTokens_eq_ok (List.cons_ne_nil _ _)).mpr
    (.whole rfl (.test (.operand (.unary hop (.primary rfl .number)) (.stop rfl)) nofun))

section

variable {text : String} {digits : List Char} (hne : digits ≠ [])
  (hdigits : ∀ c ∈ digits, c.isDigit = true) (bindings : Bindings String)

include hne hdigits

theorem value_digits (htext : text.toList = digits) :
    value text bindings = (numberOf digits, bindings) := by
  unfold value Expression.ofText
  rw [htext, Token.ofText_of_isDigit hne hdigits]
  cases numberOf digits with
  | error fault => rfl
  | ok value =>
      simp only [Except.map, ofTokens_number]
      rfl

theorem value_sign {sign : Char} {found : Symbol} {op : UnaryOperator}
    (hsign : isBlank sign = false ∧ sign.isDigit = false ∧ Syntax.isNameStart sign = false)
    (hfound : found.text.length = 1) (hread : symbolAt (sign :: digits) = some found)
    (hop : found.unary? = some op) (htext : text.toList = sign :: digits) :
    value text bindings = ((numberOf digits).map op.apply, bindings) := by
  unfold value Expression.ofText
  rw [htext, ofText_sign hsign hfound hread hne hdigits]
  cases numberOf digits with
  | error fault => rfl
  | ok value =>
      simp only [Except.map, ofTokens_unary_number hop]
      rfl

theorem value_minus (htext : text.toList = '-' :: digits) :
    value text bindings = ((numberOf digits).map fun value => -value, bindings) := by
  have hread : symbolAt ('-' :: digits) = some .minus := by
    obtain ⟨c, rest, rfl⟩ := List.exists_cons_of_ne_nil hne
    exact (symbolAt_sign (hdigits c List.mem_cons_self)).1
  exact value_sign hne hdigits bindings (by decide) rfl hread rfl htext

theorem value_plus (htext : text.toList = '+' :: digits) :
    value text bindings = (numberOf digits, bindings) := by
  have hread : symbolAt ('+' :: digits) = some .plus := by
    obtain ⟨c, rest, rfl⟩ := List.exists_cons_of_ne_nil hne
    exact (symbolAt_sign (hdigits c List.mem_cons_self)).2
  rw [value_sign hne hdigits bindings (by decide) rfl hread rfl htext]
  cases numberOf digits <;> rfl

end

/-- What stands after a sign. -/
def unsigned : List Char → List Char
  | '-' :: rest => rest
  | '+' :: rest => rest
  | text => text

theorem unsigned_of_isDigit {digits : List Char} (h : ∀ c ∈ digits, c.isDigit = true) :
    unsigned digits = digits := by
  unfold unsigned
  split
  · cases h '-' List.mem_cons_self
  · cases h '+' List.mem_cons_self
  · rfl

/-- Digits with a sign or none are the number that the digits are, or its negative. -/
theorem signed_of_value {text : String} {digits : List Char} {decimal : Nat} {m : Int} {n : Int64}
    {before after : Bindings String} (hne : digits ≠ [])
    (hdigits : ∀ c ∈ digits, c.isDigit = true)
    (hform : text.toList = '-' :: digits ∧ m = -Int.ofNat decimal ∨
      (text.toList = digits ∨ text.toList = '+' :: digits) ∧ m = Int.ofNat decimal)
    (hvalue : value text before = (.ok n, after)) :
    unsigned text.toList = digits ∧ after = before ∧ ∃ number, numberOf digits = .ok number ∧
      (m = -Int.ofNat decimal ∧ n = -number ∨ m = Int.ofNat decimal ∧ n = number) := by
  rcases hform with ⟨htext, hm⟩ | ⟨htext | htext, hm⟩
  · rw [value_minus hne hdigits before htext] at hvalue
    cases hnumber : numberOf digits with
    | error fault =>
        rw [hnumber] at hvalue
        cases hvalue
    | ok number =>
        rw [hnumber] at hvalue
        cases hvalue
        exact ⟨by rw [htext, unsigned], rfl, number, rfl, .inl ⟨hm, rfl⟩⟩
  · rw [value_digits hne hdigits before htext] at hvalue
    obtain ⟨hnumber, hafter⟩ := Prod.mk.inj hvalue
    exact ⟨by rw [htext, unsigned_of_isDigit hdigits], hafter.symm, n, hnumber, .inr ⟨hm, rfl⟩⟩
  · rw [value_plus hne hdigits before htext] at hvalue
    obtain ⟨hnumber, hafter⟩ := Prod.mk.inj hvalue
    exact ⟨by rw [htext, unsigned], hafter.symm, n, hnumber, .inr ⟨hm, rfl⟩⟩

/-- The value of a numeral as an expression is the numeral unless zeros lead its digits and it
is more than one digit in base eight. -/
theorem eq_of_signed64? {text : String} {m : Int} {n : Int64} {before after : Bindings String}
    (hread : Text.signed64? text = some m) (hvalue : value text before = (.ok n, after)) :
    after = before ∧
      (Int64.ofInt m = n ↔ (leadsWithZero (unsigned text.toList) = true → n.toInt.natAbs < 8)) := by
  obtain ⟨digits, decimal, hdecimal, hform⟩ := Text.integer?_eq_some hread
  obtain ⟨hne, hdigits⟩ := Text.digits?_ten_eq_some hdecimal
  obtain ⟨htext, hafter, number, hnumber, hsigned⟩ := signed_of_value hne hdigits hform hvalue
  obtain ⟨magnitude, hlt, hmagnitude, hsame⟩ := numberOf_digits hdecimal hnumber
  have hword : Int64.ofInt m = n ↔ m = n.toInt := by
    obtain ⟨hleast, hgreatest⟩ := Text.bounds_of_integer? hread
    rw [← Int64.toInt_inj, Int64.toInt_ofInt_of_le hleast (Int.lt_add_one_iff.mpr hgreatest)]
  refine ⟨hafter, ?_⟩
  rw [hword, htext]
  rcases hsigned with ⟨rfl, rfl⟩ | ⟨rfl, rfl⟩
  · rw [hmagnitude, Int64.toInt_neg_ofNat_of_le (Nat.le_of_lt hlt), Int.natAbs_neg,
      Int.natAbs_natCast, ← hsame, Int.ofNat_eq_natCast]
    omega
  · rw [hmagnitude, Int64.toInt_ofNat_of_lt hlt, Int.natAbs_natCast, ← hsame, Int.ofNat_eq_natCast]
    omega

/-! ## Names -/

theorem run_resolveWith (evaluateText : String → String → Evaluation Int64) (name : String)
    (bindings : Bindings String) :
    (resolveWith evaluateText name).run bindings =
      if (Text.trim ((bindings.get? name).getD "")).isEmpty then (.ok 0, bindings)
      else
        match Text.signed64? (Text.trim ((bindings.get? name).getD "")) with
        | some value => (.ok (Int64.ofInt value), bindings)
        | none => (evaluateText name (Text.trim ((bindings.get? name).getD ""))).run bindings := by
  have hget : (get : Evaluation (Bindings String)).run bindings = (.ok bindings, bindings) := rfl
  rw [resolveWith, run_bind_of_ok hget]
  generalize Text.trim ((bindings.get? name).getD "") = held
  dsimp only
  cases held.isEmpty with
  | true => rfl
  | false => cases Text.signed64? held <;> rfl

/-- A name is the expression that stands for what the variable holds. -/
theorem value_name {name : String} (hname : Syntax.isName name = true)
    (bindings : Bindings String) :
    value name bindings = (resolve maxResolveDepth name).run bindings := by
  have hparsed : Expression.ofTokens [.name name] = .ok (.variable name) :=
    (ofTokens_eq_ok (List.cons_ne_nil _ _)).mpr
      (.whole rfl (.test (.operand (.primary rfl .variable) (.stop rfl)) nofun))
  unfold value Expression.ofText
  rw [Token.ofText_name hname]
  dsimp only
  rw [hparsed]
  rfl

theorem Expression.ofText_trim (text : String) :
    Expression.ofText (Text.trim text) = Expression.ofText text := by
  rw [Expression.ofText, Expression.ofText, Token.ofText_trim]

theorem value_trim (text : String) (bindings : Bindings String) :
    value (Text.trim text) bindings = value text bindings := by
  rw [value, value, Expression.ofText_trim]

theorem value_empty (bindings : Bindings String) : value "" bindings = (.ok 0, bindings) := by
  rw [value, Expression.ofText, String.toList_empty, Token.ofText_nil]
  rfl

/-- The text has a token that is a name. -/
def mentionsName (text : String) : Bool :=
  match Token.ofText text.toList with
  | .ok tokens => tokens.any Token.isName
  | .error _ => false

theorem settles_of_ofText {text : String} {e : Expression} (h : mentionsName text = false)
    (hparsed : Expression.ofText text = .ok e) :
    ∃ result, ∀ resolve, (e.evaluate resolve).Settles result := by
  unfold Expression.ofText at hparsed
  unfold mentionsName at h
  cases htokens : Token.ofText text.toList with
  | error fault =>
      rw [htokens] at hparsed
      cases hparsed
  | ok tokens =>
      rw [htokens] at hparsed h
      exact Expression.settles_of_isClosed (isClosed_of_ofTokens hparsed h)

/-- Without names a text is evaluated alike wherever it stands, and changes no variable. -/
theorem run_value_of_not_mentionsName {text : String} {n : Int64} {before after : Bindings String}
    (h : mentionsName text = false) (hvalue : value text before = (.ok n, after)) :
    after = before ∧ ∃ e, Expression.ofText text = .ok e ∧
      ∀ resolve, (e.evaluate resolve).Settles (.ok n) := by
  unfold value at hvalue
  cases hparsed : Expression.ofText text with
  | error fault =>
      rw [hparsed] at hvalue
      cases hvalue
  | ok e =>
      rw [hparsed] at hvalue
      obtain ⟨result, hresult⟩ := settles_of_ofText h hparsed
      obtain ⟨hn, hafter⟩ := Prod.mk.inj ((hresult _ before).symm.trans hvalue)
      exact ⟨hafter.symm, e, rfl, hn ▸ hresult⟩

/-- The text is a numeral within the limits of a word, and zeros lead its digits. -/
def isPadded (text : String) : Bool :=
  (Text.signed64? text).isSome && leadsWithZero (unsigned text.toList)

/-- A variable has the value of the text it holds, when there are no names in the text, unless
the text is a numeral that zeros lead and more than one digit in base eight. -/
theorem value_name_of_held {name held : String} {n : Int64} {bindings after : Bindings String}
    (hname : Syntax.isName name = true) (hheld : bindings.get? name = some held)
    (hclosed : mentionsName held = false) (hvalue : value held bindings = (.ok n, after)) :
    ∃ m, value name bindings = (.ok m, bindings) ∧
      (m = n ↔ (isPadded (Text.trim held) = true → n.toInt.natAbs < 8)) := by
  rw [value_name hname]
  change ∃ m, (resolveWith _ name).run bindings = _ ∧ _
  rw [run_resolveWith, hheld, Option.getD_some]
  -- nothing but blanks, a numeral, or another expression
  split
  · rename_i hempty
    rw [← value_trim, String.isEmpty_iff.mp hempty, value_empty] at hvalue
    cases hvalue
    rw [String.isEmpty_iff.mp hempty]
    exact ⟨0, rfl, iff_of_true rfl nofun⟩
  · split
    · rename_i m hread
      refine ⟨Int64.ofInt m, rfl, ?_⟩
      rw [← value_trim] at hvalue
      rw [(eq_of_signed64? hread hvalue).2, isPadded, hread]
      simp
    · rename_i hread
      obtain ⟨-, e, hparsed, hsettles⟩ := run_value_of_not_mentionsName hclosed hvalue
      refine ⟨n, ?_, iff_of_true rfl fun hpadded => ?_⟩
      -- one level deeper the variables are resolved less far, but there are none
      · rw [Expression.ofText_trim, hparsed]
        exact hsettles (resolve 15) bindings
      · rw [isPadded, hread] at hpadded
        cases hpadded

/-- A sum that a variable holds is computed. -/
theorem value_of_held_sum : value "3 + 4" ⟨[("x", "3 + 4")]⟩ = (.ok 7, ⟨[("x", "3 + 4")]⟩) ∧
    value "x" ⟨[("x", "3 + 4")]⟩ = (.ok 7, ⟨[("x", "3 + 4")]⟩) := by
  have htokens : Token.ofText "3 + 4".toList = .ok [.number 3, .symbol .plus, .number 4] := by
    have hwrite : "3 + 4" = Token.write [.number 3, .symbol .plus, .number 4] := by decide +kernel
    rw [hwrite]
    exact Token.ofText_spelled (by simp [Token.isSpelled])
  have hparsed : Expression.ofText "3 + 4" = .ok (.binary .add (.number 3) (.number 4)) := by
    rw [Expression.ofText, htokens]
    cbv
  have hvalue : value "3 + 4" ⟨[("x", "3 + 4")]⟩ = (.ok 7, ⟨[("x", "3 + 4")]⟩) := by
    rw [value, hparsed]
    rfl
  have hclosed : mentionsName "3 + 4" = false := by
    rw [mentionsName, htokens]
    rfl
  have hname : Syntax.isName "x" = true := by decide
  obtain ⟨m, hm, hsame⟩ := value_name_of_held hname rfl hclosed hvalue
  obtain rfl : m = 7 := hsame.mpr fun _ => by decide
  exact ⟨hvalue, hm⟩

/-- Digits that are read in base eight are taken in base ten when a variable holds them. -/
theorem value_of_held_octal :
    mentionsName "010" = false ∧
      value "010" ⟨[("x", "010")]⟩ = (.ok 8, ⟨[("x", "010")]⟩) ∧
      value "x" ⟨[("x", "010")]⟩ = (.ok 10, ⟨[("x", "010")]⟩) := by
  have hne : ['0', '1', '0'] ≠ [] := List.cons_ne_nil _ _
  have hdigits : ∀ c ∈ ['0', '1', '0'], c.isDigit = true := by simp
  refine ⟨?_, ?_, ?_⟩
  · have htokens : Token.ofText "010".toList = .ok [.number 8] :=
      Token.ofText_of_isDigit hne hdigits
    rw [mentionsName, htokens]
    rfl
  · exact value_digits hne hdigits _ rfl
  · rw [value_name (by decide)]
    rfl

end Conch.Arithmetic
