import Conch.Arithmetic.Evaluation
import Conch.Proofs.Lexing.Pieces
import Conch.Proofs.Text.Numerals
import Mathlib.Data.List.TakeWhile

/-!
# Tokens read back

A text is divided at a blank without a loss: its tokens are those before the blank and those
after it (`ofText_append`).  So blanks around a text do not matter (`ofText_trim`), and tokens
that are written with a blank between them are read back (`ofText_spelled`).
-/

namespace Conch.Arithmetic

open Text (isBlank)

/-- A blank is no part of a name or a number. -/
theorem isAlphanum_of_isBlank {c : Char} (h : isBlank c = true) : c.isAlphanum = false := by
  have hA : 'A'.val.toNat = 65 := rfl
  have hZ : 'Z'.val.toNat = 90 := rfl
  have ha : 'a'.val.toNat = 97 := rfl
  have hz : 'z'.val.toNat = 122 := rfl
  have h0 : '0'.val.toNat = 48 := rfl
  have h9 : '9'.val.toNat = 57 := rfl
  have hranges : c.isAlphanum =
      (decide ('A'.val ≤ c.val ∧ c.val ≤ 'Z'.val) ||
        decide ('a'.val ≤ c.val) && decide (c.val ≤ 'z'.val) ||
        decide ('0'.val ≤ c.val) && decide (c.val ≤ '9'.val)) := rfl
  simp only [isBlank, Char.toNat, Bool.or_eq_true, Bool.and_eq_true, decide_eq_true_eq,
    beq_iff_eq] at h
  rw [hranges]
  simp only [UInt32.le_iff_toNat_le, Bool.or_eq_false_iff, Bool.and_eq_false_iff,
    decide_eq_false_iff_not, not_and_or]
  omega

theorem isNameChar_of_isBlank {c : Char} (h : isBlank c = true) : Syntax.isNameChar c = false := by
  have hline : c ≠ '_' := by
    rintro rfl
    exact absurd h (by decide)
  simp [Syntax.isNameChar, isAlphanum_of_isBlank h, hline]

theorem not_isBlank_of_isNameChar {c : Char} (h : Syntax.isNameChar c = true) :
    isBlank c = false := by
  cases hblank : isBlank c with
  | false => rfl
  | true => cases h.symm.trans (isNameChar_of_isBlank hblank)

/-- A name starts with one kind of character and goes on with another. -/
theorem exists_of_isName {name : String} (h : Syntax.isName name = true) :
    ∃ c rest, name.toList = c :: rest ∧ Syntax.isNameStart c = true ∧
      ∀ d ∈ rest, Syntax.isNameChar d = true := by
  unfold Syntax.isName at h
  split at h
  · cases h
  · rename_i c rest htext
    obtain ⟨hc, hrest⟩ := Bool.and_eq_true_iff.mp h
    exact ⟨c, rest, htext, hc, List.all_eq_true.mp hrest⟩

theorem Symbol.not_isBlank {found : Symbol} : ∀ c ∈ found.text.toList, isBlank c = false := by
  have hall : found.text.toList.all (fun c => !isBlank c) = true := by cases found <;> decide
  exact fun c hc => by simpa using List.all_eq_true.mp hall c hc

section

variable {text rest : List Char} (hrest : rest.head?.all isBlank = true)

include hrest

theorem takeWhile_append_blank {p : Char → Bool} (hp : ∀ c, isBlank c = true → p c = false) :
    (text ++ rest).takeWhile p = text.takeWhile p := by
  induction text with
  | nil =>
      cases rest with
      | nil => rfl
      | cons c more => simp [hp c hrest]
  | cons c text ih => simp only [List.cons_append, List.takeWhile_cons, ih]

theorem dropWhile_append_blank {p : Char → Bool} (hp : ∀ c, isBlank c = true → p c = false) :
    (text ++ rest).dropWhile p = text.dropWhile p ++ rest := by
  induction text with
  | nil =>
      cases rest with
      | nil => rfl
      | cons c more => simp [hp c hrest]
  | cons c text ih =>
      simp only [List.cons_append, List.dropWhile_cons, ih]
      split <;> rfl

theorem isPrefixOf_append_blank {start : List Char} (hstart : ∀ c ∈ start, isBlank c = false) :
    start.isPrefixOf (text ++ rest) = start.isPrefixOf text := by
  induction start generalizing text with
  | nil => simp
  | cons c start ih =>
      obtain ⟨hc, hstart⟩ := List.forall_mem_cons.mp hstart
      cases text with
      | nil =>
          cases rest with
          | nil => rfl
          | cons d more =>
              have hne : (c == d) = false := by
                rw [beq_eq_false_iff_ne]
                rintro rfl
                exact absurd (hc.symm.trans hrest) Bool.false_ne_true
              simp [List.isPrefixOf, hne]
      | cons d text => simp only [List.cons_append, List.isPrefixOf, ih hstart]

theorem symbolAt_append : symbolAt (text ++ rest) = symbolAt text := by
  have hsame : (fun found : Symbol => found.text.toList.isPrefixOf (text ++ rest)) =
      fun found => found.text.toList.isPrefixOf text :=
    funext fun found => isPrefixOf_append_blank hrest Symbol.not_isBlank
  rw [symbolAt, symbolAt, hsame]

end

theorem length_le_of_symbolAt {text : List Char} {found : Symbol} (h : symbolAt text = some found) :
    found.text.length ≤ text.length := by
  have hstart := List.find?_some h
  simp only [List.isPrefixOf_iff_prefix] at hstart
  exact String.length_toList ▸ hstart.length_le

/-! ## Numbers -/

/-- The number starts with a zero that is not all of it. -/
def leadsWithZero : List Char → Bool
  | '0' :: _ :: _ => true
  | _ => false

/-- Digits stand for their value in base ten unless a zero leads them. -/
theorem numberOf_decimal {digits : List Char} {value : Nat}
    (h : Text.digits? 10 digits = some value) (hlead : leadsWithZero digits = false) :
    numberOf digits = if value < 0x8000000000000000 then .ok (Int64.ofNat value)
      else .error (.badNumber (String.ofList digits)) := by
  unfold numberOf
  split
  · cases hlead
  · cases hlead
  · cases hlead
  · simp only [h]

theorem leadsWithZero_toDigits (n : Nat) : leadsWithZero (Nat.toDigits 10 n) = false := by
  by_cases hn : n = 0
  · subst hn
    rfl
  · have hhead := Text.head?_toDigits_ne_zero hn
    cases hdigits : Nat.toDigits 10 n with
    | nil => rfl
    | cons c rest =>
        rw [hdigits] at hhead
        unfold leadsWithZero
        split
        · rename_i heq
          cases heq
          exact absurd rfl hhead
        · rfl

namespace Token

def text : Token → String
  | .number value => numeral value
  | .name text => text
  | .symbol found => found.text

/-- The token has a spelling: numbers have no sign, and names are names. -/
def isSpelled : Token → Bool
  | .number value => 0 ≤ value
  | .name text => Syntax.isName text
  | .symbol _ => true

/-- The text of tokens, with a blank between them. -/
def write (tokens : List Token) : String := " ".intercalate (tokens.map text)

theorem read_append {c : Char} {letters rest : List Char} (hrest : rest.head?.all isBlank = true) :
    read c (letters ++ rest) = (read c letters).map fun found => (found.1, found.2 ++ rest) := by
  unfold read
  split
  · rw [takeWhile_append_blank hrest fun _ => isAlphanum_of_isBlank,
      dropWhile_append_blank hrest fun _ => isAlphanum_of_isBlank]
    split <;> rfl
  split
  · rw [takeWhile_append_blank hrest fun _ => isNameChar_of_isBlank,
      dropWhile_append_blank hrest fun _ => isNameChar_of_isBlank]
    rfl
  · rw [← List.cons_append, symbolAt_append hrest]
    cases hfound : symbolAt (c :: letters) with
    | none => rfl
    | some found =>
        have hle := length_le_of_symbolAt hfound
        rw [List.length_cons] at hle
        simp only [Except.map]
        rw [List.drop_append_of_le_length (by omega)]

section

variable {found : List Token} {c : Char} {text : List Char}

theorem readAll_nil : readAll found [] = .ok found.reverse := by
  rw [readAll.eq_def]

theorem readAll_blank (h : isBlank c = true) : readAll found (c :: text) = readAll found text := by
  rw [readAll.eq_def]
  exact if_pos h

theorem readAll_error (h : isBlank c = false) {fault : Fault} (hread : read c text = .error fault) :
    readAll found (c :: text) = .error fault := by
  rw [readAll.eq_def]
  simp only [h, Bool.false_eq_true, if_false]
  split
  · rename_i hread'
    cases hread.symm.trans hread'
    rfl
  · rename_i hread'
    cases hread.symm.trans hread'

theorem readAll_token (h : isBlank c = false) {token : Token} {after : List Char}
    (hread : read c text = .ok (token, after)) :
    readAll found (c :: text) = readAll (token :: found) after := by
  rw [readAll.eq_def]
  simp only [h, Bool.false_eq_true, if_false]
  split
  · rename_i hread'
    cases hread.symm.trans hread'
  · rename_i hread'
    cases hread.symm.trans hread'
    rfl

end

theorem readAll_append {found : List Token} {text rest : List Char}
    (hrest : rest.head?.all isBlank = true) :
    readAll found (text ++ rest) =
      (readAll found text).bind fun first => readAll first.reverse rest := by
  fun_induction readAll found text with
  | case1 found => simp [Except.bind]
  | case2 found c text hblank ih => rw [List.cons_append, readAll_blank hblank, ih]
  | case3 found c text hblank fault hread =>
      have hlonger : read c (text ++ rest) = .error fault := by
        rw [read_append hrest, hread]
        rfl
      rw [List.cons_append, readAll_error (Bool.eq_false_iff.mpr hblank) hlonger]
      rfl
  | case4 found c text hblank token after hread ih =>
      have hlonger : read c (text ++ rest) = .ok (token, after ++ rest) := by
        rw [read_append hrest, hread]
        rfl
      rw [List.cons_append, readAll_token (Bool.eq_false_iff.mpr hblank) hlonger]
      exact ih

/-- The tokens found before only stand in front. -/
theorem readAll_older (older found : List Token) (text : List Char) :
    readAll (found ++ older) text = (readAll found text).map (older.reverse ++ ·) := by
  fun_induction readAll found text with
  | case1 found => simp [readAll_nil, Except.map]
  | case2 found c text hblank ih => rw [readAll_blank hblank, ih]
  | case3 found c text hblank fault hread =>
      rw [readAll_error (Bool.eq_false_iff.mpr hblank) hread]
      rfl
  | case4 found c text hblank token after hread ih =>
      rw [readAll_token (Bool.eq_false_iff.mpr hblank) hread]
      exact ih

theorem ofText_append {text rest : List Char} (hrest : rest.head?.all isBlank = true) :
    ofText (text ++ rest) = (ofText text).bind fun first => (ofText rest).map (first ++ ·) := by
  rw [ofText, readAll_append hrest, ← ofText]
  congr 1
  funext first
  have hfirst := readAll_older first.reverse [] rest
  rwa [List.nil_append, List.reverse_reverse] at hfirst

theorem ofText_nil : ofText [] = .ok [] := readAll_nil

theorem ofText_blank {c : Char} {text : List Char} (h : isBlank c = true) :
    ofText (c :: text) = ofText text :=
  readAll_blank h

theorem ofText_blanks {text : List Char} (h : ∀ c ∈ text, isBlank c = true) :
    ofText text = .ok [] := by
  induction text with
  | nil => exact ofText_nil
  | cons c text ih =>
      obtain ⟨hc, htext⟩ := List.forall_mem_cons.mp h
      rw [ofText_blank hc, ih htext]

theorem ofText_dropWhile_blank (text : List Char) :
    ofText (text.dropWhile isBlank) = ofText text := by
  induction text with
  | nil => rfl
  | cons c text ih =>
      rw [List.dropWhile_cons]
      split
      · rename_i hc
        rw [ih, ofText_blank hc]
      · rfl

theorem ofText_dropLastWhile_blank (text : List Char) :
    ofText (Text.dropLastWhile isBlank text) = ofText text := by
  have hsplit : text =
      Text.dropLastWhile isBlank text ++ (text.reverse.takeWhile isBlank).reverse := by
    rw [Text.dropLastWhile, ← List.reverse_append, List.takeWhile_append_dropWhile,
      List.reverse_reverse]
  have hblanks : ∀ c ∈ (text.reverse.takeWhile isBlank).reverse, isBlank c = true := fun c hc =>
    List.all_eq_true.mp List.all_takeWhile c (List.mem_reverse.mp hc)
  have hhead : (text.reverse.takeWhile isBlank).reverse.head?.all isBlank = true :=
    (Option.all_eq_true _ _).mpr fun c hc => hblanks c (List.mem_of_head? hc)
  calc
    ofText (Text.dropLastWhile isBlank text)
      = (ofText (Text.dropLastWhile isBlank text)).bind fun first =>
          (Except.ok []).map (first ++ ·) := by
        cases ofText (Text.dropLastWhile isBlank text) <;> simp [Except.bind, Except.map]
    _ = ofText (Text.dropLastWhile isBlank text ++ (text.reverse.takeWhile isBlank).reverse) := by
        rw [ofText_append hhead, ofText_blanks hblanks]
    _ = ofText text := by rw [← hsplit]

/-- Blanks at either end do not matter. -/
theorem ofText_trim (text : String) : ofText (Text.trim text).toList = ofText text.toList := by
  rw [Text.trim, String.toList_ofList, ofText_dropLastWhile_blank, ofText_dropWhile_blank]

/-! ## Written tokens -/

theorem read_of_isDigit {c : Char} {letters : List Char}
    (h : ∀ d ∈ c :: letters, d.isDigit = true) :
    read c letters = (numberOf (c :: letters)).map fun value => (.number value, []) := by
  obtain ⟨hc, hletters⟩ := List.forall_mem_cons.mp h
  have halphanum : ∀ d ∈ letters, d.isAlphanum = true := fun d hd => by
    simp [Char.isAlphanum, hletters d hd]
  rw [read, if_pos hc, List.takeWhile_eq_self_iff.mpr halphanum,
    List.dropWhile_eq_nil_iff.mpr halphanum]
  cases numberOf (c :: letters) <;> rfl

theorem ofText_of_read_error {c : Char} {letters : List Char} {fault : Fault}
    (hblank : isBlank c = false) (h : read c letters = .error fault) :
    ofText (c :: letters) = .error fault :=
  readAll_error hblank h

theorem ofText_of_read {c : Char} {letters after : List Char} {token : Token}
    (hblank : isBlank c = false) (h : read c letters = .ok (token, after)) :
    ofText (c :: letters) = (ofText after).map (token :: ·) :=
  (readAll_token hblank h).trans (readAll_older [token] [] after)

theorem ofText_of_read_all {c : Char} {letters : List Char} {token : Token}
    (hblank : isBlank c = false) (h : read c letters = .ok (token, [])) :
    ofText (c :: letters) = .ok [token] := by
  rw [ofText_of_read hblank h, ofText_nil]
  rfl

/-- Digits are one number. -/
theorem ofText_of_isDigit {text : List Char} (hne : text ≠ []) (h : ∀ d ∈ text, d.isDigit = true) :
    ofText text = (numberOf text).map fun value => [.number value] := by
  cases text with
  | nil => exact absurd rfl hne
  | cons c letters =>
      have hname := Syntax.isNameChar_of_isDigit (h c List.mem_cons_self)
      have hblank := not_isBlank_of_isNameChar hname
      have hread := read_of_isDigit h
      cases hnumber : numberOf (c :: letters) with
      | error fault =>
          rw [hnumber] at hread
          exact ofText_of_read_error hblank hread
      | ok value =>
          rw [hnumber] at hread
          exact ofText_of_read_all hblank hread

theorem ofText_numeral {value : Int64} (h : 0 ≤ value) :
    ofText (numeral value).toList = .ok [.number value] := by
  have hnonneg : 0 ≤ value.toInt := Int64.le_iff_toInt_le.mp h
  have hlt : value.toInt.natAbs < 0x8000000000000000 := by
    have := value.toInt_lt
    omega
  have hvalue : Int64.ofNat value.toInt.natAbs = value := by
    rw [← Int64.ofInt_eq_ofNat, Int.natAbs_of_nonneg hnonneg, Int64.ofInt_toInt]
  rw [numeral, Text.toList_toString, if_neg (Int.not_lt.mpr hnonneg),
    ofText_of_isDigit Nat.toDigits_ne_nil Text.isDigit_toDigits,
    numberOf_decimal (Text.digits?_toDigits _) (leadsWithZero_toDigits _), if_pos hlt, hvalue]
  rfl

theorem ofText_name {name : String} (h : Syntax.isName name = true) :
    ofText name.toList = .ok [.name name] := by
  obtain ⟨c, letters, htext, hc, hletters⟩ := exists_of_isName h
  have hdigit := Syntax.isDigit_of_isNameStart hc
  have hblank := not_isBlank_of_isNameChar (Syntax.isNameChar_of_isNameStart hc)
  have hread : read c letters = .ok (.name name, []) := by
    rw [read, hdigit, if_neg Bool.false_ne_true, if_pos hc,
      List.takeWhile_eq_self_iff.mpr hletters, List.dropWhile_eq_nil_iff.mpr hletters, ← htext,
      String.ofList_toList]
  rw [htext, ofText_of_read_all hblank hread]

theorem ofText_symbol (found : Symbol) : ofText found.text.toList = .ok [.symbol found] := by
  have hread : ∃ c letters, found.text.toList = c :: letters ∧
      read c letters = .ok (.symbol found, []) := by
    cases found <;> exact ⟨_, _, rfl, rfl⟩
  obtain ⟨c, letters, htext, hread⟩ := hread
  have hblank : isBlank c = false := Symbol.not_isBlank c (htext ▸ List.mem_cons_self)
  rw [htext, ofText_of_read_all hblank hread]

theorem ofText_text {token : Token} (h : token.isSpelled = true) :
    ofText token.text.toList = .ok [token] := by
  cases token with
  | number value => exact ofText_numeral (of_decide_eq_true h)
  | name text => exact ofText_name h
  | symbol found => exact ofText_symbol found

theorem ofText_spelled {tokens : List Token} (h : ∀ token ∈ tokens, token.isSpelled = true) :
    ofText (write tokens).toList = .ok tokens := by
  induction tokens with
  | nil => exact ofText_nil
  | cons token tokens ih =>
      obtain ⟨htoken, htokens⟩ := List.forall_mem_cons.mp h
      cases tokens with
      | nil =>
          rw [write, List.map_singleton, String.intercalate_singleton]
          exact ofText_text htoken
      | cons next more =>
          have hwrite : (write (token :: next :: more)).toList =
              token.text.toList ++ ' ' :: (write (next :: more)).toList := by
            simp [write, String.intercalate_cons_cons]
          rw [hwrite, ofText_append (by rfl), ofText_text htoken, ofText_blank (by rfl),
            ih htokens]
          rfl

end Token

end Conch.Arithmetic
