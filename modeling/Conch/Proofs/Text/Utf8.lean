import Conch.Text.Utf8

/-!
# Reading back encoded text

The bytes of a text are read back as that text, by the lossy reading too
(`decodeLossy_encode`), and the newlines among them are those of the text.
-/

namespace Conch.Text

/-! ## Characters -/

/-- What may follow a leading byte, by the number that the byte is. -/
theorem following_eq (lead : UInt8) :
    following lead =
      if lead.toNat < 0xC2 then none
      else if lead.toNat < 0xE0 then some (1, 0x80, 0xBF)
      else if lead.toNat = 0xE0 then some (2, 0xA0, 0xBF)
      else if lead.toNat = 0xED then some (2, 0x80, 0x9F)
      else if lead.toNat < 0xF0 then some (2, 0x80, 0xBF)
      else if lead.toNat = 0xF0 then some (3, 0x90, 0xBF)
      else if lead.toNat < 0xF4 then some (3, 0x80, 0xBF)
      else if lead.toNat = 0xF4 then some (3, 0x80, 0x8F)
      else none := by
  simp only [following, UInt8.lt_iff_toNat_lt, ← UInt8.toNat_inj]
  rfl

/-- The leads of three bytes leave out what fewer bytes can say, and the surrogates. -/
theorem following_three (lead : UInt8) {second : Nat} (hleast : 0xE0 ≤ lead.toNat)
    (hgreatest : lead.toNat < 0xF0) (hsecond : 0x80 ≤ second ∧ second ≤ 0xBF)
    (hshort : lead.toNat = 0xE0 → 0xA0 ≤ second) (hsurrogate : lead.toNat = 0xED → second ≤ 0x9F) :
    ∃ least greatest, following lead = some (2, least, greatest) ∧ least.toNat ≤ second ∧
      second ≤ greatest.toNat := by
  rw [following_eq, if_neg (by omega), if_neg (by omega)]
  by_cases hE0 : lead.toNat = 0xE0
  · rw [if_pos hE0]
    exact ⟨_, _, rfl, hshort hE0, hsecond.2⟩
  rw [if_neg hE0]
  by_cases hED : lead.toNat = 0xED
  · rw [if_pos hED]
    exact ⟨_, _, rfl, hsecond.1, hsurrogate hED⟩
  rw [if_neg hED, if_pos hgreatest]
  exact ⟨_, _, rfl, hsecond.1, hsecond.2⟩

/-- The leads of four bytes leave out what fewer bytes can say, and what is no character. -/
theorem following_four (lead : UInt8) {second : Nat} (hleast : 0xF0 ≤ lead.toNat)
    (hgreatest : lead.toNat ≤ 0xF4) (hsecond : 0x80 ≤ second ∧ second ≤ 0xBF)
    (hshort : lead.toNat = 0xF0 → 0x90 ≤ second) (hlast : lead.toNat = 0xF4 → second ≤ 0x8F) :
    ∃ least greatest, following lead = some (3, least, greatest) ∧ least.toNat ≤ second ∧
      second ≤ greatest.toNat := by
  rw [following_eq, if_neg (by omega), if_neg (by omega), if_neg (by omega), if_neg (by omega),
    if_neg (by omega)]
  by_cases hF0 : lead.toNat = 0xF0
  · rw [if_pos hF0]
    exact ⟨_, _, rfl, hshort hF0, hsecond.2⟩
  rw [if_neg hF0]
  by_cases hF4 : lead.toNat = 0xF4
  · rw [if_neg (by omega), if_pos hF4]
    exact ⟨_, _, rfl, hsecond.1, hlast hF4⟩
  rw [if_pos (by omega)]
  exact ⟨_, _, rfl, hsecond.1, hsecond.2⟩

/-- A byte after a leading one adds its six bits. -/
theorem continued_ofNat {needed bits digit : Nat} {least greatest : UInt8} (rest : Bytes)
    (hdigit : digit < 64) (hleast : least.toNat ≤ digit + 0x80)
    (hgreatest : digit + 0x80 ≤ greatest.toNat) :
    continued (needed + 1) least greatest bits (UInt8.ofNat (digit + 0x80) :: rest) =
      continued needed 0x80 0xBF (bits * 64 + digit) rest := by
  have hnat : (UInt8.ofNat (digit + 0x80)).toNat = digit + 0x80 := by
    rw [UInt8.toNat_ofNat']
    omega
  rw [continued, if_pos, hnat, Nat.add_sub_cancel]
  rw [Bool.and_eq_true, decide_eq_true_eq, decide_eq_true_eq, UInt8.le_iff_toNat_le,
    UInt8.le_iff_toNat_le, hnat]
  exact ⟨hleast, hgreatest⟩

/-- A byte that leads others decides how many they are and where the first one lies. -/
theorem decodeHead_lead {lead : UInt8} {needed : Nat} {least greatest : UInt8} (rest : Bytes)
    (hlead : 0x80 ≤ lead.toNat) (hfollowing : following lead = some (needed, least, greatest)) :
    decodeHead lead rest =
      continued needed least greatest
        (lead.toNat - if needed = 1 then 0xC0 else if needed = 2 then 0xE0 else 0xF0) rest := by
  have hhigh : ¬lead < 0x80 := by
    rw [UInt8.lt_iff_toNat_lt]
    exact Nat.not_lt.mpr hlead
  rw [decodeHead, if_neg hhigh, hfollowing]

/-- A character is read back from its bytes, whatever follows. -/
theorem decodeHead_encode (c : Char) (rest : Bytes) :
    ∃ b bytes, String.utf8EncodeChar c = b :: bytes ∧
      decodeHead b (bytes ++ rest) = (some c, rest) := by
  have hvalid : c.val.toNat < 0xD800 ∨ 0xDFFF < c.val.toNat ∧ c.val.toNat < 0x110000 := c.valid
  have hchar : Char.ofNat c.val.toNat = c := Char.ofNat_toNat c
  have hbyte : ∀ n, n < 256 → (UInt8.ofNat n).toNat = n := fun n hn => by
    rw [UInt8.toNat_ofNat']
    exact Nat.mod_eq_of_lt hn
  have hlow : (0x80 : UInt8).toNat = 0x80 := rfl
  have hhigh : (0xBF : UInt8).toNat = 0xBF := rfl
  unfold String.utf8EncodeChar
  generalize c.val.toNat = v at hvalid hchar
  simp only
  split
  · refine ⟨_, _, rfl, ?_⟩
    have hsmall : UInt8.ofNat v < 0x80 := by
      rw [UInt8.lt_iff_toNat_lt, hbyte v (by omega), hlow]
      omega
    rw [decodeHead, if_pos hsmall, hbyte v (by omega), hchar, List.nil_append]
  split
  · refine ⟨_, _, rfl, ?_⟩
    have hnat := hbyte (v / 64 % 0x20 + 0xC0) (by omega)
    have hfollowing : following (UInt8.ofNat (v / 64 % 0x20 + 0xC0)) = some (1, 0x80, 0xBF) := by
      rw [following_eq, hnat, if_neg (by omega), if_pos (by omega)]
    have hsplit : (v / 64 % 0x20 + 0xC0 - 0xC0) * 64 + v % 0x40 = v := by omega
    rw [decodeHead_lead _ (by omega) hfollowing, if_pos rfl, hnat, List.cons_append,
      continued_ofNat _ (by omega) (by omega) (by omega), hsplit, continued, hchar, List.nil_append]
  split
  · refine ⟨_, _, rfl, ?_⟩
    have hnat := hbyte (v / 4096 % 0x10 + 0xE0) (by omega)
    have hsecond : 0x80 ≤ v / 64 % 0x40 + 0x80 ∧ v / 64 % 0x40 + 0x80 ≤ 0xBF := by omega
    obtain ⟨least, greatest, hfollowing, hleast, hgreatest⟩ :=
      following_three (UInt8.ofNat (v / 4096 % 0x10 + 0xE0)) (by omega) (by omega) hsecond
        (by omega) (by omega)
    have hsplit : ((v / 4096 % 0x10 + 0xE0 - 0xE0) * 64 + v / 64 % 0x40) * 64 + v % 0x40 = v := by
      omega
    rw [decodeHead_lead _ (by omega) hfollowing, if_neg (by omega), if_pos rfl, hnat,
      List.cons_append, List.cons_append, continued_ofNat _ (by omega) hleast hgreatest,
      continued_ofNat _ (by omega) (by omega) (by omega), hsplit, continued, hchar, List.nil_append]
  · refine ⟨_, _, rfl, ?_⟩
    have hnat := hbyte (v / 262144 % 0x08 + 0xF0) (by omega)
    have hsecond : 0x80 ≤ v / 4096 % 0x40 + 0x80 ∧ v / 4096 % 0x40 + 0x80 ≤ 0xBF := by omega
    obtain ⟨least, greatest, hfollowing, hleast, hgreatest⟩ :=
      following_four (UInt8.ofNat (v / 262144 % 0x08 + 0xF0)) (by omega) (by omega) hsecond
        (by omega) (by omega)
    have hsplit : (((v / 262144 % 0x08 + 0xF0 - 0xF0) * 64 + v / 4096 % 0x40) * 64 +
        v / 64 % 0x40) * 64 + v % 0x40 = v := by
      omega
    rw [decodeHead_lead _ (by omega) hfollowing, if_neg (by omega), if_neg (by omega), hnat,
      List.cons_append, List.cons_append, List.cons_append,
      continued_ofNat _ (by omega) hleast hgreatest,
      continued_ofNat _ (by omega) (by omega) (by omega),
      continued_ofNat _ (by omega) (by omega) (by omega), hsplit, continued, hchar, List.nil_append]

/-! ## Texts -/

theorem toList_eq_data (bytes : ByteArray) : bytes.toList = bytes.data.toList := by
  have hloop : ∀ i seen, ByteArray.toList.loop bytes i seen =
      seen.reverse ++ bytes.data.toList.drop i := by
    intro i seen
    fun_induction ByteArray.toList.loop bytes i seen with
    | case1 i seen hi ih =>
        have hlength : i < bytes.data.toList.length := hi
        rw [ih, List.drop_eq_getElem_cons hlength]
        simp [ByteArray.get!, hi]
    | case2 i seen hi =>
        have hlength : bytes.data.toList.length ≤ i := Nat.not_lt.mp hi
        rw [List.drop_of_length_le hlength, List.append_nil]
  rw [ByteArray.toList, hloop]
  rfl

/-- The bytes of some characters. -/
def encodeChars (text : List Char) : Bytes := text.flatMap String.utf8EncodeChar

theorem encode_ofList (text : List Char) : encode (String.ofList text) = encodeChars text := by
  rw [encode, String.toUTF8_eq_toByteArray, toList_eq_data]
  exact List.toList_data_toByteArray

theorem encode_eq (text : String) : encode text = encodeChars text.toList := by
  rw [← encode_ofList, String.ofList_toList]

theorem decodeLossyOnto_encode (written : String) (text : List Char) :
    decodeLossyOnto written (encodeChars text) = written ++ String.ofList text := by
  induction text generalizing written with
  | nil =>
      rw [encodeChars, List.flatMap_nil, decodeLossyOnto, String.ofList_nil, String.append_empty]
  | cons c text ih =>
      obtain ⟨b, bytes, hbytes, hhead⟩ := decodeHead_encode c (encodeChars text)
      rw [encodeChars, List.flatMap_cons, hbytes, List.cons_append, decodeLossyOnto]
      change decodeLossyOnto (written.push ((decodeHead b (bytes ++ encodeChars text)).1.getD _))
        (decodeHead b (bytes ++ encodeChars text)).2 = _
      rw [hhead, Option.getD_some, ih]
      apply String.toList_injective
      simp

/-- The bytes of a text are read as that text. -/
theorem decodeLossy_encode (text : String) : decodeLossy (encode text) = text := by
  rw [decodeLossy, encode_eq, decodeLossyOnto_encode, String.ofList_toList, String.empty_append]

/-- A newline is one byte, and that byte is part of no other character. -/
theorem newline_mem_encode {c : Char} : 10 ∈ String.utf8EncodeChar c ↔ c = '\n' := by
  constructor
  · intro h
    have hten : ∀ {n}, (10 : UInt8) = UInt8.ofNat n → n % 256 = 10 := fun hn => by
      have hnat := congrArg UInt8.toNat hn
      rw [UInt8.toNat_ofNat'] at hnat
      exact hnat.symm
    have hnat : c.val.toNat = 10 := by
      unfold String.utf8EncodeChar at h
      generalize c.val.toNat = v at h
      simp only at h
      split at h
      · have := hten (List.mem_singleton.mp h)
        omega
      -- Every byte of a longer character is 128 or more.
      exfalso
      split at h
      · simp only [List.mem_cons, List.not_mem_nil, or_false] at h
        rcases h with h | h <;> have := hten h <;> omega
      split at h
      · simp only [List.mem_cons, List.not_mem_nil, or_false] at h
        rcases h with h | h | h <;> have := hten h <;> omega
      · simp only [List.mem_cons, List.not_mem_nil, or_false] at h
        rcases h with h | h | h | h <;> have := hten h <;> omega
    exact Char.toNat_inj.mp hnat
  · rintro rfl
    decide

end Conch.Text
