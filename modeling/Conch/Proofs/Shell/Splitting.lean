import Conch.Proofs.Arithmetic.Stored

/-!
# Field splitting

The separators of a text are blanks, here called gaps, and others, here called marks.  By
the POSIX rule a mark ends a field together with the gaps on both sides of it, and gaps on
their own stand between fields.  The shell ends a field at the first separator behind it,
whichever it is, and so it finds an empty field between a gap and a mark behind it
(`late_mark_ends_field`).  Such a mark is late.  A text without late marks is split by the
rule, and no other text is (`joinsAlike`), so the fields of an unquoted variable are right
exactly when no mark in its value is late (`expandWords_split`).
-/

namespace Conch

namespace Splitting

/-! ## Fields of a text -/

section

variable (separators : String)

/-- A character at which values are split. -/
def isSeparator (c : Char) : Bool := separators.toList.contains c

/-- A blank separator. -/
def isGap (c : Char) : Bool := isSeparator separators c && Text.isBlank c

/-- A separator that is not blank. -/
def isMark (c : Char) : Bool := isSeparator separators c && !Text.isBlank c

def dropMark : List Char → List Char
  | [] => []
  | c :: rest => if isMark separators c then rest else c :: rest

/-- What follows the end of a field: by the rule that `joins` separators it is what stands behind
gaps and a mark, otherwise what stands behind one separator. -/
def afterField (joins : Bool) (text : List Char) : List Char :=
  if joins then dropMark separators (text.dropWhile (isGap separators)) else text.drop 1

variable {separators} {joins : Bool}

theorem isMark_of_not_isGap {c : Char} (hc : isSeparator separators c = true)
    (hgap : isGap separators c = false) : isMark separators c = true := by
  simp_all [isGap, isMark]

theorem not_isGap_of_isMark {c : Char} (h : isMark separators c = true) :
    isGap separators c = false := by
  simp_all [isGap, isMark]

theorem isSeparator_of_isGap {c : Char} (h : isGap separators c = true) :
    isSeparator separators c = true := (Bool.and_eq_true_iff.mp h).1

theorem isSeparator_of_isMark {c : Char} (h : isMark separators c = true) :
    isSeparator separators c = true := (Bool.and_eq_true_iff.mp h).1

theorem dropMark_sublist (text : List Char) : (dropMark separators text).Sublist text := by
  unfold dropMark
  split
  · exact .refl _
  · split
    · exact List.sublist_cons_self _ _
    · exact .refl _

theorem afterField_sublist (text : List Char) :
    (afterField separators joins text).Sublist text := by
  unfold afterField
  split
  · exact (dropMark_sublist _).trans (List.dropWhile_sublist _)
  · exact List.drop_sublist _ _

theorem afterField_mark {c : Char} (h : isMark separators c = true) (rest : List Char) :
    afterField separators joins (c :: rest) = rest := by
  cases joins with
  | false => rfl
  | true =>
      rw [afterField, if_pos rfl, List.dropWhile_cons, if_neg (by simp [not_isGap_of_isMark h]),
        dropMark, if_pos h]

theorem afterField_length_lt {c : Char} {rest : List Char} (h : isGap separators c = false) :
    (afterField separators joins ((c :: rest).dropWhile (!isSeparator separators ·))).length <
      (c :: rest).length := by
  rw [List.dropWhile_cons]
  split
  · refine (afterField_sublist _).length_le.trans_lt (Nat.lt_succ_of_le ?_)
    exact (List.dropWhile_sublist _).length_le
  · rename_i hc
    rw [afterField_mark (isMark_of_not_isGap (by simpa using hc) h)]
    exact Nat.lt_succ_self _

variable (separators joins) in
/-- The fields into which separators divide a text: by the rule of POSIX if it `joins` a mark and
the gaps before it, otherwise with a field up to each mark. -/
def fieldsOf : List Char → List (List Char)
  | [] => []
  | c :: rest =>
      -- no field is open here, so gaps count for nothing
      if _h : isGap separators c = true then fieldsOf rest
      else
        (c :: rest).takeWhile (!isSeparator separators ·) ::
          fieldsOf (afterField separators joins
            ((c :: rest).dropWhile (!isSeparator separators ·)))
termination_by text => text.length
decreasing_by
  · exact Nat.lt_succ_self _
  · exact afterField_length_lt (Bool.eq_false_iff.mpr _h)

@[simp] theorem fieldsOf_nil : fieldsOf separators joins [] = [] := by rw [fieldsOf]

theorem fieldsOf_gap {c : Char} (h : isGap separators c = true) (rest : List Char) :
    fieldsOf separators joins (c :: rest) = fieldsOf separators joins rest := by
  rw [fieldsOf, dif_pos h]

theorem fieldsOf_mark {c : Char} (h : isMark separators c = true) (rest : List Char) :
    fieldsOf separators joins (c :: rest) = [] :: fieldsOf separators joins rest := by
  rw [fieldsOf, dif_neg (by simp [not_isGap_of_isMark h]), List.takeWhile_cons,
    List.dropWhile_cons, isSeparator_of_isMark h]
  exact congrArg (fun rest => [] :: fieldsOf separators joins rest) (afterField_mark h rest)

/-- A stretch without separators is a field. -/
theorem fieldsOf_word {word rest : List Char} (hne : word ≠ [])
    (hword : ∀ c ∈ word, isSeparator separators c = false)
    (hrest : rest.head?.all (isSeparator separators) = true) :
    fieldsOf separators joins (word ++ rest) =
      word :: fieldsOf separators joins (afterField separators joins rest) := by
  have hall : ∀ c ∈ word, (!isSeparator separators c) = true := fun c hc => by simp [hword c hc]
  have htake : rest.takeWhile (!isSeparator separators ·) = [] := by
    cases rest with
    | nil => rfl
    | cons c rest => rw [List.takeWhile_cons, if_neg (by simpa using hrest)]
  have hdrop : rest.dropWhile (!isSeparator separators ·) = rest := by
    cases rest with
    | nil => rfl
    | cons c rest => rw [List.dropWhile_cons, if_neg (by simpa using hrest)]
  obtain ⟨c, letters, rfl⟩ := List.exists_cons_of_ne_nil hne
  have hgap : ¬isGap separators c = true := by
    rw [isGap, hword c List.mem_cons_self]
    exact Bool.false_ne_true
  rw [List.cons_append, fieldsOf, dif_neg hgap, ← List.cons_append,
    List.takeWhile_append_of_pos hall, List.dropWhile_append_of_pos hall, htake, hdrop,
    List.append_nil]

theorem fieldsOf_single {text : List Char} (hne : text ≠ [])
    (htext : ∀ c ∈ text, isSeparator separators c = false) :
    fieldsOf separators joins text = [text] := by
  have hword : fieldsOf separators joins (text ++ []) = _ := fieldsOf_word hne htext rfl
  have hend : afterField separators joins [] = [] := by cases joins <;> rfl
  rwa [List.append_nil, hend, fieldsOf_nil] at hword

/-- Fields are made of the characters of the text that are no separators. -/
theorem mem_field {text field : List Char} {c : Char}
    (hfield : field ∈ fieldsOf separators joins text) (hc : c ∈ field) :
    c ∈ text ∧ isSeparator separators c = false := by
  fun_induction fieldsOf separators joins text with
  | case1 => simp at hfield
  | case2 d rest _ ih => exact (ih hfield).imp_left (List.mem_cons_of_mem d)
  | case3 d rest _ ih =>
      rcases List.mem_cons.mp hfield with rfl | hfield
      · exact ⟨(List.takeWhile_sublist _).mem hc, by simpa using List.mem_takeWhile_imp hc⟩
      · refine (ih hfield).imp_left fun hmem => ?_
        exact ((afterField_sublist _).trans (List.dropWhile_sublist _)).mem hmem

/-- Only a text without separators is its own field. -/
theorem fieldsOf_eq_single {text : List Char} :
    fieldsOf separators joins text = [text] ↔
      text ≠ [] ∧ ∀ c ∈ text, isSeparator separators c = false := by
  constructor
  · intro hfields
    refine ⟨?_, fun c hc => ?_⟩
    · rintro rfl
      simp at hfields
    · have hfield : text ∈ fieldsOf separators joins text := by simp [hfields]
      exact (mem_field hfield hc).2
  · rintro ⟨hne, htext⟩
    exact fieldsOf_single hne htext

end

/-! ## Late marks -/

section

variable (separators : String)

/-- A mark stands behind gaps that follow a character of a field. -/
def HasLateMark (text : List Char) : Prop :=
  ∃ letter gap mark, letter :: (gap ++ [mark]) <:+: text ∧
    isSeparator separators letter = false ∧ gap ≠ [] ∧
    (∀ c ∈ gap, isGap separators c = true) ∧ isMark separators mark = true

/-- A text starts with gaps and a mark behind them. -/
def StartsLate (text : List Char) : Prop :=
  ∃ gap mark, gap ++ [mark] <+: text ∧ gap ≠ [] ∧ (∀ c ∈ gap, isGap separators c = true) ∧
    isMark separators mark = true

variable {separators}

theorem not_hasLateMark_nil : ¬HasLateMark separators [] := by
  rintro ⟨letter, gap, mark, hinfix, -⟩
  simp at hinfix

theorem hasLateMark_cons {c : Char} {rest : List Char} :
    HasLateMark separators (c :: rest) ↔
      (isSeparator separators c = false ∧ StartsLate separators rest) ∨
        HasLateMark separators rest := by
  simp only [HasLateMark, List.infix_cons_iff, List.cons_prefix_cons]
  constructor
  · rintro ⟨letter, gap, mark, ⟨rfl, hprefix⟩ | hinfix, hletter, hgap, hgaps, hmark⟩
    · exact .inl ⟨hletter, gap, mark, hprefix, hgap, hgaps, hmark⟩
    · exact .inr ⟨letter, gap, mark, hinfix, hletter, hgap, hgaps, hmark⟩
  · rintro (⟨hc, gap, mark, hprefix, hgap, hgaps, hmark⟩ |
      ⟨letter, gap, mark, hinfix, hletter, hgap, hgaps, hmark⟩)
    · exact ⟨c, gap, mark, .inl ⟨rfl, hprefix⟩, hc, hgap, hgaps, hmark⟩
    · exact ⟨letter, gap, mark, .inr hinfix, hletter, hgap, hgaps, hmark⟩

theorem hasLateMark_separator {c : Char} (hc : isSeparator separators c = true)
    {rest : List Char} :
    HasLateMark separators (c :: rest) ↔ HasLateMark separators rest := by
  rw [hasLateMark_cons, hc]
  simp

theorem not_startsLate_cons {c : Char} (hc : isGap separators c = false) (rest : List Char) :
    ¬StartsLate separators (c :: rest) := by
  rintro ⟨gap, mark, hprefix, hgap, hgaps, -⟩
  obtain ⟨d, gap, rfl⟩ := List.exists_cons_of_ne_nil hgap
  rw [List.cons_append, List.cons_prefix_cons] at hprefix
  rw [← hprefix.1, hgaps d List.mem_cons_self] at hc
  cases hc

/-- Behind a word there is a late mark at once, or later. -/
theorem hasLateMark_word {word rest : List Char} (hne : word ≠ [])
    (hword : ∀ c ∈ word, isSeparator separators c = false) :
    HasLateMark separators (word ++ rest) ↔
      StartsLate separators rest ∨ HasLateMark separators rest := by
  induction word with
  | nil => exact absurd rfl hne
  | cons c word ih =>
      obtain ⟨hc, hword⟩ := List.forall_mem_cons.mp hword
      rw [List.cons_append, hasLateMark_cons, hc]
      cases word with
      | nil => simp
      | cons d word =>
          have hd : isGap separators d = false := by
            rw [isGap, hword d List.mem_cons_self, Bool.false_and]
          have hnot := not_startsLate_cons hd (word ++ rest)
          rw [ih (List.cons_ne_nil _ _) hword]
          simp [hnot]

theorem hasLateMark_dropWhile (text : List Char) :
    HasLateMark separators (text.dropWhile (isGap separators)) ↔ HasLateMark separators text := by
  induction text with
  | nil => rfl
  | cons c rest ih =>
      rw [List.dropWhile_cons]
      split
      · rename_i hgap
        rw [ih, hasLateMark_separator (isSeparator_of_isGap hgap)]
      · rfl

theorem fieldsOf_dropWhile {joins : Bool} (text : List Char) :
    fieldsOf separators joins (text.dropWhile (isGap separators)) =
      fieldsOf separators joins text := by
  induction text with
  | nil => rfl
  | cons c rest ih =>
      rw [List.dropWhile_cons]
      split
      · rename_i hgap
        rw [ih, fieldsOf_gap hgap]
      · rfl

/-- Behind a gap the late mark is the first character that is no gap. -/
theorem startsLate_iff {c : Char} (hc : isGap separators c = true) (rest : List Char) :
    StartsLate separators (c :: rest) ↔
      (rest.dropWhile (isGap separators)).head?.any (isMark separators) = true := by
  constructor
  · rintro ⟨gap, mark, hprefix, hgap, hgaps, hmark⟩
    obtain ⟨d, gap, rfl⟩ := List.exists_cons_of_ne_nil hgap
    rw [List.cons_append, List.cons_prefix_cons] at hprefix
    obtain ⟨more, hmore⟩ := hprefix.2
    have hstop : ¬isGap separators mark = true := by simp [not_isGap_of_isMark hmark]
    rw [← hmore, List.append_assoc, List.dropWhile_append_of_pos (List.forall_mem_cons.mp hgaps).2,
      List.singleton_append, List.dropWhile_cons, if_neg hstop]
    exact hmark
  · intro h
    cases hrest : rest.dropWhile (isGap separators) with
    | nil => simp [hrest] at h
    | cons mark more =>
        rw [hrest] at h
        refine ⟨c :: rest.takeWhile (isGap separators), mark, ?_, List.cons_ne_nil _ _, ?_, h⟩
        · rw [List.cons_append, List.cons_prefix_cons]
          refine ⟨rfl, more, ?_⟩
          rw [List.append_assoc, List.singleton_append, ← hrest, List.takeWhile_append_dropWhile]
        · refine List.forall_mem_cons.mpr ⟨hc, fun d hd => ?_⟩
          exact List.mem_takeWhile_imp hd

variable (separators) in
/-- Joining gaps to the mark behind them never adds a field, and changes nothing just where no mark
is late. -/
def JoinsAlike (text : List Char) : Prop :=
  (fieldsOf separators true text).length ≤ (fieldsOf separators false text).length ∧
    (fieldsOf separators false text = fieldsOf separators true text ↔
      ¬HasLateMark separators text)

theorem JoinsAlike.of_eq {text rest : List Char} (h : JoinsAlike separators rest)
    (hfields : ∀ joins, fieldsOf separators joins text = fieldsOf separators joins rest)
    (hlate : HasLateMark separators text ↔ HasLateMark separators rest) :
    JoinsAlike separators text := by
  rw [JoinsAlike, hfields, hfields, hlate]
  exact h

theorem JoinsAlike.cons {text rest word : List Char} (h : JoinsAlike separators rest)
    (hfields : ∀ joins, fieldsOf separators joins text = word :: fieldsOf separators joins rest)
    (hlate : HasLateMark separators text ↔ HasLateMark separators rest) :
    JoinsAlike separators text := by
  rw [JoinsAlike, hfields, hfields, hlate, List.cons_inj_right]
  exact ⟨Nat.succ_le_succ h.1, h.2⟩

theorem joinsAlike_nil : JoinsAlike separators [] := by
  simp [JoinsAlike, not_hasLateMark_nil]

/-- Behind a word and a gap, joining leaves out the empty field of a late mark.  The fields that
remain are no more than before, so nothing can make up for it. -/
theorem joinsAlike_gap {word later : List Char} {c : Char} (hne : word ≠ [])
    (hword : ∀ c ∈ word, isSeparator separators c = false) (hgap : isGap separators c = true)
    (ih : ∀ text : List Char, text.length ≤ later.length → JoinsAlike separators text) :
    JoinsAlike separators (word ++ c :: later) := by
  have hhead : (c :: later).head?.all (isSeparator separators) = true := isSeparator_of_isGap hgap
  have hapart : fieldsOf separators false (word ++ c :: later) =
      word :: fieldsOf separators false (later.dropWhile (isGap separators)) := by
    rw [fieldsOf_word hne hword hhead, fieldsOf_dropWhile]
    rfl
  have hjoined : fieldsOf separators true (word ++ c :: later) = word :: fieldsOf separators true
      (dropMark separators (later.dropWhile (isGap separators))) := by
    rw [fieldsOf_word hne hword hhead, afterField, if_pos rfl,
      List.dropWhile_cons, if_pos hgap]
  have hlate : HasLateMark separators (word ++ c :: later) ↔
      (later.dropWhile (isGap separators)).head?.any (isMark separators) = true ∨
        HasLateMark separators (later.dropWhile (isGap separators)) := by
    rw [hasLateMark_word hne hword, startsLate_iff hgap,
      hasLateMark_separator (isSeparator_of_isGap hgap), hasLateMark_dropWhile]
  have hlength := (List.dropWhile_sublist (l := later) (isGap separators)).length_le
  generalize later.dropWhile (isGap separators) = more at hapart hjoined hlate hlength
  rw [JoinsAlike, hapart, hjoined, hlate, List.cons_inj_right]
  cases more with
  | nil => simp [dropMark, not_hasLateMark_nil]
  | cons m more =>
      rw [dropMark]
      cases hmark : isMark separators m with
      | false =>
          obtain ⟨hle, heq⟩ := ih (m :: more) hlength
          rw [if_neg Bool.false_ne_true]
          exact ⟨Nat.succ_le_succ hle, by simpa [hmark] using heq⟩
      | true =>
          obtain ⟨hle, -⟩ := ih more (Nat.le_of_succ_le hlength)
          rw [if_pos rfl, fieldsOf_mark hmark]
          refine ⟨?_, iff_of_false (fun heq => ?_) (by simp [hmark])⟩
          · simp only [List.length_cons]
            omega
          · have := congrArg List.length heq
            simp only [List.length_cons] at this
            omega

theorem joinsAlike_word {word rest : List Char} (hne : word ≠ [])
    (hword : ∀ c ∈ word, isSeparator separators c = false)
    (hrest : rest.head?.all (isSeparator separators) = true)
    (ih : ∀ text : List Char, text.length ≤ rest.length → JoinsAlike separators text) :
    JoinsAlike separators (word ++ rest) := by
  cases rest with
  | nil =>
      have hfields : ∀ joins, fieldsOf separators joins (word ++ []) =
          word :: fieldsOf separators joins [] := by
        intro joins
        rw [fieldsOf_word hne hword rfl]
        cases joins <;> rfl
      refine joinsAlike_nil.cons hfields ?_
      rw [hasLateMark_word hne hword]
      simp [StartsLate]
  | cons c later =>
      cases hgap : isGap separators c with
      | false =>
          have hmark := isMark_of_not_isGap hrest hgap
          have hfields : ∀ joins, fieldsOf separators joins (word ++ c :: later) =
              word :: fieldsOf separators joins later := by
            intro joins
            rw [fieldsOf_word hne hword hrest, afterField_mark hmark]
          refine (ih later (Nat.le_succ _)).cons hfields ?_
          rw [hasLateMark_word hne hword, hasLateMark_separator hrest]
          simp [not_startsLate_cons hgap]
      | true =>
          exact joinsAlike_gap hne hword hgap fun text htext => ih text (Nat.le_succ_of_le htext)

/-- A character that is no separator starts a stretch up to a separator or the end. -/
theorem exists_word {c : Char} (hc : isSeparator separators c = false) (rest : List Char) :
    ∃ word more, c :: rest = word ++ more ∧ word ≠ [] ∧
      (∀ c ∈ word, isSeparator separators c = false) ∧
      more.head?.all (isSeparator separators) = true ∧ more.length ≤ rest.length := by
  induction rest generalizing c with
  | nil =>
      exact ⟨[c], [], rfl, List.cons_ne_nil _ _, List.forall_mem_singleton.mpr hc, rfl,
        Nat.le_refl _⟩
  | cons d rest ih =>
      cases hd : isSeparator separators d with
      | true =>
          exact ⟨[c], d :: rest, rfl, List.cons_ne_nil _ _, List.forall_mem_singleton.mpr hc, hd,
            Nat.le_refl _⟩
      | false =>
          obtain ⟨word, more, heq, -, hword, hmore, hle⟩ := ih hd
          exact ⟨c :: word, more, congrArg (c :: ·) heq, List.cons_ne_nil _ _,
            List.forall_mem_cons.mpr ⟨hc, hword⟩, hmore, Nat.le_succ_of_le hle⟩

/-- The two ways to split a text agree just where no mark is late. -/
theorem joinsAlike (text : List Char) : JoinsAlike separators text := by
  induction hlength : text.length using Nat.strong_induction_on generalizing text with
  | _ n ih =>
      subst hlength
      cases text with
      | nil => exact joinsAlike_nil
      | cons c rest =>
          have hrest := ih rest.length (Nat.lt_succ_self _) rest rfl
          cases hgap : isGap separators c with
          | true =>
              exact hrest.of_eq (fun _ => fieldsOf_gap hgap rest)
                (hasLateMark_separator (isSeparator_of_isGap hgap))
          | false =>
              cases hc : isSeparator separators c with
              | true =>
                  exact hrest.cons (fun _ => fieldsOf_mark (isMark_of_not_isGap hc hgap) rest)
                    (hasLateMark_separator hc)
              | false =>
                  obtain ⟨word, more, heq, hne, hword, hmore, hle⟩ := exists_word hc rest
                  rw [heq]
                  exact joinsAlike_word hne hword hmore fun text htext =>
                    ih text.length (Nat.lt_succ_of_le (htext.trans hle)) text rfl

/-- The mark behind `a` is late; the first of the marks behind `b` ends its field, and the second
one an empty field. -/
example : (fieldsOf " :" true " a : b:: c ".toList).map String.ofList = ["a", "b", "", "c"] ∧
    (fieldsOf " :" false " a : b:: c ".toList).map String.ofList = ["a", "", "b", "", "c"] := by
  have hjoined : fieldsOf " :" true " a : b:: c ".toList = [['a'], ['b'], [], ['c']] := by cbv
  have hapart : fieldsOf " :" false " a : b:: c ".toList = [['a'], [], ['b'], [], ['c']] := by cbv
  rw [hjoined, hapart]
  exact ⟨rfl, rfl⟩

end

end Splitting

open Splitting

/-! ## Fields of an expansion -/

/-- The field of a text that is not quoted. -/
def Field.unquoted (text : List Char) : Field :=
  ⟨String.ofList text, String.ofList text, Pattern.hasWildcard (String.ofList text)⟩

/-- The field of a text that is not quoted and has no wildcards. -/
def Field.plain (text : List Char) : Field := ⟨String.ofList text, String.ofList text, false⟩

def isWildcard (c : Char) : Bool := c == '*' || c == '?' || c == '['

theorem hasWildcard_iff {text : List Char} :
    Pattern.hasWildcard (String.ofList text) = false ↔ ∀ c ∈ text, isWildcard c = false := by
  rw [Pattern.hasWildcard, String.toList_ofList, List.any_eq_false]
  simp only [Bool.not_eq_true]
  rfl

theorem Field.unquoted_eq_plain {text other : List Char} :
    Field.unquoted text = Field.plain other ↔
      text = other ∧ ∀ c ∈ text, isWildcard c = false := by
  simp [unquoted, plain, hasWildcard_iff, String.ofList_inj]

namespace Fields

variable {separators : String}

/-- A stretch of characters makes a field that is not yet finished. -/
theorem addUnquoted_word {word : List Char} (hne : word ≠ []) (finished : List Field) :
    addUnquoted ⟨finished, .empty, false, true, separators⟩ (String.ofList word) =
      ⟨finished, .unquoted word, true, true, separators⟩ := by
  have hnonempty : ¬(String.ofList word).isEmpty = true := by simpa using hne
  rw [addUnquoted, if_neg hnonempty]
  simp [Field.empty, Field.unquoted]

theorem addUnquoted_nil (fields : Fields) : fields.addUnquoted (String.ofList []) = fields := rfl

/-- At a separator nothing is left unfinished. -/
theorem addSplit_separator {word : List Char} {c : Char}
    (hword : ∀ c ∈ word, isSeparator separators c = false)
    (hc : isSeparator separators c = true) (finished : List Field) (rest : List Char) :
    ∃ ended, addSplit ⟨finished, .empty, false, true, separators⟩ word.reverse (c :: rest) =
        addSplit ⟨ended.reverse.map Field.unquoted ++ finished, .empty, false, true, separators⟩ []
          rest ∧
      fieldsOf separators false (word ++ c :: rest) = ended ++ fieldsOf separators false rest := by
  rw [addSplit, if_neg (by simpa [isSeparator] using hc), List.reverse_reverse]
  by_cases hne : word = []
  · subst hne
    rw [addUnquoted_nil]
    cases hblank : Text.isBlank c with
    | true => exact ⟨[], rfl, fieldsOf_gap (by rw [isGap, hc, hblank]; rfl) rest⟩
    | false => exact ⟨[[]], rfl, fieldsOf_mark (by rw [isMark, hc, hblank]; rfl) rest⟩
  · rw [addUnquoted_word hne]
    refine ⟨[word], ?_, fieldsOf_word hne hword hc⟩
    cases Text.isBlank c <;> rfl

/-- Splitting gives the fields of the text, in which every separator ends one. -/
theorem toList_addSplit_unquoted {word : List Char}
    (hword : ∀ c ∈ word, isSeparator separators c = false) (text : List Char)
    (finished : List Field) :
    (addSplit ⟨finished, .empty, false, true, separators⟩ word.reverse text).toList =
      finished.reverse ++ (fieldsOf separators false (word ++ text)).map Field.unquoted := by
  induction text generalizing word finished with
  | nil =>
      rw [addSplit, List.reverse_reverse, List.append_nil]
      by_cases hne : word = []
      · subst hne
        rw [addUnquoted_nil]
        simp [toList]
      · rw [addUnquoted_word hne, fieldsOf_single hne hword]
        simp [toList, finish]
  | cons c rest ih =>
      cases hc : isSeparator separators c with
      | true =>
          obtain ⟨ended, hadd, hfields⟩ := addSplit_separator hword hc finished rest
          have hnext := @ih [] (by simp) (ended.reverse.map Field.unquoted ++ finished)
          rw [List.reverse_nil, List.nil_append] at hnext
          rw [hadd, hnext, hfields]
          simp
      | false =>
          have hlonger : ∀ d ∈ word ++ [c], isSeparator separators d = false :=
            List.forall_mem_append.mpr ⟨hword, List.forall_mem_singleton.mpr hc⟩
          have hnext := ih hlonger finished
          rw [List.reverse_append, List.append_assoc] at hnext
          rw [addSplit, if_pos (by simpa [isSeparator] using hc)]
          exact hnext

/-- Without wildcards the fields stand for nothing else. -/
theorem toList_addSplit {word text : List Char}
    (hword : ∀ c ∈ word, isSeparator separators c = false)
    (hwild : ∀ c ∈ word ++ text, isWildcard c = false) (finished : List Field) :
    (addSplit ⟨finished, .empty, false, true, separators⟩ word.reverse text).toList =
      finished.reverse ++ (fieldsOf separators false (word ++ text)).map Field.plain := by
  rw [toList_addSplit_unquoted hword]
  refine congrArg (finished.reverse ++ ·) (List.map_congr_left fun field hfield => ?_)
  exact Field.unquoted_eq_plain.mpr ⟨rfl, fun c hc => hwild c (mem_field hfield hc).1⟩

end Fields

/-! ## Unquoted parameters -/

open Syntax (isName parseWord Position)

/-- The characters at which a shell splits values. -/
def Shell.separators (shell : Shell) : String :=
  (shell.state.get? "IFS").getD standardSeparators

theorem parseWord_unquoted {name : String} (hname : isName name = true) (position : Position)
    (depth : Nat) : parseWord ("$" ++ name) position depth = .ok [.parameter true name] := by
  have htext : ("$" ++ name).toList = '$' :: (name.toList ++ []) := by simp
  rw [parseWord, Syntax.Word.parse, htext, Syntax.Word.fragments_dollar,
    expansion_parameter hname _ _ (by rfl)]
  exact Syntax.Word.fragments_nil

/-- An unquoted parameter adds its value, to be split. -/
theorem expandWord_parameter {executor : Executor} {short : Bool} {text value : String}
    {shell : Shell}
    (hvalue : parameterValue (evaluation executor) short text shell = .done (.ok value, shell)) :
    expandWord (evaluation executor) true (.word [.parameter short text]) shell =
      .done (.ok ((shell.noFields true).addExpansion value), shell) := by
  refine (congrFun (expandAll_singleton _ false _ _) shell).trans ?_
  rw [evaluation_expand, expandFragment, Bool.false_and, if_neg Bool.false_ne_true]
  exact bind_of_done hvalue

/-- Without wildcards the arguments are the fields of the value. -/
theorem expandWords_value {executor : Executor} {short : Bool} {text value : String} {shell : Shell}
    (hvalue : parameterValue (evaluation executor) short text shell = .done (.ok value, shell))
    (hplain : Pattern.hasWildcard value = false) :
    expandWords (evaluation executor) [.word [.parameter short text]] shell =
      .done (.ok ((fieldsOf shell.separators false value.toList).map String.ofList), shell) := by
  have hwild : ∀ c ∈ value.toList, isWildcard c = false :=
    hasWildcard_iff.mp (by rwa [String.ofList_toList])
  have hlist : ((shell.noFields true).addExpansion value).toList =
      (fieldsOf shell.separators false value.toList).map Field.plain :=
    Fields.toList_addSplit (List.forall_mem_nil _) hwild []
  have hrest : expandWords (evaluation executor) [] shell = .done (.ok [], shell) := rfl
  have hwords := expandWords_fields (expandWord_parameter hvalue) (by simp [hlist, Field.plain])
    hrest
  rw [hlist, List.map_map, List.append_nil] at hwords
  exact hwords

/-- An unquoted variable without wildcards is split with a field up to each mark. -/
theorem expandWords_unquoted (executor : Executor) {name : String} {shell : Shell}
    (hname : isName name = true) (hplain : Pattern.hasWildcard (shell.held name) = false)
    {fields : List (List Char)}
    (hfields : fieldsOf shell.separators false (shell.held name).toList = fields) :
    expandWords (evaluation executor) [.word [.parameter true name]] shell =
      .done (.ok (fields.map String.ofList), shell) := by
  rw [expandWords_value (parameterValue_name (evaluation executor) hname shell) hplain, hfields]

/-- The fields of an unquoted variable without wildcards, whatever the separators: they are those of
the POSIX rule just when no mark in its value is late. -/
theorem expandWords_split (executor : Executor) {name : String} {shell : Shell}
    (hname : isName name = true) (hplain : Pattern.hasWildcard (shell.held name) = false) :
    ∃ word, (∀ position depth, parseWord ("$" ++ name) position depth = .ok word) ∧
      expandWords (evaluation executor) [.word word] shell =
        .done (.ok ((fieldsOf shell.separators false (shell.held name).toList).map String.ofList),
          shell) ∧
      (fieldsOf shell.separators false (shell.held name).toList =
          fieldsOf shell.separators true (shell.held name).toList ↔
        ¬HasLateMark shell.separators (shell.held name).toList) :=
  ⟨_, parseWord_unquoted hname, expandWords_unquoted executor hname hplain rfl, (joinsAlike _).2⟩

/-- A shell with these separators, in which a variable holds a text. -/
def Shell.dividing (separators held : String) : Shell :=
  .new (((State.initial "/" 1).set "IFS" separators).set "v" held) ⟨9, 9, 9⟩

/-- Blanks and other separators, and an empty field between two of them. -/
theorem expandWords_split_mixed :
    isName "v" = true ∧
    Pattern.hasWildcard ((Shell.dividing " :" " a b: c::d:").held "v") = false ∧
    ∃ word, parseWord "$v" ⟨1, 1⟩ 0 = .ok word ∧
      expandWords (evaluation .idle) [.word word] (.dividing " :" " a b: c::d:") =
        .done (.ok ["a", "b", "c", "", "d"], .dividing " :" " a b: c::d:") ∧
      ¬HasLateMark " :" " a b: c::d:".toList := by
  have hname : isName "v" = true := by decide
  have hplain : Pattern.hasWildcard ((Shell.dividing " :" " a b: c::d:").held "v") = false := by
    decide +kernel
  have hfields : ∀ joins, fieldsOf " :" joins " a b: c::d:".toList =
      [['a'], ['b'], ['c'], [], ['d']] := by
    intro joins
    cases joins <;> cbv
  obtain ⟨word, hparse, hwords, hlate⟩ := expandWords_split .idle hname hplain
  refine ⟨hname, hplain, word, hparse _ _, hwords.trans ?_, hlate.mp ?_⟩
  · exact congrArg (fun fields : List (List Char) =>
      Proc.done (Except.ok (fields.map String.ofList), Shell.dividing " :" " a b: c::d:"))
      (hfields false)
  · exact (hfields false).trans (hfields true).symm

/-- A gap ends a field, and the mark behind it ends an empty one. -/
theorem late_mark_ends_field :
    expandWords (evaluation .idle) [.word [.parameter true "v"]] (.dividing " :" "a : b") =
        .done (.ok ["a", "", "b"], .dividing " :" "a : b") ∧
      (fieldsOf " :" true "a : b".toList).map String.ofList = ["a", "b"] := by
  have hfields : fieldsOf " :" false "a : b".toList = [['a'], [], ['b']] := by cbv
  have hjoined : fieldsOf " :" true "a : b".toList = [['a'], ['b']] := by cbv
  have hname : isName "v" = true := by decide
  have hplain : Pattern.hasWildcard ((Shell.dividing " :" "a : b").held "v") = false := by
    decide +kernel
  refine ⟨expandWords_unquoted .idle hname hplain hfields, ?_⟩
  rw [hjoined]
  rfl

end Conch
