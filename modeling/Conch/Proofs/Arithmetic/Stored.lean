import Conch.Proofs.Arithmetic.Variables
import Conch.Proofs.Quoting

/-!
# Stored values

An arithmetic assignment leaves the numeral of its value in a variable.  The name of the
variable has that value again, and so has the text of the variable where an expansion puts it
into an expression (`arithmeticValue_stored`).  Only the least word is not read back from its
text, where its digits stand after a minus and are one more than the greatest word.
-/

namespace Conch

namespace Arithmetic

open Text (isBlank)

/-! ## Numerals as values -/

theorem not_isBlank_numeral (n : Int64) : ∀ c ∈ (numeral n).toList, isBlank c = false := by
  have hdigits : ∀ c ∈ Nat.toDigits 10 n.toInt.natAbs, isBlank c = false := fun c hc =>
    not_isBlank_of_isNameChar (Syntax.isNameChar_of_isDigit (Text.isDigit_toDigits c hc))
  rw [numeral, Text.toList_toString]
  split
  · exact List.forall_mem_cons.mpr ⟨by decide, hdigits⟩
  · exact hdigits

theorem trim_of_not_isBlank {text : String} (h : ∀ c ∈ text.toList, isBlank c = false) :
    Text.trim text = text := by
  have hkept : ∀ letters : List Char, (∀ c ∈ letters, isBlank c = false) →
      letters.dropWhile isBlank = letters := by
    intro letters hletters
    cases letters with
    | nil => rfl
    | cons c rest =>
        rw [List.dropWhile_cons, hletters c List.mem_cons_self, if_neg Bool.false_ne_true]
  rw [Text.trim, Text.dropLastWhile, hkept _ h,
    hkept _ fun c hc => h c (List.mem_reverse.mp hc), List.reverse_reverse, String.ofList_toList]

theorem signed64?_numeral (n : Int64) : Text.signed64? (numeral n) = some n.toInt :=
  Text.integer?_toString n.le_toInt (Int.le_of_lt_add_one n.toInt_lt)

theorem eq_minValue_iff {n : Int64} : n = Int64.minValue ↔ n.toInt = -0x8000000000000000 := by
  rw [← Int64.toInt_inj, Int64.toInt_minValue]
  rfl

/-- The numeral of a word is the word as an expression, but for the least word: the digits after
its sign are no word. -/
theorem value_numeral (n : Int64) (bindings : Bindings String) :
    value (numeral n) bindings =
      (if n = Int64.minValue then .error (.badNumber "9223372036854775808") else .ok n,
        bindings) := by
  rcases Int.lt_or_le n.toInt 0 with hneg | hpos
  · have htext : (numeral n).toList = '-' :: Nat.toDigits 10 n.toInt.natAbs := by
      rw [numeral, Text.toList_toString, if_pos hneg]
    rw [value_minus Nat.toDigits_ne_nil Text.isDigit_toDigits bindings htext,
      numberOf_decimal (Text.digits?_toDigits _) (leadsWithZero_toDigits _)]
    split
    · rename_i hlt
      have hvalue : -Int64.ofNat n.toInt.natAbs = n := by
        rw [← Int64.toInt_inj, Int64.toInt_neg_ofNat_of_le (Nat.le_of_lt hlt)]
        omega
      have hne : n ≠ Int64.minValue := by
        rw [Ne, eq_minValue_iff]
        omega
      rw [if_neg hne, Except.map, hvalue]
    -- the digits are no word, and that is so for the least word only
    · rename_i hle
      have hleast : n.toInt = -0x8000000000000000 := by
        have := n.le_toInt
        omega
      rw [if_pos (eq_minValue_iff.mpr hleast), hleast]
      rfl
  · have hne : n ≠ Int64.minValue := by
      rw [Ne, eq_minValue_iff]
      omega
    rw [if_neg hne, value, Expression.ofText, Token.ofText_numeral (Int64.le_iff_toInt_le.mpr hpos)]
    simp only [ofTokens_number]
    rfl

/-- A variable that holds a numeral is its value, the least word too. -/
theorem run_resolve_numeral {name : String} {bindings : Bindings String} {n : Int64}
    (h : bindings.get? name = some (numeral n)) :
    (resolve maxResolveDepth name).run bindings = (.ok n, bindings) := by
  have htrim : Text.trim (numeral n) = numeral n := trim_of_not_isBlank (not_isBlank_numeral n)
  have hne : (numeral n).isEmpty = false := by
    rw [numeral, ← Bool.not_eq_true, String.isEmpty_iff, ← String.toList_inj, Text.toList_toString]
    split <;> simp [Nat.toDigits_ne_nil]
  refine (run_resolveWith _ name bindings).trans ?_
  rw [h, Option.getD_some, htrim, hne, if_neg Bool.false_ne_true, signed64?_numeral]
  dsimp only
  rw [Int64.ofInt_toInt]

/-- Blanks on either side do not matter. -/
theorem value_spaced (text : String) (bindings : Bindings String) :
    value (" " ++ text ++ " ") bindings = value text bindings := by
  have htokens : Token.ofText (" " ++ text ++ " ").toList = Token.ofText text.toList := by
    have hsplit : (" " ++ text ++ " ").toList = ' ' :: (text.toList ++ [' ']) := by simp
    rw [hsplit, Token.ofText_blank (by decide), Token.ofText_append (by rfl),
      Token.ofText_blank (by decide), Token.ofText_nil]
    cases Token.ofText text.toList <;> simp [Except.bind, Except.map]
  rw [value, value, Expression.ofText, Expression.ofText, htokens]

/-- An assignment is to a name, and leaves the numeral of its value there. -/
theorem get?_of_assign {name : String} {op : Option BinaryOperator} {operand : Expression}
    {resolve : String → Evaluation Int64} {before after : Bindings String} {n : Int64}
    (h : ((Expression.assign name op operand).evaluate resolve).run before = (.ok n, after)) :
    Syntax.isName name = true ∧ after.get? name = some (numeral n) := by
  have hstore : ∀ {result : Int64} {middle : Bindings String},
      (do modify (fun bindings => bindings.insert name (numeral result)); return result :
        Evaluation Int64).run middle = (.ok n, after) → after.get? name = some (numeral n) := by
    intro result middle hrun
    obtain ⟨hresult, hafter⟩ := Prod.mk.inj hrun
    cases hresult
    rw [← hafter]
    exact Bindings.get?_insert_self _ _ _
  rw [Expression.evaluate] at h
  cases hname : Syntax.isName name with
  | false =>
      rw [hname] at h
      cases h
  | true =>
      rw [hname] at h
      obtain ⟨value, middle, -, h⟩ := run_bind_eq_ok h
      refine ⟨rfl, ?_⟩
      cases op with
      | none => exact hstore h
      | some op =>
          obtain ⟨old, resolved, -, h⟩ := run_bind_eq_ok h
          obtain ⟨result, final, -, h⟩ := run_bind_eq_ok h
          exact hstore h

end Arithmetic

open Arithmetic (Expression exists_of_isName numeral)
open Syntax (Node Position isName isNameChar isNameStart isPlain parseWord)

/-! ## Words around a name -/

theorem State.parameter?_name {name : String} (h : isName name = true) (state : State) :
    state.parameter? name = state.get? name := by
  obtain ⟨c, rest, htext, hc, -⟩ := exists_of_isName h
  have hdigits : name.toList.all Char.isDigit = false := by
    rw [htext, List.all_cons, Syntax.isDigit_of_isNameStart hc, Bool.false_and]
  unfold State.parameter?
  split
  -- no special parameter is a name
  iterate 8 exact absurd h (by decide)
  rw [hdigits, if_neg Bool.false_ne_true]

theorem isNameChar_of_isName {name : String} (h : isName name = true) :
    ∀ c ∈ name.toList, isNameChar c = true := by
  obtain ⟨c, rest, htext, hc, hrest⟩ := exists_of_isName h
  rw [htext]
  exact List.forall_mem_cons.mpr ⟨Syntax.isNameChar_of_isNameStart hc, hrest⟩

section

variable {name : String} (hname : isName name = true) (position : Position) (depth : Nat)

include hname

theorem parseWord_name :
    parseWord (" " ++ name ++ " ") position depth = .ok [.literal (" " ++ name ++ " ")] := by
  have hplain : ∀ c ∈ name.toList, isPlain c = true := fun c hc =>
    Syntax.isPlain_of_isNameChar (isNameChar_of_isName hname c hc)
  have htext : (" " ++ name ++ " ").toList = ' ' :: (name.toList ++ [' ']) := by simp
  rw [parseWord, Syntax.Word.parse, htext,
    Syntax.Word.fragments_letter (by decide) (by decide) (by decide) (by decide),
    Syntax.Word.fragments_letters hplain,
    Syntax.Word.fragments_letter (by decide) (by decide) (by decide) (by decide),
    Syntax.Word.fragments_nil]
  simp [Syntax.Word.flush, String.ofList_append, String.append_assoc]

theorem expansion_parameter (parse : Syntax.Word.ProgramParser) (place : List Char → Position)
    {rest : List Char} (hrest : rest.head?.all Text.isBlank = true) :
    Syntax.Word.expansion parse place (name.toList ++ rest) =
      .ok (some (.parameter true name, rest)) := by
  obtain ⟨c, letters, htext, hc, hletters⟩ := exists_of_isName hname
  have hparen : c ≠ '(' := by
    rintro rfl
    cases hc
  have hbrace : c ≠ '\x7b' := by
    rintro rfl
    cases hc
  rw [htext, List.cons_append, Syntax.Word.expansion_name hparen hbrace, if_pos hc,
    Arithmetic.takeWhile_append_blank hrest fun _ => Arithmetic.isNameChar_of_isBlank,
    Arithmetic.dropWhile_append_blank hrest fun _ => Arithmetic.isNameChar_of_isBlank,
    List.takeWhile_eq_self_iff.mpr hletters, List.dropWhile_eq_nil_iff.mpr hletters, ← htext,
    String.ofList_toList, List.nil_append]

theorem parseWord_parameter :
    parseWord (" $" ++ name ++ " ") position depth =
      .ok [.literal " ", .parameter true name, .literal " "] := by
  have htext : (" $" ++ name ++ " ").toList = ' ' :: '$' :: (name.toList ++ [' ']) := by simp
  rw [parseWord, Syntax.Word.parse, htext,
    Syntax.Word.fragments_letter (by decide) (by decide) (by decide) (by decide),
    Syntax.Word.fragments_dollar, expansion_parameter hname _ _ (by rfl)]
  dsimp only
  rw [Syntax.Word.fragments_letter (by decide) (by decide) (by decide) (by decide),
    Syntax.Word.fragments_nil]
  rfl

end

/-! ## Their values -/

/-- What an arithmetic expansion gives for the value of the text it expanded. -/
def arithmeticOutcome (expanded : String) :
    Except Arithmetic.Fault Int64 → Except Interruption String
  | .ok value => .ok (numeral value)
  | .error fault => .error (.arithmetic (Text.trim expanded) (.expression fault))

/-- A value that changes no variable is the outcome of the expansion. -/
theorem arithmeticValue_of_expanded {parts : Evaluator} {text expanded : String}
    {fragments : List Node} {shell : Shell} {result : Except Arithmetic.Fault Int64}
    (hparse : parseWord text ⟨0, 0⟩ 1 = .ok fragments)
    (hexpand : expandSingle parts (.word fragments) shell = .done (.ok expanded, shell))
    (hvalue : Arithmetic.value expanded shell.state.bindings = (result, shell.state.bindings)) :
    arithmeticValue parts text shell = .done (arithmeticOutcome expanded result, shell) := by
  rw [arithmeticValue, hparse]
  refine (bind_of_done hexpand).trans ?_
  refine (bind_of_done (rfl : Action.state shell = .done (.ok shell.state, shell))).trans ?_
  rw [hvalue]
  cases result <;> rfl

namespace Fields

section

variable (fields : Fields) (text : String)

@[simp] theorem addUnquoted_text :
    (fields.addUnquoted text).current.text = fields.current.text ++ text := by
  unfold addUnquoted
  split
  · rename_i hempty
    rw [String.isEmpty_iff.mp hempty, String.append_empty]
  · rfl

@[simp] theorem addUnquoted_finished : (fields.addUnquoted text).finished = fields.finished := by
  unfold addUnquoted
  split <;> rfl

@[simp] theorem addUnquoted_splits : (fields.addUnquoted text).splits = fields.splits := by
  unfold addUnquoted
  split <;> rfl

theorem addUnquoted_started (h : text ≠ "") : (fields.addUnquoted text).started = true := by
  rw [addUnquoted, if_neg (by simpa using h)]

end

/-- One field that has been started is the whole text. -/
theorem joined_of_started {fields : Fields} (hfinished : fields.finished = [])
    (hstarted : fields.started = true) : fields.joined = fields.current.text := by
  simp [joined, toList, finish, hfinished, hstarted]

end Fields

/-- What a variable stands for; nothing when it is not set. -/
def Shell.held (shell : Shell) (name : String) : String := (shell.state.get? name).getD ""

theorem parameterValue_name (parts : Evaluator) {name : String} (hname : isName name = true)
    (shell : Shell) :
    parameterValue parts true name shell = .done (.ok (shell.held name), shell) := by
  rw [parameterValue]
  refine (bind_of_done (rfl : Action.state shell = .done (.ok shell.state, shell))).trans ?_
  rw [State.parameter?_name hname]
  rfl

section

variable (executor : Executor) {name : String} {shell : Shell}

/-- An unquoted variable adds what it stands for. -/
theorem expand_parameter (hname : isName name = true) (fields : Fields) :
    (evaluation executor).expand false (.parameter true name) fields shell =
      .done (.ok (fields.addExpansion (shell.held name)), shell) := by
  rw [evaluation_expand, expandFragment, Bool.false_and, if_neg Bool.false_ne_true]
  exact bind_of_done (parameterValue_name _ hname shell)

theorem expand_literal_plain {text : String} (hplain : ∀ c ∈ text.toList, c ≠ '\'' ∧ c ≠ '\\')
    (fields : Fields) :
    (evaluation executor).expand false (.literal text) fields = pure (fields.addUnquoted text) := by
  rw [evaluation_expand, expandFragment, Fields.addLiteral_plain hplain]
  simp

theorem expandSingle_name (hname : isName name = true) :
    expandSingle (evaluation executor) (.word [.literal (" " ++ name ++ " ")]) shell =
      .done (.ok (" " ++ name ++ " "), shell) := by
  have htext : (" " ++ name ++ " ").toList = ' ' :: (name.toList ++ [' ']) := by simp
  have hplain : ∀ c ∈ (" " ++ name ++ " ").toList, c ≠ '\'' ∧ c ≠ '\\' := by
    have hletters : ∀ c ∈ name.toList, c ≠ '\'' ∧ c ≠ '\\' := by
      intro c hc
      have hchar := isNameChar_of_isName hname c hc
      constructor <;>
      · rintro rfl
        cases hchar
    rw [htext]
    refine List.forall_mem_cons.mpr ⟨by decide, List.forall_mem_append.mpr ⟨hletters, ?_⟩⟩
    exact List.forall_mem_singleton.mpr (by decide)
  have hhome : homeOf shell.state (" " ++ name ++ " ").toList = none := by
    rw [htext]
    rfl
  have hword : expandWord (evaluation executor) false
      (.word [.literal (" " ++ name ++ " ")]) shell =
        .done (.ok ((shell.noFields false).addUnquoted (" " ++ name ++ " ")), shell) := by
    rw [expandWord_literal _ _ _ hhome, expandAll_singleton, expand_literal_plain executor hplain]
    rfl
  refine (bind_of_done hword).trans ?_
  rw [Fields.joined_of_started (by rw [Fields.addUnquoted_finished]; rfl)
    (Fields.addUnquoted_started _ _ (by simp)), Fields.addUnquoted_text]
  exact congrArg (fun text => Proc.done (Except.ok text, shell)) String.empty_append

theorem expand_parameter_name (hname : isName name = true) {held : String}
    (hheld : shell.state.get? name = some held) {fields : Fields}
    (hsplits : fields.splits = false) :
    (evaluation executor).expand false (.parameter true name) fields shell =
      .done (.ok (fields.addUnquoted held), shell) := by
  have hvalue : fields.addExpansion (shell.held name) = fields.addUnquoted held := by
    simp [Fields.addExpansion, hsplits, Shell.held, hheld]
  rw [expand_parameter executor hname, hvalue]

theorem expandSingle_parameter (hname : isName name = true) {held : String}
    (hheld : shell.state.get? name = some held) :
    expandSingle (evaluation executor) (.word [.literal " ", .parameter true name, .literal " "])
        shell = .done (.ok (" " ++ held ++ " "), shell) := by
  have hblank : ∀ fields, (evaluation executor).expand false (.literal " ") fields =
      pure (fields.addUnquoted " ") := expand_literal_plain executor (by simp)
  have hword : expandWord (evaluation executor) false
      (.word [.literal " ", .parameter true name, .literal " "]) shell =
        .done (.ok ((((shell.noFields false).addUnquoted " ").addUnquoted held).addUnquoted " "),
          shell) := by
    have hvalue := expand_parameter_name executor hname hheld
      (show ((shell.noFields false).addUnquoted " ").splits = false by
        rw [Fields.addUnquoted_splits]
        rfl)
    rw [expandWord_literal _ _ _ rfl, expandAll, List.foldlM_cons, hblank, pure_bind,
      List.foldlM_cons]
    refine (bind_of_done hvalue).trans ?_
    rw [List.foldlM_cons, hblank, pure_bind]
    rfl
  refine (bind_of_done hword).trans ?_
  rw [Fields.joined_of_started (by simp only [Fields.addUnquoted_finished]; rfl)
    (Fields.addUnquoted_started _ _ (by decide))]
  simp only [Fields.addUnquoted_text]
  exact congrArg (fun text => Proc.done (Except.ok (text ++ held ++ " "), shell))
    String.empty_append

variable {n : Int64} (hname : isName name = true)
  (hheld : shell.state.get? name = some (numeral n))

include hname hheld

theorem arithmeticValue_name :
    arithmeticValue (evaluation executor) (" " ++ name ++ " ") shell =
      .done (.ok (numeral n), shell) := by
  have hvalue : Arithmetic.value (" " ++ name ++ " ") shell.state.bindings =
      (.ok n, shell.state.bindings) := by
    rw [Arithmetic.value_spaced, Arithmetic.value_name hname]
    exact Arithmetic.run_resolve_numeral hheld
  exact arithmeticValue_of_expanded (parseWord_name hname _ _) (expandSingle_name executor hname)
    hvalue

/-- The text of the least word is put in place of the parameter, and cannot be read there. -/
theorem arithmeticValue_parameter :
    arithmeticValue (evaluation executor) (" $" ++ name ++ " ") shell =
      .done (if n = Int64.minValue then
          .error (.arithmetic "-9223372036854775808"
            (.expression (.badNumber "9223372036854775808")))
        else .ok (numeral n), shell) := by
  have hvalue := Arithmetic.value_spaced (numeral n) shell.state.bindings
  rw [Arithmetic.value_numeral] at hvalue
  rw [arithmeticValue_of_expanded (parseWord_parameter hname _ _)
    (expandSingle_parameter executor hname hheld) hvalue]
  split
  · rename_i hleast
    have htrim : Text.trim (" " ++ numeral n ++ " ") = "-9223372036854775808" := by
      subst hleast
      decide +kernel
    rw [arithmeticOutcome, htrim]
  · rfl

end

/-- The value that an assignment stored is what the variable is, by name, and what its text is
again, unless the value is the least word. -/
theorem arithmeticValue_stored (executor : Executor) {name : String}
    {op : Option Arithmetic.BinaryOperator} {operand : Expression}
    {resolve : String → Arithmetic.Evaluation Int64} {before after : Bindings String} {n : Int64}
    {shell : Shell}
    (hrun : ((Expression.assign name op operand).evaluate resolve).run before = (.ok n, after))
    (hshell : shell.state.get? name = after.get? name) :
    arithmeticValue (evaluation executor) (" " ++ name ++ " ") shell =
        .done (.ok (numeral n), shell) ∧
      arithmeticValue (evaluation executor) (" $" ++ name ++ " ") shell =
        .done (if n = Int64.minValue then
            .error (.arithmetic "-9223372036854775808"
              (.expression (.badNumber "9223372036854775808")))
          else .ok (numeral n), shell) := by
  obtain ⟨hname, hafter⟩ := Arithmetic.get?_of_assign hrun
  have hheld := hshell.trans hafter
  exact ⟨arithmeticValue_name executor hname hheld, arithmeticValue_parameter executor hname hheld⟩

/-- A shell in which a variable holds a text. -/
def Shell.holding (name held : String) : Shell :=
  .new ((State.initial "/" 1).set name held) ⟨9, 9, 9⟩

/-- A negative value is read back. -/
theorem arithmeticValue_stored_negative :
    arithmeticValue (evaluation .idle) " $x " (.holding "x" "-7") =
      .done (.ok "-7", .holding "x" "-7") := by
  have hrun : ((Expression.assign "x" none (.unary .negate (.number 7))).evaluate
      (Arithmetic.resolve 0)).run ∅ = (.ok (-7), ⟨[("x", "-7")]⟩) := rfl
  have hshell : (Shell.holding "x" "-7").state.get? "x" =
      (⟨[("x", "-7")]⟩ : Bindings String).get? "x" := rfl
  exact (arithmeticValue_stored .idle hrun hshell).2

/-- A shift gives the least word, which is stored and not read back. -/
theorem arithmeticValue_stored_least :
    ((Expression.assign "x" none (.binary .shiftLeft (.number 1) (.number 63))).evaluate
        (Arithmetic.resolve 0)).run ∅ =
      (.ok Int64.minValue, ⟨[("x", "-9223372036854775808")]⟩) ∧
    arithmeticValue (evaluation .idle) " x " (.holding "x" "-9223372036854775808") =
      .done (.ok "-9223372036854775808", .holding "x" "-9223372036854775808") ∧
    arithmeticValue (evaluation .idle) " $x " (.holding "x" "-9223372036854775808") =
      .done (.error (.arithmetic "-9223372036854775808"
        (.expression (.badNumber "9223372036854775808"))),
        .holding "x" "-9223372036854775808") := by
  have hnumeral : numeral Int64.minValue = "-9223372036854775808" := by decide +kernel
  have hheld : (Shell.holding "x" "-9223372036854775808").state.get? "x" =
      some (numeral Int64.minValue) := by rw [hnumeral]; rfl
  have hbyName := arithmeticValue_name .idle (by decide) hheld
  have hbyText := arithmeticValue_parameter .idle (by decide) hheld
  rw [hnumeral] at hbyName
  rw [if_pos rfl] at hbyText
  exact ⟨rfl, hbyName, hbyText⟩

end Conch
