import Conch.Proofs.Shell.Choices
import Conch.Proofs.Shell.Splitting

/-!
# Values that are split once more

An unquoted expansion is split, whatever its value is made of.  The list of all positional
parameters is one text first, with a blank between the parameters, and so they are kept
apart just when a blank is a separator (`expandWords_positional`).  The operand of a
parameter is expanded to one text, which loses its quotes on the way, and so a quoted
default is split and searched for wildcards like any other value (`expandWords_default`).
-/

namespace Conch

open Splitting
open Syntax (Node Position isName isNameChar parseWord)

/-! ## All parameters -/

/-- What is left of parameters that were put together with blanks between them. -/
def rejoined (separators : String) (positional : List String) : List String :=
  if isSeparator separators ' ' = true ∨ positional.length ≤ 1 then positional
  else [" ".intercalate positional]

section

variable {separators : String}

/-- Only two or more parameters that no blank separates are not kept apart. -/
theorem rejoined_eq_iff {positional : List String} :
    rejoined separators positional = positional ↔
      isSeparator separators ' ' = true ∨ positional.length ≤ 1 := by
  unfold rejoined
  split
  · rename_i hkept
    exact iff_of_true rfl hkept
  · rename_i hjoined
    refine iff_of_false (fun heq => hjoined (.inr ?_)) hjoined
    rw [← heq]
    exact Nat.le_refl _

/-- A blank that is a separator takes apart what it was put between. -/
theorem fieldsOf_intercalate {fields : List (List Char)}
    (hblank : isSeparator separators ' ' = true)
    (hfields : ∀ field ∈ fields, field ≠ [] ∧ ∀ c ∈ field, isSeparator separators c = false) :
    fieldsOf separators false ([' '].intercalate fields) = fields := by
  induction fields with
  | nil => exact fieldsOf_nil
  | cons first rest ih =>
      obtain ⟨⟨hne, hfirst⟩, hrest⟩ := List.forall_mem_cons.mp hfields
      cases rest with
      | nil => rw [List.intercalate_singleton, fieldsOf_single hne hfirst]
      | cons second rest =>
          rw [List.intercalate_cons_cons, List.append_assoc, List.singleton_append,
            fieldsOf_word hne hfirst (by exact hblank)]
          exact congrArg (first :: ·) (ih hrest)

theorem mem_intercalate {fields : List (List Char)} {c : Char}
    (h : c ∈ [' '].intercalate fields) : c = ' ' ∨ ∃ field ∈ fields, c ∈ field := by
  induction fields with
  | nil => simp [List.intercalate] at h
  | cons first rest ih =>
      cases rest with
      | nil => exact .inr (by simpa using h)
      | cons second rest =>
          rw [List.intercalate_cons_cons, List.mem_append, List.mem_append] at h
          rcases h with (hfirst | hblank) | hrest
          · exact .inr ⟨first, List.mem_cons_self, hfirst⟩
          · exact .inl (List.mem_singleton.mp hblank)
          · exact (ih hrest).imp_right fun ⟨field, hfield, hc⟩ =>
              ⟨field, List.mem_cons_of_mem _ hfield, hc⟩

/-- Where a blank is no separator, several fields with blanks between them are one field. -/
theorem fieldsOf_intercalate_single {first : List Char} {rest : List (List Char)}
    (hblank : isSeparator separators ' ' = false)
    (hfields : ∀ field ∈ first :: rest,
      field ≠ [] ∧ ∀ c ∈ field, isSeparator separators c = false) :
    fieldsOf separators false ([' '].intercalate (first :: rest)) =
      [[' '].intercalate (first :: rest)] := by
  refine fieldsOf_single ?_ fun c hc => ?_
  · have hne := (hfields first List.mem_cons_self).1
    cases rest with
    | nil => rwa [List.intercalate_singleton]
    | cons second rest => simp [List.intercalate_cons_cons]
  · rcases mem_intercalate hc with rfl | ⟨field, hfield, hc⟩
    · exact hblank
    · exact (hfields field hfield).2 c hc

theorem fieldsOf_positional {positional : List String}
    (h : ∀ text ∈ positional, text ≠ "" ∧ ∀ c ∈ text.toList, isSeparator separators c = false) :
    (fieldsOf separators false (" ".intercalate positional).toList).map String.ofList =
      rejoined separators positional := by
  have hfields : ∀ field ∈ positional.map String.toList,
      field ≠ [] ∧ ∀ c ∈ field, isSeparator separators c = false := by
    simpa using h
  have hjoined : (" ".intercalate positional).toList =
      [' '].intercalate (positional.map String.toList) := String.toList_intercalate
  -- the blanks between the parameters either all end a field or none of them does
  cases hblank : isSeparator separators ' ' with
  | true =>
      rw [hjoined, fieldsOf_intercalate hblank hfields, rejoined, if_pos (.inl hblank)]
      simp
  | false =>
      cases positional with
      | nil => simp [rejoined]
      | cons first rest =>
          rw [hjoined, List.map_cons, fieldsOf_intercalate_single hblank hfields,
            ← List.map_cons, ← hjoined, List.map_singleton, String.ofList_toList]
          cases rest with
          | nil => simp [rejoined]
          | cons second rest => simp [rejoined, hblank]

end

theorem parseWord_positional (position : Position) (depth : Nat) :
    parseWord "$@" position depth = .ok [.parameter true "@"] := by
  have hexpansion : ∀ (program : Syntax.Word.ProgramParser) (place : List Char → Position),
      Syntax.Word.expansion program place ['@'] = .ok (some (.parameter true "@", [])) := by
    intro program place
    rfl
  rw [parseWord, Syntax.Word.parse]
  change Syntax.Word.fragments _ _ [] [] ['$', '@'] = _
  rw [Syntax.Word.fragments_dollar, hexpansion]
  exact Syntax.Word.fragments_nil

/-- The unquoted list of all parameters, where no parameter is empty or has a separator or a wildcard
in it.  The parameters are kept apart just when a blank is a separator or there are not two. -/
theorem expandWords_positional (executor : Executor) {shell : Shell}
    (h : ∀ text ∈ shell.state.positional, text ≠ "" ∧
      ∀ c ∈ text.toList, isSeparator shell.separators c = false ∧ isWildcard c = false) :
    (∀ position depth, parseWord "$@" position depth = .ok [.parameter true "@"]) ∧
    expandWords (evaluation executor) [.word [.parameter true "@"]] shell =
      .done (.ok (rejoined shell.separators shell.state.positional), shell) ∧
    (rejoined shell.separators shell.state.positional = shell.state.positional ↔
      isSeparator shell.separators ' ' = true ∨ shell.state.positional.length ≤ 1) := by
  have hvalue : parameterValue (evaluation executor) true "@" shell =
      .done (.ok (" ".intercalate shell.state.positional), shell) := rfl
  have hplain : Pattern.hasWildcard (" ".intercalate shell.state.positional) = false := by
    rw [← String.ofList_toList (s := " ".intercalate _), hasWildcard_iff, String.toList_intercalate]
    intro c hc
    rcases mem_intercalate hc with rfl | ⟨field, hfield, hc⟩
    · rfl
    · obtain ⟨text, htext, rfl⟩ := List.mem_map.mp hfield
      exact ((h text htext).2 c hc).2
  refine ⟨parseWord_positional, ?_, rejoined_eq_iff⟩
  rw [expandWords_value hvalue hplain, fieldsOf_positional fun text htext =>
    ⟨(h text htext).1, fun c hc => ((h text htext).2 c hc).1⟩]

/-- A shell with these separators and parameters. -/
def Shell.dealing (separators : String) (positional : List String) : Shell :=
  .new { (State.initial "/" 1).set "IFS" separators with positional := positional } ⟨9, 9, 9⟩

@[simp] theorem Shell.dealing_separators (separators : String) (positional : List String) :
    (Shell.dealing separators positional).separators = separators :=
  congrArg (Option.getD · standardSeparators) (Bindings.get?_insert_self _ "IFS" separators)

/-- Three parameters, where a blank and a colon are separators. -/
theorem expandWords_positional_blank :
    (∀ text ∈ (Shell.dealing " :" ["a", "bc", "d"]).state.positional, text ≠ "" ∧
      ∀ c ∈ text.toList,
        isSeparator (Shell.dealing " :" ["a", "bc", "d"]).separators c = false ∧
          isWildcard c = false) ∧
    expandWords (evaluation .idle) [.word [.parameter true "@"]]
        (.dealing " :" ["a", "bc", "d"]) =
      .done (.ok ["a", "bc", "d"], .dealing " :" ["a", "bc", "d"]) := by
  have hplain : ∀ text ∈ (Shell.dealing " :" ["a", "bc", "d"]).state.positional, text ≠ "" ∧
      ∀ c ∈ text.toList,
        isSeparator (Shell.dealing " :" ["a", "bc", "d"]).separators c = false ∧
          isWildcard c = false := by
    have hall : ["a", "bc", "d"].all (fun text =>
        text != "" && text.toList.all fun c => !isSeparator " :" c && !isWildcard c) = true := by
      decide +kernel
    intro text htext
    simpa using List.all_eq_true.mp hall text htext
  obtain ⟨-, hwords, hkept⟩ := expandWords_positional .idle hplain
  refine ⟨hplain, hwords.trans ?_⟩
  rw [hkept.mpr (.inl (by decide +kernel))]
  rfl

/-- Where only a colon is a separator, two parameters become one. -/
theorem positional_joined :
    expandWords (evaluation .idle) [.word [.parameter true "@"]] (.dealing ":" ["a", "b"]) =
      .done (.ok ["a b"], .dealing ":" ["a", "b"]) := by
  have hvalue : parameterValue (evaluation .idle) true "@" (.dealing ":" ["a", "b"]) =
      .done (.ok "a b", .dealing ":" ["a", "b"]) := by
    rfl
  have hfields : fieldsOf ":" false "a b".toList = [['a', ' ', 'b']] := by cbv
  rw [expandWords_value hvalue (by decide +kernel), Shell.dealing_separators, hfields]
  rfl

/-! ## Quoted defaults -/

namespace ParameterForm

/-- A name with an operand after it that stands for it when it is empty. -/
theorem ofText?_default {name : String} (hname : isName name = true) (operand : String) :
    ofText? (name ++ ":-" ++ operand) = some (.operation name true .useDefault operand) := by
  obtain ⟨c, letters, htext, hc, hletters⟩ := Arithmetic.exists_of_isName hname
  have hsplit : splitName (c :: (letters ++ ':' :: '-' :: operand.toList)) =
      (c :: letters, ':' :: '-' :: operand.toList) := by
    rw [splitName, if_pos hc, List.takeWhile_append_of_pos hletters,
      List.dropWhile_append_of_pos hletters]
    simp [isNameChar]
  have hhash : c ≠ '#' := by
    rintro rfl
    cases hc
  have hchars : (name ++ ":-" ++ operand).toList =
      c :: (letters ++ ':' :: '-' :: operand.toList) := by
    simp [htext]
  unfold ofText?
  rw [hchars]
  split
  · rename_i heq
    exact absurd (List.cons.inj heq).1 hhash
  · rw [hsplit]
    change operation? (String.ofList (c :: letters)) true ('-' :: operand.toList) = _
    rw [← htext, operation?, String.ofList_toList, String.ofList_toList]
    rfl

end ParameterForm

section

variable {name text : String} (hname : isName name = true) (htext : '\'' ∉ text.toList)

include hname htext

theorem parseWord_default (position : Position) (depth : Nat) :
    parseWord ("$\x7b" ++ name ++ ":-'" ++ text ++ "'\x7d") position depth =
      .ok [.parameter false (name ++ ":-" ++ ("'" ++ text ++ "'"))] := by
  have hbefore : ∀ c ∈ name.toList ++ [':', '-'],
      Syntax.Delimited.step '\x7b' '\x7d' .none 0 c = .one .none 0 := by
    refine List.forall_mem_append.mpr ⟨fun c hc => ?_, by simp [Syntax.Delimited.step]⟩
    have hne : ∀ d, isNameChar d = false → c ≠ d := fun _ =>
      Syntax.ne_of_isNameChar (isNameChar_of_isName hname c hc)
    rw [Syntax.Delimited.step, if_neg (hne '\\' rfl), if_neg (hne '\'' rfl), if_neg (hne '"' rfl),
      if_neg (hne '\x7b' rfl), if_neg (hne '\x7d' rfl)]
  have hsplit : Syntax.Delimited.split '\x7b' '\x7d'
      ((name.toList ++ [':', '-']) ++ '\'' :: (text.toList ++ '\'' :: ['\x7d'])) =
        .ok ((name ++ ":-" ++ ("'" ++ text ++ "'")).toList, []) := by
    rw [Syntax.Delimited.split, Syntax.Delimited.scan_letters hbefore,
      Syntax.Delimited.scan_single (List.forall_mem_ne'.mpr htext)]
    simp [Syntax.Delimited.scan, Syntax.Delimited.step]
  have hchars : ("$\x7b" ++ name ++ ":-'" ++ text ++ "'\x7d").toList =
      '$' :: '\x7b' ::
        ((name.toList ++ [':', '-']) ++ '\'' :: (text.toList ++ '\'' :: ['\x7d'])) := by
    simp
  rw [parseWord, Syntax.Word.parse, hchars, Syntax.Word.fragments_dollar,
    Syntax.Word.expansion_braces, hsplit]
  dsimp only
  rw [String.ofList_toList]
  exact Syntax.Word.fragments_nil

/-- What stands in quotes after the operator is the value, and the quotes are gone. -/
theorem parameterValue_default (executor : Executor) {shell : Shell} (hunset : shell.held name = "") :
    parameterValue (evaluation executor) false (name ++ ":-" ++ ("'" ++ text ++ "'")) shell =
      .done (.ok text, shell) := by
  have hmissing : (shell.state.parameter? name).all (fun held => true && held.isEmpty) = true := by
    rw [State.parameter?_name hname]
    rw [Shell.held] at hunset
    cases hheld : shell.state.get? name with
    | none => rfl
    | some held =>
        rw [hheld] at hunset
        simpa using hunset
  -- the operand is a word of its own, and its expansion to one text takes the quotes away
  have hoperand : operandValue (evaluation executor) ("'" ++ text ++ "'") = pure text := by
    rw [← Quote.write_single htext, operandValue, Quote.parseWord_write]
    exact Quote.single.expandSingle_word executor text
  rw [parameterValue]
  refine (bind_of_done (rfl : Action.state shell = .done (.ok shell.state, shell))).trans ?_
  rw [if_neg Bool.false_ne_true, ParameterForm.ofText?_default hname]
  refine (bind_of_done (rfl : Action.state shell = .done (.ok shell.state, shell))).trans ?_
  rw [hmissing, hoperand]
  rfl

end

theorem map_unquoted_eq_single {fields : List (List Char)} {text : List Char} :
    fields.map Field.unquoted = [Field.plain text] ↔
      fields = [text] ∧ ∀ c ∈ text, isWildcard c = false := by
  rw [List.map_eq_singleton_iff]
  constructor
  · rintro ⟨field, rfl, hfield⟩
    obtain ⟨rfl, hwild⟩ := Field.unquoted_eq_plain.mp hfield
    exact ⟨rfl, hwild⟩
  · rintro ⟨rfl, hwild⟩
    exact ⟨text, rfl, Field.unquoted_eq_plain.mpr ⟨rfl, hwild⟩⟩

/-- A quoted text as the default of an unquoted parameter that is missing.  It is split and searched
for wildcards as if it had no quotes, so it is one field that stands for itself just when it is not
empty and has neither a separator nor a wildcard in it. -/
theorem expandWords_default (executor : Executor) {name text : String} {shell : Shell}
    (hname : isName name = true) (hunset : shell.held name = "") (htext : '\'' ∉ text.toList) :
    ∃ word fields,
      (∀ position depth, parseWord ("$\x7b" ++ name ++ ":-'" ++ text ++ "'\x7d") position depth =
        .ok word) ∧
      expandWord (evaluation executor) true (.word word) shell = .done (.ok fields, shell) ∧
      fields.toList = (fieldsOf shell.separators false text.toList).map Field.unquoted ∧
      (fields.toList = [Field.plain text.toList] ↔
        text ≠ "" ∧ ∀ c ∈ text.toList,
          isSeparator shell.separators c = false ∧ isWildcard c = false) ∧
      (Pattern.hasWildcard text = false →
        expandWords (evaluation executor) [.word word] shell =
          .done (.ok ((fieldsOf shell.separators false text.toList).map String.ofList), shell)) := by
  have hvalue := parameterValue_default hname htext executor hunset
  have hfields : ((shell.noFields true).addExpansion text).toList =
      (fieldsOf shell.separators false text.toList).map Field.unquoted :=
    Fields.toList_addSplit_unquoted (List.forall_mem_nil _) text.toList []
  refine ⟨_, _, parseWord_default hname htext, expandWord_parameter hvalue, hfields, ?_,
    expandWords_value hvalue⟩
  rw [hfields, map_unquoted_eq_single, fieldsOf_eq_single, and_assoc, ← forall₂_and]
  simp

/-- A brace and a dollar sign are no separators. -/
theorem expandWords_default_brace :
    isName "v" = true ∧ (Shell.dealing " :" []).held "v" = "" ∧ '\'' ∉ "a\x7d$b".toList ∧
    ∃ word, parseWord "$\x7bv:-'a\x7d$b'\x7d" ⟨1, 1⟩ 0 = .ok word ∧
      expandWords (evaluation .idle) [.word word] (.dealing " :" []) =
        .done (.ok ["a\x7d$b"], .dealing " :" []) := by
  have hname : isName "v" = true := by decide
  have hunset : (Shell.dealing " :" []).held "v" = "" := by decide +kernel
  have htext : '\'' ∉ "a\x7d$b".toList := by decide
  obtain ⟨word, fields, hparse, -, -, -, hwords⟩ :=
    expandWords_default .idle hname hunset htext
  have hfields : fieldsOf " :" false "a\x7d$b".toList = ["a\x7d$b".toList] := by cbv
  refine ⟨hname, hunset, htext, word, hparse _ _, (hwords (by decide +kernel)).trans ?_⟩
  rw [Shell.dealing_separators, hfields]
  rfl

/-- A quoted blank takes a default apart. -/
theorem quoted_default_split :
    ∃ word, parseWord "$\x7bv:-'a b'\x7d" ⟨1, 1⟩ 0 = .ok word ∧
      expandWords (evaluation .idle) [.word word] (.new (.initial "/" 1) ⟨9, 9, 9⟩) =
        .done (.ok ["a", "b"], .new (.initial "/" 1) ⟨9, 9, 9⟩) := by
  have hname : isName "v" = true := by decide
  have htext : '\'' ∉ "a b".toList := by decide
  have hunset : (Shell.new (.initial "/" 1) ⟨9, 9, 9⟩).held "v" = "" := by decide +kernel
  have hseparators : (Shell.new (.initial "/" 1) ⟨9, 9, 9⟩).separators = standardSeparators := rfl
  have hfields : fieldsOf standardSeparators false "a b".toList = [['a'], ['b']] := by cbv
  have hvalue := parameterValue_default hname htext .idle hunset
  refine ⟨_, parseWord_default hname htext _ _, ?_⟩
  rw [expandWords_value hvalue (by decide +kernel), hseparators, hfields]
  rfl

end Conch
