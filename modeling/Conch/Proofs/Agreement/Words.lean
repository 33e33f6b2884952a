import Conch.Proofs.Agreement.Actions
import Conch.Proofs.Files.Glob
import Conch.Proofs.Grammar.Heights
import Conch.Shell.ControlFlow
import Conch.Shell.Redirection

/-!
# Words expand alike

Evaluators that agree on the trees up to a height expand what is one level higher in the
same way.  The texts inside parameter and arithmetic expansions are read only then, and
what they spell is lower than the expansion itself.
-/

namespace Conch

open Syntax (Node)

/-- The evaluators agree on all trees up to a height. -/
structure Evaluator.Agrees (terms : Terms) (level : Level) (height : Nat)
    (parts others : Evaluator) : Prop where
  execute : ∀ node, node.height ≤ height →
    Alike terms level terms.statuses (parts.execute node) (others.execute node)
  expand : ∀ isQuoted node fields, node.height ≤ height →
    Alike terms level anything (parts.expand isQuoted node fields)
      (others.expand isQuoted node fields)

namespace ParameterForm

theorem splitName_length (text : List Char) : (splitName text).2.length ≤ text.length := by
  unfold splitName
  split
  · exact Nat.le_refl _
  split
  · exact Nat.le_succ_of_le (List.dropWhile_sublist _).length_le
  split
  · exact Nat.le_succ_of_le (List.dropWhile_sublist _).length_le
  split
  · exact Nat.le_succ _
  · exact Nat.le_refl _

theorem operation?_length {name first operand : String} {orEmpty isEmpty : Bool}
    {op : ParameterOperator} {text : List Char}
    (h : operation? first isEmpty text = some (.operation name orEmpty op operand)) :
    operand.length < text.length := by
  cases text with
  | nil => cases h
  | cons c rest =>
      obtain ⟨op', _, hform⟩ := Option.map_eq_some_iff.mp h
      cases hform
      rw [String.length_ofList]
      exact Nat.lt_succ_self _

/-- The operand is shorter than the text between the braces. -/
theorem operand_length {text name operand : String} {orEmpty : Bool} {op : ParameterOperator}
    (h : ofText? text = some (.operation name orEmpty op operand)) :
    operand.length < text.length := by
  rw [← String.length_toList (s := text)]
  unfold ofText? at h
  split at h
  · split at h
    · cases h
    · split at h <;> cases h
  · have hsplit := splitName_length text.toList
    split at h
    · cases h
    · cases h
    · rename_i hname
      rw [hname] at hsplit
      have := operation?_length h
      simp only [List.length_cons] at hsplit
      omega
    · rename_i hname
      rw [hname] at hsplit
      have := operation?_length h
      simp only at hsplit
      omega

end ParameterForm

theorem Output.write_asks (output : Output) (text : String) : (output.write text).Asks := by
  unfold write writeBytes
  split
  · exact .done _
  · exact .request _

section

variable {terms : Terms} {level : Level}

/-! ## Output and copies -/

theorem alike_writeTo (output : Output) (text : String) :
    Alike terms level anything (Action.writeTo output text) (Action.writeTo output text) := by
  have hwrite : (output.write text).Accord terms anything (output.write text) :=
    .of_asks (output.write_asks text) (Proc.Returns.trivial _)
  refine .ofProc (hwrite.bind fun written _ => .done ?_) fun log hruns => ?_
  · cases written with
    | ok _ => trivial
    | error e => exact fun status hnone => nomatch hnone
  · obtain ⟨written, _, _, _, _, _, hx⟩ := Proc.runs_bind.mp hruns
    cases written <;> cases hx

theorem alike_writeOutput (text : String) :
    Alike terms level anything (Action.writeOutput text) (Action.writeOutput text) :=
  .get_bind fun shell _ => alike_writeTo shell.streams.output text

theorem alike_writeErrors (text : String) :
    Alike terms level anything (Action.writeErrors text) (Action.writeErrors text) :=
  .get_bind fun shell _ => alike_writeTo shell.streams.errors text

theorem alike_report (interruption : Interruption) :
    Alike terms level terms.statuses (Action.report interruption) (Action.report interruption) :=
  (alike_writeErrors _).andThen fun _ => .pure (terms.status_of_nat (by decide))

theorem alike_endWith {result : Except Interruption Int} (h : result ≠ .error .crash)
    (hcarries : Carries terms.statuses terms.statuses result) :
    Alike terms level terms.statuses (Action.endWith result) (Action.endWith result) := by
  cases result with
  | ok status => exact .pure hcarries
  | error interruption =>
      cases interruption with
      | leaveShell status => exact .pure (hcarries status rfl)
      | leaveFunction status => exact .pure (hcarries status rfl)
      | breakLoops levels => exact .get_bind fun _ hshell => .pure hshell.holds.status
      | continueLoop levels => exact .get_bind fun _ hshell => .pure hshell.holds.status
      | command fault => exact alike_report _
      | arithmetic text fault => exact alike_report _
      | substitution text fault => exact alike_report _
      | limit reached => exact .fail (by simp) rfl
      | stream e => exact .fail (by simp) rfl
      | crash => exact absurd rfl h

theorem alike_inSubshell {change : Shell → Shell} {body other : Action Int}
    (h : Alike terms level terms.statuses body other)
    (hchange : ∀ shell, shell.Meets terms.toHolding level →
      (change shell).Meets terms.toHolding level) :
    Alike terms level terms.statuses (Action.inSubshell change body)
      (Action.inSubshell change other) := by
  have hend : Alike terms level terms.statuses (do Action.endWith (← body.attempt))
      (do Action.endWith (← other.attempt)) :=
    h.attempt_bind (fun _ hresult hcarries => alike_endWith hresult hcarries)
      fun _ hfinal => .crashed hfinal
  exact hend.onCopy fun shell hshell => hchange _ ⟨hshell.level, hshell.holds.fork⟩

end

/-! ## Words -/

section

variable {terms : Terms} {level : Level} {height : Nat} {parts others : Evaluator}
  (hparts : parts.Agrees terms level height others)

include hparts

theorem alike_executeAll {nodes : List Node} (h : Node.heights nodes ≤ height) :
    Alike terms level terms.statuses (executeAll parts nodes) (executeAll others nodes) :=
  .foldlM nodes (fun _ _ node hnode =>
    hparts.execute node (Nat.le_trans (Node.height_le hnode) h)) (terms.status_of_nat (by decide))

theorem alike_expandAll (isQuoted : Bool) {nodes : List Node} (h : Node.heights nodes ≤ height)
    (fields : Fields) :
    Alike terms level anything (expandAll parts isQuoted nodes fields)
      (expandAll others isQuoted nodes fields) :=
  .foldlM nodes (fun acc _ node hnode =>
    hparts.expand isQuoted node acc (Nat.le_trans (Node.height_le hnode) h)) trivial

theorem alike_expandWord (splits : Bool) {word : Node} (h : Node.heights word.fragments ≤ height) :
    Alike terms level anything (expandWord parts splits word) (expandWord others splits word) := by
  refine .state_bind fun state _ => ?_
  split
  · rename_i text rest hfragments
    have hrest : Node.heights rest ≤ height := by
      rw [hfragments, Node.heights] at h
      omega
    split
    · exact alike_expandAll hparts false hrest _
    · exact alike_expandAll hparts false (hfragments ▸ h) _
  · exact alike_expandAll hparts false h _

theorem alike_expandSingle {word : Node} (h : Node.heights word.fragments ≤ height) :
    Alike terms level anything (expandSingle parts word) (expandSingle others word) :=
  (alike_expandWord hparts false h).andThen fun _ => .pure trivial

theorem alike_expandPattern {word : Node} (h : Node.heights word.fragments ≤ height) :
    Alike terms level anything (expandPattern parts word) (expandPattern others word) :=
  (alike_expandWord hparts false h).andThen fun _ => .pure trivial

omit hparts in
theorem alike_fieldNames (field : Field) :
    Alike terms level anything (fieldNames field) (fieldNames field) := by
  unfold fieldNames
  split
  · exact .pure trivial
  · refine .state_bind fun state _ => (Alike.ofAsks ?_).andThen fun _ => .pure trivial
    exact Glob.expand_asks _ _

theorem alike_expandWords {words : List Node} (h : Node.heights words ≤ height) :
    Alike terms level anything (expandWords parts words) (expandWords others words) := by
  refine .flatMapM words fun word hword => (alike_expandWord hparts true ?_).andThen fun _ =>
    .flatMapM _ fun field _ => alike_fieldNames field
  exact Nat.le_trans (Node.heights_fragments word) (Nat.le_trans (Node.height_le hword) h)

/-! ## Values -/

/-- What is spelled inside an expansion is lower than its text counts. -/
theorem alike_operandValue {operand : String} (h : Syntax.textHeight operand ≤ height + 1) :
    Alike terms level anything (operandValue parts operand) (operandValue others operand) := by
  unfold operandValue
  split
  · exact .fail (by simp) rfl
  · rename_i fragments hparse
    have hlow := Syntax.parseWord_height hparse
    exact alike_expandSingle hparts (show Node.heights fragments ≤ height by omega)

theorem alike_operationValue (name : String) (orEmpty : Bool) (op : ParameterOperator)
    {operand : String} (h : Syntax.textHeight operand ≤ height + 1) :
    Alike terms level anything (operationValue parts name orEmpty op operand)
      (operationValue others name orEmpty op operand) := by
  have hoperand := alike_operandValue hparts h
  refine .state_bind fun state _ => ?_
  cases op with
  | alternative => exact .ite (.pure trivial) hoperand
  | useDefault => exact .ite hoperand (.pure trivial)
  | assignDefault =>
      refine .ite (.pure trivial) (.ite (.fail (by simp) rfl) ?_)
      exact hoperand.andThen fun text => (Alike.set name text).andThen fun _ => .pure trivial
  | required =>
      have hfail : ∀ message : String, Alike terms level anything
          (throw (.command (.parameterUnset name message)) : Action String)
          (throw (.command (.parameterUnset name message))) := fun message => .fail (by simp) rfl
      exact .ite (.pure trivial) (.ite (hfail noValue) (hoperand.andThen hfail))

theorem alike_parameterValue {short : Bool} {text : String}
    (h : Syntax.textHeight text ≤ height + 1) :
    Alike terms level anything (parameterValue parts short text)
      (parameterValue others short text) := by
  refine .state_bind fun state _ => .ite (.pure trivial) ?_
  split
  · exact .fail (by simp) rfl
  · exact .pure trivial
  · exact .pure trivial
  · exact .pure trivial
  · rename_i name orEmpty op operand hform
    have hlength := ParameterForm.operand_length hform
    refine alike_operationValue hparts name orEmpty op ?_
    unfold Syntax.textHeight at h ⊢
    omega

theorem alike_substitutionValue {body : List Node} (h : Node.heights body ≤ height) :
    Alike terms level anything (substitutionValue parts body) (substitutionValue others body) := by
  refine .request_bind _ fun buffer => ?_
  refine (alike_inSubshell (alike_executeAll hparts h) fun shell hshell => ?_).bind
    fun status hstatus => ?_
  · exact ⟨hshell.level, hshell.holds.congr rfl⟩
  refine Alike.andThen (.modify fun shell hshell => ?_) fun _ =>
    .request_bind _ fun bytes => .pure trivial
  refine ⟨hshell.level, hshell.holds.dialect, hstatus, fun _ other hother => ?_⟩
  cases hother
  exact hstatus

theorem alike_arithmeticValue {text : String} (h : Syntax.textHeight text ≤ height + 1) :
    Alike terms level anything (arithmeticValue parts text) (arithmeticValue others text) := by
  unfold arithmeticValue
  split
  · exact .fail (by simp) rfl
  rename_i fragments hparse
  have hlow := Syntax.parseWord_height hparse
  have hfragments : Node.heights (Node.word fragments).fragments ≤ height := by
    change Node.heights fragments ≤ height
    omega
  refine (alike_expandSingle hparts hfragments).andThen fun expanded =>
    .state_bind fun state _ => ?_
  rcases Arithmetic.value expanded state.bindings with ⟨result, bindings⟩
  refine Alike.andThen (.modifyState (fun _ => rfl) fun _ hstatus => hstatus) fun _ => ?_
  cases result with
  | ok value => exact .pure trivial
  | error fault => exact .fail (by simp) rfl

theorem alike_expandFragment (isQuoted : Bool) {fragment : Node} (h : fragment.height ≤ height + 1)
    (fields : Fields) :
    Alike terms level anything (expandFragment parts isQuoted fragment fields)
      (expandFragment others isQuoted fragment fields) := by
  cases fragment with
  | literal text => exact .ite (.pure trivial) (.pure trivial)
  | quoted inside =>
      rw [Node.height] at h
      exact .state_bind fun _ _ => alike_expandAll hparts _ (by omega) _
  | parameter short text =>
      rw [Node.height] at h
      refine .ite (.state_bind fun _ _ => .pure trivial) ?_
      exact (alike_parameterValue hparts h).andThen fun _ => .pure trivial
  | substitution body =>
      rw [Node.height] at h
      exact (alike_substitutionValue hparts (by omega)).andThen fun _ => .pure trivial
  | arithmetic text =>
      rw [Node.height] at h
      exact (alike_arithmeticValue hparts h).andThen fun _ => .pure trivial
  | word inside =>
      rw [Node.height] at h
      exact alike_expandAll hparts _ (by omega) _
  | _ => exact .pure trivial

/-! ## Patterns and redirections -/

theorem alike_anyMatches (subject : String) {words : List Node} (h : Node.heights words ≤ height) :
    Alike terms level anything (anyMatches parts subject words)
      (anyMatches others subject words) := by
  induction words with
  | nil => exact .pure trivial
  | cons word words ih =>
      rw [Node.heights] at h
      have hword := Node.heights_fragments word
      refine (alike_expandPattern hparts (by omega)).andThen fun pattern => ?_
      exact .ite (.pure trivial) (ih (by omega))

omit hparts in
theorem alike_ofFault {α : Type} (result : Except CommandFault α) :
    Alike terms level anything (Action.ofFault result) (Action.ofFault result) := by
  cases result with
  | ok a => exact .pure trivial
  | error fault => exact .fail (by simp) rfl

omit hparts in
theorem alike_openTarget (target : String) (mode : OpenMode) :
    Alike terms level anything (openTarget target mode) (openTarget target mode) := by
  refine .state_bind fun state _ => Alike.request_bind _ fun reply => ?_
  cases reply with
  | ok descriptor => exact .pure trivial
  | error e => exact .fail (by simp) rfl

theorem alike_redirect (streams : Streams) {redirection : Redirection}
    (h : redirection.target.height ≤ height) :
    Alike terms level anything (redirect parts streams redirection)
      (redirect others streams redirection) := by
  have htarget := Nat.le_trans (Node.heights_fragments redirection.target) h
  refine (alike_expandSingle hparts htarget).andThen fun target => ?_
  split
  · exact (alike_openTarget _ _).andThen fun _ => alike_ofFault _
  · exact (alike_openTarget _ _).andThen fun _ => alike_ofFault _
  · refine .ite (.fail (by simp) rfl) ?_
    exact (alike_openTarget _ _).andThen fun _ => Alike.request_bind _ fun _ => .pure trivial
  · exact alike_ofFault _
  · exact alike_ofFault _
  · exact .fail (by simp) rfl

theorem alike_redirectAll {redirections : List Redirection}
    (h : ∀ r ∈ redirections, r.target.height ≤ height) :
    Alike terms level anything (redirectAll parts redirections) (redirectAll others redirections) :=
  .get_bind fun _ _ => .foldlM redirections
    (fun streams _ r hr => alike_redirect hparts streams (h r hr)) trivial

end

end Conch
