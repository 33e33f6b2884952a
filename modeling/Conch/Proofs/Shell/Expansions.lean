import Conch.Proofs.Shell.Contracts
import Conch.Shell.ControlFlow
import Conch.Shell.Redirection

/-!
# Expansions leave the shell in place

What words and redirections expand to is found without leaving a loop, a function or
the shell, and without a change to the streams, the functions, the parameters or the
depths: whatever a substitution does, it does to a copy.
-/

namespace Conch

open Syntax (Node)

/-- Control flow on its way to a loop, a function or the end of the shell. -/
def Interruption.isControl : Interruption → Bool
  | breakLoops _ | continueLoop _ | leaveFunction _ | leaveShell _ => true
  | _ => false

/-- The states differ in variables, statuses and counts, and in where they are, but not in what
constructs set up for the time that they run. -/
structure State.Frame (state final : State) : Prop where
  functions : final.functions = state.functions
  positional : final.positional = state.positional
  loopDepth : final.loopDepth = state.loopDepth
  callDepth : final.callDepth = state.callDepth

theorem State.Frame.refl (state : State) : state.Frame state := ⟨rfl, rfl, rfl, rfl⟩

theorem State.Frame.trans {first second third : State} (h : first.Frame second)
    (h' : second.Frame third) : first.Frame third where
  functions := h'.functions.trans h.functions
  positional := h'.positional.trans h.positional
  loopDepth := h'.loopDepth.trans h.loopDepth
  callDepth := h'.callDepth.trans h.callDepth

/-- The same of shells, which may also differ in their jobs. -/
structure Shell.Frame (shell final : Shell) : Prop where
  streams : final.streams = shell.streams
  limits : final.limits = shell.limits
  state : shell.state.Frame final.state

namespace Contract

/-- Keeps what constructs set up, and is never interrupted by control flow. -/
def quiet : Contract where
  ready _ := True
  keeps := Shell.Frame
  allows _ interruption := interruption.isControl = false
  refl shell := ⟨rfl, rfl, .refl shell.state⟩
  trans h h' := ⟨h'.streams.trans h.streams, h'.limits.trans h.limits, h.state.trans h'.state⟩
  stays _ _ := trivial
  inherits _ h := h

theorem quiet_modify {f : Shell → Shell} (h : ∀ shell, Shell.Frame shell (f shell)) :
    quiet.Holds (modify f : Action PUnit) := .modify fun shell _ => h shell

theorem quiet_set (name value : String) :
    quiet.Holds (Action.modifyState (·.set name value)) :=
  quiet_modify fun _ => ⟨rfl, rfl, rfl, rfl, rfl, rfl⟩

theorem quiet_fail {α : Type} (interruption : Interruption) (h : interruption.isControl = false) :
    quiet.Holds (throw interruption : Action α) := .throw fun _ _ => h

/-! ## Output and copies -/

section

variable {contract : Contract}
  (hstream : ∀ shell e, contract.allows shell (.stream e))

include hstream

/-- Only the stream itself can fail. -/
theorem Holds.writeTo (output : Output) (text : String) :
    contract.Holds (Action.writeTo output text) := by
  refine .ofProc fun log interruption hruns shell => ?_
  obtain ⟨written, _, _, _, _, _, hx⟩ := Proc.runs_bind.mp hruns
  cases written with
  | ok => cases hx
  | error e =>
      cases hx
      exact hstream shell e

theorem Holds.writeErrors (text : String) : contract.Holds (Action.writeErrors text) :=
  .get_bind fun _ => .writeTo hstream _ text

theorem Holds.report (interruption : Interruption) :
    contract.Holds (Action.report interruption) :=
  (Holds.writeErrors hstream _).bind fun _ => .pure 1

end

theorem quiet_writeOutput (text : String) : quiet.Holds (Action.writeOutput text) :=
  .get_bind fun _ => .writeTo (fun _ _ => rfl) _ text

theorem quiet_writeErrors (text : String) : quiet.Holds (Action.writeErrors text) :=
  .writeErrors (fun _ _ => rfl) text

theorem quiet_report (interruption : Interruption) : quiet.Holds (Action.report interruption) :=
  .report (fun _ _ => rfl) interruption

theorem quiet_endWith (result : Except Interruption Int) :
    quiet.Holds (Action.endWith result) := by
  cases result with
  | ok status => exact .pure status
  | error interruption =>
      cases interruption with
      | leaveShell status => exact .pure status
      | leaveFunction status => exact .pure status
      | breakLoops levels => exact .get_bind fun _ => .pure _
      | continueLoop levels => exact .get_bind fun _ => .pure _
      | command fault => exact quiet_report _
      | arithmetic text fault => exact quiet_report _
      | substitution text fault => exact quiet_report _
      | limit reached => exact quiet_fail _ rfl
      | stream e => exact quiet_fail _ rfl
      | crash => exact quiet_fail _ rfl

/-- Control flow ends in the copy, whatever is done to it. -/
theorem quiet_inSubshell (change : Shell → Shell) (body : Action Int) :
    quiet.Holds (Action.inSubshell change body) := by
  refine .onCopy fun shell log interruption final hacts => ?_
  obtain ⟨result, next, _, later, _, _, hend⟩ := acts_attempt_bind.mp hacts
  exact (quiet_endWith result next trivial later _ final hend).allowed interruption rfl

/-! ## Words -/

section

variable {parts : Evaluator}
  (hparts : ∀ isQuoted node fields, quiet.Holds (parts.expand isQuoted node fields))

include hparts

theorem quiet_expandAll (isQuoted : Bool) (fragments : List Node) (fields : Fields) :
    quiet.Holds (expandAll parts isQuoted fragments fields) :=
  .foldlM fragments (fun acc fragment _ => hparts isQuoted fragment acc) fields

theorem quiet_expandWord (splits : Bool) (word : Node) :
    quiet.Holds (expandWord parts splits word) := by
  refine .state_bind fun state => ?_
  split
  · split
    · exact quiet_expandAll hparts _ _ _
    · exact quiet_expandAll hparts _ _ _
  · exact quiet_expandAll hparts _ _ _

theorem quiet_expandSingle (word : Node) : quiet.Holds (expandSingle parts word) :=
  (quiet_expandWord hparts false word).bind fun _ => .pure _

theorem quiet_expandPattern (word : Node) : quiet.Holds (expandPattern parts word) :=
  (quiet_expandWord hparts false word).bind fun _ => .pure _

omit hparts in
theorem quiet_fieldNames (field : Field) : quiet.Holds (fieldNames field) := by
  unfold fieldNames
  split
  · exact .pure _
  · exact .state_bind fun _ => Holds.ofProc_ok.bind fun _ => .pure _

theorem quiet_expandWords (words : List Node) : quiet.Holds (expandWords parts words) :=
  .flatMapM words fun word _ => (quiet_expandWord hparts true word).bind fun _ =>
    .flatMapM _ fun field _ => quiet_fieldNames field

/-! ## Values -/

theorem quiet_operandValue (operand : String) : quiet.Holds (operandValue parts operand) := by
  unfold operandValue
  split
  · exact quiet_fail _ rfl
  · exact quiet_expandSingle hparts _

theorem quiet_operationValue (name : String) (orEmpty : Bool) (op : ParameterOperator)
    (operand : String) : quiet.Holds (operationValue parts name orEmpty op operand) := by
  have hoperand := quiet_operandValue hparts operand
  refine .state_bind fun state => ?_
  cases op with
  | alternative =>
      dsimp only
      split
      · exact .pure _
      · exact hoperand
  | useDefault =>
      dsimp only
      split
      · exact hoperand
      · exact .pure _
  | assignDefault =>
      dsimp only
      split
      · exact .pure _
      split
      · exact quiet_fail _ rfl
      · exact hoperand.bind fun text => (quiet_set name text).bind fun _ => .pure _
  | required =>
      dsimp only
      split
      · exact .pure _
      split
      · exact quiet_fail _ rfl
      · exact hoperand.bind fun message => quiet_fail _ rfl

theorem quiet_parameterValue (short : Bool) (text : String) :
    quiet.Holds (parameterValue parts short text) := by
  refine .state_bind fun state => ?_
  split
  · exact .pure _
  split
  · exact quiet_fail _ rfl
  · exact .pure _
  · exact .pure _
  · exact .pure _
  · exact quiet_operationValue hparts _ _ _ _

omit hparts in
theorem quiet_substitutionValue (body : List Node) :
    quiet.Holds (substitutionValue parts body) := by
  refine (Holds.request _).bind fun buffer => (quiet_inSubshell _ _).bind fun status => ?_
  refine Holds.bind (quiet_modify fun shell => ?_) fun _ => (Holds.request _).bind fun _ => .pure _
  exact ⟨rfl, rfl, rfl, rfl, rfl, rfl⟩

theorem quiet_arithmeticValue (text : String) : quiet.Holds (arithmeticValue parts text) := by
  unfold arithmeticValue
  split
  · exact quiet_fail _ rfl
  · refine (quiet_expandSingle hparts _).bind fun expanded => .state_bind fun state => ?_
    rcases Arithmetic.value expanded state.bindings with ⟨result, bindings⟩
    refine Holds.bind (quiet_modify fun shell => ?_) fun _ => ?_
    · exact ⟨rfl, rfl, rfl, rfl, rfl, rfl⟩
    cases result with
    | ok value => exact .pure _
    | error fault => exact quiet_fail _ rfl

theorem quiet_expandFragment (isQuoted : Bool) (fragment : Node) (fields : Fields) :
    quiet.Holds (expandFragment parts isQuoted fragment fields) := by
  cases fragment with
  | literal text =>
      dsimp only [expandFragment]
      split
      · exact .pure _
      · exact .pure _
  | quoted inside => exact .state_bind fun _ => quiet_expandAll hparts _ _ _
  | parameter short text =>
      dsimp only [expandFragment]
      split
      · exact .state_bind fun _ => .pure _
      · exact (quiet_parameterValue hparts short text).bind fun _ => .pure _
  | substitution body => exact (quiet_substitutionValue body).bind fun _ => .pure _
  | arithmetic text => exact (quiet_arithmeticValue hparts text).bind fun _ => .pure _
  | word inside => exact quiet_expandAll hparts _ _ _
  | _ => exact .pure _

/-! ## Patterns and redirections -/

theorem quiet_anyMatches (subject : String) (words : List Node) :
    quiet.Holds (anyMatches parts subject words) := by
  induction words with
  | nil => exact .pure _
  | cons word words ih =>
      refine (quiet_expandPattern hparts word).bind fun pattern => ?_
      split
      · exact .pure _
      · exact ih

omit hparts in
theorem quiet_ofFault {α : Type} (result : Except CommandFault α) :
    quiet.Holds (Action.ofFault result) := by
  cases result with
  | ok a => exact .pure a
  | error fault => exact quiet_fail _ rfl

omit hparts in
theorem quiet_openTarget (target : String) (mode : OpenMode) :
    quiet.Holds (openTarget target mode) := by
  refine .state_bind fun state => (Holds.request _).bind fun reply => ?_
  cases reply with
  | ok descriptor => exact .pure _
  | error e => exact quiet_fail _ rfl

theorem quiet_redirect (streams : Streams) (redirection : Redirection) :
    quiet.Holds (redirect parts streams redirection) := by
  refine (quiet_expandSingle hparts _).bind fun target => ?_
  split
  · exact (quiet_openTarget _ _).bind fun _ => quiet_ofFault _
  · exact (quiet_openTarget _ _).bind fun _ => quiet_ofFault _
  · dsimp only
    split
    · exact quiet_fail _ rfl
    · exact (quiet_openTarget _ _).bind fun _ => (Holds.request _).bind fun _ => .pure _
  · exact quiet_ofFault _
  · exact quiet_ofFault _
  · exact quiet_fail _ rfl

theorem quiet_redirectAll (redirections : List Redirection) :
    quiet.Holds (redirectAll parts redirections) :=
  .get_bind fun _ => .foldlM redirections (fun streams r _ => quiet_redirect hparts streams r) _

end

end Contract

end Conch
