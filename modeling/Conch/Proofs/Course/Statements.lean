import Conch.Proofs.Course.Actions
import Conch.Shell.Script

/-!
# Statements follow courses

Words, commands and statements follow every course, because their parts do: substitutions,
subshells and the stages of pipelines run on copies, and what a command or a loop sets up
for the time that it runs is an adjustment, whether it is taken back or not.  Only function
calls are more than that, and they follow a course that can be told from inside a call.
-/

namespace Conch

open Syntax (Node Branch Arm)

/-- A job is started with the number that the table gives it. -/
theorem acts_startJob {executor : Executor} {call : Node → Action Int} {parts : Evaluator}
    {args : List Node} {shell : Shell} {log : List Exchange} {x : Except Interruption Int × Shell}
    (hacts : Acts (startJob executor call parts args) shell log x) :
    ∃ program task, log = [.started true program task] ∧
      x = (.ok 0, { shell with
        jobs := (shell.jobs.spawn (Node.command args false).render task).2
        state := { shell.state with lastJob := some shell.jobs.nextId } }) := by
  obtain ⟨task, rest, rfl, rfl, hx⟩ := hacts
  exact ⟨_, task, rfl, hx⟩

/-- Statements and words follow the course. -/
structure Evaluator.Follows (course : Course) (parts : Evaluator) : Prop where
  execute : ∀ node, course.Holds (parts.execute node)
  expand : ∀ isQuoted node fields, course.Holds (parts.expand isQuoted node fields)

namespace Course.Holds

variable {course : Course}

/-! ## Outcomes -/

theorem report (interruption : Interruption) : course.Holds (Action.report interruption) :=
  (writeErrors _).bind fun _ => .pure 1

theorem inSubshell (change : Shell → Shell) (body : Action Int) :
    course.Holds (Action.inSubshell change body) := .onCopy _ _

theorem recording {body : Action Int} (h : course.Holds body) :
    course.Holds (Action.recording body) := by
  have hrecord : ∀ status, course.Holds (do
      Action.modifyState fun state => { state with status := status }
      return status : Action Int) := fun status =>
    Holds.bind (modifyState fun _ => ⟨rfl, rfl, rfl, rfl⟩) fun _ => .pure status
  refine h.attempt_bind fun result => ?_
  cases result with
  | ok status => exact hrecord status
  | error interruption =>
      dsimp only
      split
      · exact (report interruption).bind hrecord
      · exact .throw interruption

theorem ofFault {α : Type} (result : Except CommandFault α) :
    course.Holds (Action.ofFault result) := by
  cases result with
  | ok a => exact .pure a
  | error fault => exact .throw _

theorem countCommand : course.Holds countCommand := by
  refine (request _).bind fun _ => Holds.bind (modifyState fun _ => ⟨rfl, rfl, rfl, rfl⟩) fun _ =>
    .get_bind fun shell => ?_
  split
  · exact .throw _
  · exact .pure _

/-! ## Words -/

section

variable {parts : Evaluator} (hparts : parts.Follows course)

include hparts

theorem executeAll (nodes : List Node) : course.Holds (executeAll parts nodes) :=
  .foldlM (fun _ node => hparts.execute node) nodes 0

theorem expandAll (isQuoted : Bool) (fragments : List Node) (fields : Fields) :
    course.Holds (expandAll parts isQuoted fragments fields) :=
  .foldlM (fun fields fragment => hparts.expand isQuoted fragment fields) fragments fields

theorem expandWord (splits : Bool) (word : Node) :
    course.Holds (expandWord parts splits word) := by
  refine .state_bind fun state => ?_
  split
  · split <;> exact expandAll hparts _ _ _
  · exact expandAll hparts _ _ _

theorem expandSingle (word : Node) : course.Holds (expandSingle parts word) :=
  (expandWord hparts false word).bind fun _ => .pure _

omit hparts in
theorem fieldNames (field : Field) : course.Holds (fieldNames field) := by
  unfold Conch.fieldNames
  split
  · exact .pure _
  · exact .state_bind fun _ => (ofProc _).bind fun _ => .pure _

theorem expandWords (words : List Node) : course.Holds (expandWords parts words) :=
  .flatMapM (fun word => (expandWord hparts true word).bind fun _ => .flatMapM fieldNames _) words

theorem operandValue (operand : String) : course.Holds (operandValue parts operand) := by
  unfold Conch.operandValue
  split
  · exact .throw _
  · exact expandSingle hparts _

theorem operationValue (name : String) (orEmpty : Bool) (op : ParameterOperator)
    (operand : String) : course.Holds (operationValue parts name orEmpty op operand) := by
  have hoperand := operandValue hparts operand
  refine .state_bind fun state => ?_
  cases op with
  | alternative =>
      dsimp only
      split
      · exact .pure _
      · exact hoperand
  | useDefault =>
      dsimp only
      split
      · exact hoperand
      · exact .pure _
  | assignDefault =>
      dsimp only
      split
      · exact .pure _
      split
      · exact .throw _
      · exact hoperand.bind fun _ => (set _ _).bind fun _ => .pure _
  | required =>
      dsimp only
      split
      · exact .pure _
      split
      · exact .throw _
      · exact hoperand.bind fun _ => .throw _

theorem parameterValue (short : Bool) (text : String) :
    course.Holds (parameterValue parts short text) := by
  refine .state_bind fun state => ?_
  split
  · exact .pure _
  split
  · exact .throw _
  · exact .pure _
  · exact .pure _
  · exact .pure _
  · exact operationValue hparts _ _ _ _

omit hparts in
theorem substitutionValue (body : List Node) : course.Holds (substitutionValue parts body) :=
  (request _).bind fun _ => (inSubshell _ _).bind fun _ => Holds.bind
    (.modify fun _ => ⟨rfl, rfl, List.suffix_rfl⟩) fun _ => (request _).bind fun _ => .pure _

theorem arithmeticValue (text : String) : course.Holds (arithmeticValue parts text) := by
  unfold Conch.arithmeticValue
  split
  · exact .throw _
  · refine (expandSingle hparts _).bind fun expanded => .state_bind fun state => ?_
    rcases Arithmetic.value expanded state.bindings with ⟨result, bindings⟩
    refine Holds.bind (modifyState fun _ => ⟨rfl, rfl, rfl, rfl⟩) fun _ => ?_
    cases result with
    | ok value => exact .pure _
    | error fault => exact .throw _

theorem expandFragment (isQuoted : Bool) (fragment : Node) (fields : Fields) :
    course.Holds (expandFragment parts isQuoted fragment fields) := by
  cases fragment with
  | literal text =>
      dsimp only [Conch.expandFragment]
      split <;> exact .pure _
  | quoted inside => exact .state_bind fun _ => expandAll hparts _ _ _
  | parameter short text =>
      dsimp only [Conch.expandFragment]
      split
      · exact .state_bind fun _ => .pure _
      · exact (parameterValue hparts short text).bind fun _ => .pure _
  | substitution body => exact (substitutionValue body).bind fun _ => .pure _
  | arithmetic text => exact (arithmeticValue hparts text).bind fun _ => .pure _
  | word inside => exact expandAll hparts _ _ _
  | _ => exact .pure _

/-! ## Redirections -/

omit hparts in
theorem openTarget (target : String) (mode : OpenMode) :
    course.Holds (openTarget target mode) := by
  refine .state_bind fun state => (request _).bind fun reply => ?_
  cases reply with
  | ok descriptor => exact .pure _
  | error e => exact .throw _

theorem redirect (streams : Streams) (redirection : Redirection) :
    course.Holds (redirect parts streams redirection) := by
  refine (expandSingle hparts _).bind fun target => ?_
  split
  · exact (openTarget _ _).bind fun _ => ofFault _
  · exact (openTarget _ _).bind fun _ => ofFault _
  · dsimp only
    split
    · exact .throw _
    · exact (openTarget _ _).bind fun _ => (request _).bind fun _ => .pure _
  · exact ofFault _
  · exact ofFault _
  · exact .throw _

theorem redirectAll (redirections : List Redirection) :
    course.Holds (redirectAll parts redirections) :=
  .get_bind fun _ => .foldlM (redirect hparts) redirections _

end

/-! ## Commands -/

section

variable {executor : Executor} {call : Node → Action Int}
  (hcall : ∀ body, course.Holds (call body))

include hcall

theorem callFunction (name : String) (body : Node) (args : List String) :
    course.Holds (callFunction call name body args) := by
  intro shell log result final hacts
  rw [Conch.callFunction, acts_get_bind] at hacts
  split at hacts
  · exact Holds.throw _ _ _ _ _ hacts
  obtain ⟨reached, next, first, later, rfl, hfirst, hlater⟩ :=
    acts_attempt_bind.mp (acts_modify_bind.mp hacts)
  have hcalled : course.leads shell first next := by
    rcases acts_ensuring.mp hfirst with ⟨inside, hbody, hx⟩ | ⟨_, inside, _, hbody, hx⟩
    · cases hx
      exact course.calls (hcall body (shell.called args) _ _ _ hbody)
    · cases hx
      exact course.returns (hcall body (shell.called args) _ _ _ hbody)
  refine course.trans hcalled ?_
  split at hlater
  · exact Holds.pure _ _ _ _ _ hlater
  · exact Holds.pure _ _ _ _ _ hlater
  · exact Holds.throw _ _ _ _ _ hlater

theorem invoke (arguments : List String) : course.Holds (invoke executor call arguments) := by
  cases arguments with
  | nil => exact .pure 0
  | cons name args =>
      refine .get_bind fun shell => .state_bind fun state => ?_
      dsimp only
      split
      · split
        · exact builtin _ args
        · exact callFunction hcall name _ args
      · exact builtin _ args
      · exact callFunction hcall name _ args
      · exact .get_bind fun _ => .ofProc _

variable {parts : Evaluator} (hparts : parts.Follows course)

include hparts

omit hcall in
theorem assignOnly (command : CommandParts) : course.Holds (assignOnly parts command) := by
  refine (forM (fun assignment => ?_) _).bind fun _ =>
    (redirectAll hparts _).discard.bind fun _ => .get_bind fun _ => .pure _
  exact (expandSingle hparts _).bind fun _ => set _ _

theorem invokeUnder (command : CommandParts) (arguments : List String) :
    course.Holds (invokeUnder executor call parts command arguments) := by
  refine (mapM (fun assignment => ?_) _).bind fun values =>
    (redirectAll hparts _).bind fun streams shell => HoldsAt.get_bind (HoldsAt.state_bind ?_)
  · exact (expandSingle hparts _).bind fun _ => .pure _
  have hpush := State.pushAssignments_frame values shell.state []
  generalize shell.state.pushAssignments [] values = pushed at hpush ⊢
  obtain ⟨state, saved⟩ := pushed
  exact .modify_bind (.ofFrame rfl hpush) (.ensuring (invoke hcall arguments _) fun inside =>
    .ofFrame rfl (State.restoreAll_frame saved inside.state))

theorem runSimple (args : List Node) : course.Holds (runSimple executor call parts args) := by
  refine Holds.bind (.modify fun _ => ⟨rfl, rfl, List.suffix_rfl⟩) fun _ =>
    (expandWords hparts _).bind fun arguments => ?_
  split
  · exact assignOnly hparts _
  · exact invokeUnder hcall hparts _ arguments

end

section

variable {executor : Executor} {call : Node → Action Int} {parts : Evaluator}

theorem startJob (args : List Node) :
    course.Holds (startJob executor call parts args) := by
  intro shell log result final hacts
  obtain ⟨program, task, rfl, hx⟩ := acts_startJob hacts
  cases hx
  have hlogged : (JobTable.Operation.spawn (Node.command args false).render task).Logged shell.jobs
      [.started true program task] := ⟨program, rfl⟩
  have hnumbered : Shell.Adjusted
      { shell with jobs := (shell.jobs.spawn (Node.command args false).render task).2 }
      { shell with
        jobs := (shell.jobs.spawn (Node.command args false).render task).2
        state := { shell.state with lastJob := some shell.jobs.nextId } } :=
    ⟨rfl, rfl, List.suffix_rfl⟩
  have hstarted := course.trans (course.works hlogged) (course.adjusts [] hnumbered)
  exact hstarted

variable (hcall : ∀ body, course.Holds (call body)) (hparts : parts.Follows course)

include hcall hparts

theorem runCommand (args : List Node) (background : Bool) :
    course.Holds (runCommand executor call parts args background) := by
  refine countCommand.bind fun _ => ?_
  split
  · exact startJob args
  · exact runSimple hcall hparts args

end

/-! ## Pipelines and control flow -/

section

variable {parts : Evaluator}

theorem runPipe (left right : Node) : course.Holds (runPipe parts left right) := by
  refine (request _).bind fun pipe => (request _).bind fun input => .get_bind fun _ =>
    (lift _).bind fun task => (onCopy _ _).bind fun x => ?_
  obtain ⟨status, outcome⟩ := x
  dsimp only
  split
  · exact .throw _
  · exact .pure _

variable (hparts : parts.Follows course)

include hparts

theorem runBinary (op : Syntax.Token) (left right : Node) :
    course.Holds (runBinary parts op left right) := by
  unfold Conch.runBinary
  split
  · refine (hparts.execute left).bind fun status => ?_
    split
    · exact .pure _
    · exact hparts.execute right
  · refine (hparts.execute left).bind fun status => ?_
    split
    · exact .pure _
    · exact hparts.execute right
  · exact runPipe left right
  · exact .throw _

theorem runBranches (otherwise : List Node) (status : Int) (branches : List Branch) :
    course.Holds (runBranches parts otherwise status branches) := by
  induction branches generalizing status with
  | nil =>
      rw [Conch.runBranches]
      split
      · exact .pure _
      · exact executeAll hparts otherwise
  | cons branch rest ih =>
      obtain ⟨test, body⟩ := branch
      rw [Conch.runBranches]
      refine (hparts.execute test).bind fun reached => ?_
      split
      · exact executeAll hparts body
      · exact ih reached

omit hparts in
theorem inLoop {body : Action Int} (h : course.Holds body) :
    course.Holds (inLoop body) :=
  fun _ => .modify_bind ⟨rfl, rfl, List.suffix_rfl⟩
    (.ensuring (h _) fun _ => ⟨rfl, rfl, List.suffix_rfl⟩)

theorem whileRounds (test : Node) (body : List Node) (limit rounds : Nat) (last : Int) :
    course.Holds (whileRounds parts test body limit rounds last) := by
  induction rounds generalizing last with
  | zero =>
      rw [Conch.whileRounds]
      refine (hparts.execute test).bind fun status => ?_
      split
      · exact .get_bind fun _ => .pure _
      · exact .throw _
  | succ rounds ih =>
      rw [Conch.whileRounds]
      refine (hparts.execute test).bind fun status => ?_
      split
      · exact .get_bind fun _ => .pure _
      refine .attempt_bind (executeAll hparts body) fun result => ?_
      cases result with
      | ok last => exact ih last
      | error interruption =>
          dsimp only
          split
          · exact .pure _
          · exact ih last
          · exact .throw _

theorem forRounds (name : String) (body : List Node) (limit rounds : Nat) (status : Int)
    (values : List String) :
    course.Holds (forRounds parts name body limit rounds status values) := by
  induction values generalizing rounds status with
  | nil =>
      cases rounds <;> exact .pure status
  | cons value rest ih =>
      cases rounds with
      | zero => exact .throw _
      | succ rounds =>
          rw [Conch.forRounds]
          refine (set _ _).bind fun _ =>
            .attempt_bind (executeAll hparts body) fun result => ?_
          cases result with
          | ok status => exact ih rounds status
          | error interruption =>
              dsimp only
              split
              · exact .pure _
              · exact .state_bind fun state => ih rounds state.status
              · exact .throw _

theorem runFor (name : String) (words body : List Node) :
    course.Holds (runFor parts name words body) := by
  unfold Conch.runFor
  split
  · exact .throw _
  · exact (expandWords hparts words).bind fun values => inLoop (.get_bind fun shell =>
      forRounds hparts name body _ _ 0 values)

theorem anyMatches (subject : String) (words : List Node) :
    course.Holds (anyMatches parts subject words) := by
  induction words with
  | nil => exact .pure _
  | cons word words ih =>
      refine Holds.bind ((expandWord hparts false word).bind fun _ => .pure _) fun pattern => ?_
      split
      · exact .pure _
      · exact ih

theorem runArms (subject : String) (arms : List Arm) :
    course.Holds (runArms parts subject arms) := by
  induction arms with
  | nil => exact .pure _
  | cons arm rest ih =>
      obtain ⟨patterns, body⟩ := arm
      rw [Conch.runArms]
      refine (anyMatches hparts subject patterns).bind fun found => ?_
      split
      · exact executeAll hparts body
      · exact ih

end

/-! ## Statements -/

section

variable (executor : Executor)

theorem executeNode {call : Node → Action Int} (hcall : ∀ body, course.Holds (call body))
    {parts : Evaluator} (hparts : parts.Follows course) (node : Node) :
    course.Holds (executeNode executor call parts node) := by
  refine recording ?_
  cases node with
  | command args background => exact runCommand hcall hparts args background
  | subshell body => exact inSubshell _ _
  | group body => exact executeAll hparts body
  | conditional test body elifs otherwise => exact runBranches hparts _ _ _
  | whileLoop test body => exact inLoop (.get_bind fun _ => whileRounds hparts test body _ _ 0)
  | forLoop name words body => exact runFor hparts name words body
  | choice subject arms =>
      exact (expandSingle hparts subject).bind fun subject => runArms hparts subject arms
  | binary op left right => exact runBinary hparts op left right
  | function name body =>
      exact Holds.bind (.modify fun _ => ⟨rfl, rfl, List.suffix_rfl⟩) fun _ => .pure _
  | _ => exact .throw _

theorem evaluator {call : Node → Action Int} (hcall : ∀ body, course.Holds (call body))
    (height : Nat) : (evaluator executor call height).Follows course := by
  induction height with
  | zero => exact ⟨fun _ => .pure _, fun _ _ fields => .pure fields⟩
  | succ height ih => exact ⟨executeNode executor hcall ih, expandFragment ih⟩

theorem executeWithin (calls : Nat) (node : Node) :
    course.Holds (executeWithin executor calls node) := by
  induction calls generalizing node with
  | zero => exact .pure _
  | succ calls ih => exact (evaluator executor ih node.height).execute node

theorem execute (node : Node) : course.Holds (execute executor node) :=
  .get_bind fun _ => executeWithin executor _ node

theorem runProgram (program : Syntax.Program) :
    course.Holds (Action.runProgram executor program) := by
  refine forM (fun node => .attempt_bind (execute executor node) fun result => ?_) program
  split
  · exact .pure _
  · exact Holds.bind (modifyState fun _ => ⟨rfl, rfl, rfl, rfl⟩) fun _ => .throw _
  · split
    · exact .pure _
    · exact .throw _

end

end Course.Holds

/-! ## Captured scripts -/

namespace Shell

theorem complain_returns (message : String) (shell : Shell) :
    (complain message shell).Returns fun x => x.2 = shell := by
  have hwrite : Proc.Returns (Action.writeTo shell.streams.errors (diagnostic message) shell)
      fun x => x.2 = shell := (Proc.Returns.trivial _).bind fun _ _ => rfl
  exact Proc.Returns.bind hwrite fun _ hsame => hsame

theorem runStatus_returns (result : Except Interruption Unit) (shell : Shell) :
    (runStatus result shell).Returns fun x => x.2 = shell := by
  have hcomplaint : ∀ (message : String) (status : Int),
      ((do complain message; return status : StateT Shell Proc Int) shell).Returns
        fun x => x.2 = shell := fun message status =>
    (complain_returns message shell).bind fun _ hsame => hsame
  cases result with
  | ok _ => exact rfl
  | error interruption =>
      cases interruption with
      | leaveShell status => exact rfl
      | _ => exact hcomplaint _ _

/-- A captured script once it has its buffers. -/
def captureInto (executor : Executor) (program : Syntax.Program) (shell : Shell)
    (output errors : BufferId) : Proc (Completion × Shell) :=
  Proc.bind ((do Action.reset; Action.runProgram executor program : Action Unit)
    { shell with streams := ⟨none, .buffer output, .buffer errors⟩ }) fun x =>
      (runStatus x.1 x.2).bind fun y => do
        let written ← Proc.request (.contents output)
        let complaints ← Proc.request (.contents errors)
        return (⟨Text.decodeLossy written, Text.decodeLossy complaints, y.1⟩,
          { y.2 with state := { y.2.state with status := y.1 }, streams := .silent })

/-- A captured script is run with its output in two buffers, after the counts were reset, and then
its end is reported. -/
theorem runs_capture {executor : Executor} {program : Syntax.Program} {shell final : Shell}
    {log : List Exchange} {completion : Completion} :
    (capture executor program shell).Runs log (completion, final) ↔
      ∃ output errors during told written complaints result ended,
        log = .asked .newBuffer output :: .asked .newBuffer errors :: (during ++
          (told ++ [.asked (.contents output) written, .asked (.contents errors) complaints])) ∧
        Acts (do Action.reset; Action.runProgram executor program)
          { shell with streams := ⟨none, .buffer output, .buffer errors⟩ } during (result, ended) ∧
        (runStatus result ended).Runs told (completion.status, ended) ∧
        completion = ⟨Text.decodeLossy written, Text.decodeLossy complaints, completion.status⟩ ∧
        final = { ended with
          state := { ended.state with status := completion.status }
          streams := .silent } := by
  constructor
  · rintro ⟨output, _, rfl, errors, rest, rfl, hrest⟩
    have hinto : (captureInto executor program shell output errors).Runs rest (completion, final) :=
      hrest
    obtain ⟨⟨result, ended⟩, during, _, rfl, hacts, hreport⟩ := Proc.runs_bind.mp hinto
    obtain ⟨⟨status, told⟩, second, _, rfl, hstatus, hlast⟩ := Proc.runs_bind.mp hreport
    obtain ⟨written, _, rfl, complaints, _, rfl, rfl, hx⟩ := hlast
    cases hx
    obtain rfl : told = ended := (runStatus_returns _ _).of_runs hstatus
    exact ⟨output, errors, during, second, written, complaints, result, told, rfl, hacts, hstatus,
      rfl, rfl⟩
  · rintro ⟨output, errors, during, told, written, complaints, result, ended, rfl, hacts, hstatus,
      hcompletion, rfl⟩
    have hinto : (captureInto executor program shell output errors).Runs (during ++
        (told ++ [.asked (.contents output) written, .asked (.contents errors) complaints]))
        (completion, { ended with
          state := { ended.state with status := completion.status }, streams := .silent }) := by
      refine Proc.runs_bind.mpr ⟨_, during, _, rfl, hacts, ?_⟩
      refine Proc.runs_bind.mpr ⟨_, told, _, rfl, hstatus, ?_⟩
      exact ⟨written, _, rfl, complaints, _, rfl, rfl, by rw [← hcompletion]⟩
    exact ⟨output, _, rfl, errors, _, rfl, hinto⟩

end Shell

end Conch
