import Conch.Proofs.Unwinding.Actions

/-!
# Statements that crash or fail

Every statement fails in the run of the executor that fails where it crashes in the run of the
other one.  In words and in copies of the shell no scope of the shell is open, so the scopes that
a crash leaves open are those of the loops and calls around it and of the command itself.
-/

namespace Conch

open Syntax (Node Branch Arm)

/-! ## Words -/

/-- Statements and words fail in the second evaluator where they crash in the first. -/
structure Evaluator.Unwinds (e : StreamError) (parts other : Evaluator) : Prop where
  execute : ∀ node : Node, Conch.Unwinds e node.Encloses (parts.execute node) (other.execute node)
  expand : ∀ isQuoted node fields, Conch.Unwinds e (· = []) (parts.expand isQuoted node fields)
    (other.expand isQuoted node fields)

theorem Course.Holds.endWith {course : Course} (result : Except Interruption Int) :
    course.Holds (Action.endWith result) := by
  cases result with
  | ok status => exact .pure status
  | error interruption =>
      cases interruption with
      | breakLoops levels => exact .get_bind fun _ => .pure _
      | continueLoop levels => exact .get_bind fun _ => .pure _
      | leaveFunction status => exact .pure status
      | leaveShell status => exact .pure status
      | command fault => exact .report _
      | arithmetic text fault => exact .report _
      | substitution text fault => exact .report _
      | _ => exact .throw _

namespace Unwinds

variable {e : StreamError} {admits inner : List Scope → Prop}

theorem inSubshell {body other : Action Int} (change : Shell → Shell)
    (h : Unwinds e inner body other) :
    Unwinds e (· = []) (Action.inSubshell change body) (Action.inSubshell change other) :=
  .onCopy _ (h.attempt_bind fun result => .same (.endWith result))

theorem recording {body other : Action Int} (h : Unwinds e admits body other) :
    Unwinds e admits (Action.recording body) (Action.recording other) := by
  have hrecord : ∀ status, Course.ofCalls.Holds (do
      Action.modifyState fun state => { state with status := status }
      return status : Action Int) := fun status =>
    Course.Holds.bind (.modifyState fun _ => ⟨rfl, rfl, rfl, rfl⟩) fun _ => .pure status
  refine h.attempt_bind fun result => .same ?_
  cases result with
  | ok status => exact hrecord status
  | error interruption =>
      dsimp only
      split
      · exact (Course.Holds.report interruption).bind hrecord
      · exact .throw interruption

section

variable {parts other : Evaluator} (hparts : parts.Unwinds e other)

include hparts

theorem executeAll {nodes : List Node}
    (h : ∀ node ∈ nodes, ∀ scopes, node.Encloses scopes → admits scopes) :
    Unwinds e admits (executeAll parts nodes) (executeAll other nodes) :=
  .foldlM (fun _ node hnode => (hparts.execute node).mono (h node hnode)) 0

theorem expandAll (isQuoted : Bool) (fragments : List Node) (fields : Fields) :
    Unwinds e (· = []) (expandAll parts isQuoted fragments fields)
      (expandAll other isQuoted fragments fields) :=
  .foldlM (fun fields fragment _ => hparts.expand isQuoted fragment fields) fields

theorem expandWord (splits : Bool) (word : Node) :
    Unwinds e (· = []) (expandWord parts splits word) (expandWord other splits word) := by
  refine .state_bind fun state => ?_
  dsimp only
  split
  · split <;> exact expandAll hparts _ _ _
  · exact expandAll hparts _ _ _

theorem expandSingle (word : Node) :
    Unwinds e (· = []) (expandSingle parts word) (expandSingle other word) :=
  (expandWord hparts false word).before fun _ => .pure _

theorem expandWords (words : List Node) :
    Unwinds e (· = []) (expandWords parts words) (expandWords other words) :=
  .flatMapM (fun word => (expandWord hparts true word).before fun _ =>
    .flatMapM Course.Holds.fieldNames _) words

theorem operandValue (operand : String) :
    Unwinds e (· = []) (operandValue parts operand) (operandValue other operand) := by
  unfold Conch.operandValue
  split
  · exact .same (.throw _)
  · exact expandSingle hparts _

theorem operationValue (name : String) (orEmpty : Bool) (op : ParameterOperator)
    (operand : String) :
    Unwinds e (· = []) (operationValue parts name orEmpty op operand)
      (operationValue other name orEmpty op operand) := by
  have hoperand := operandValue hparts operand
  refine .state_bind fun state => ?_
  cases op with
  | alternative =>
      dsimp only
      split
      · exact .same (.pure _)
      · exact hoperand
  | useDefault =>
      dsimp only
      split
      · exact hoperand
      · exact .same (.pure _)
  | assignDefault =>
      dsimp only
      split
      · exact .same (.pure _)
      split
      · exact .throw_bind _ _ _
      · exact hoperand.before fun _ => (Course.Holds.set _ _).bind fun _ => .pure _
  | required =>
      dsimp only
      split
      · exact .same (.pure _)
      split
      · exact .same (.throw _)
      · exact hoperand.before fun _ => .throw _

theorem parameterValue (short : Bool) (text : String) :
    Unwinds e (· = []) (parameterValue parts short text) (parameterValue other short text) := by
  refine .state_bind fun state => ?_
  split
  · exact .same (.pure _)
  split
  · exact .same (.throw _)
  · exact .same (.pure _)
  · exact .same (.pure _)
  · exact .same (.pure _)
  · exact operationValue hparts _ _ _ _

theorem substitutionValue (body : List Node) :
    Unwinds e (· = []) (substitutionValue parts body) (substitutionValue other body) := by
  have hbody : Unwinds e (fun _ => True) (Conch.executeAll parts body)
      (Conch.executeAll other body) := executeAll hparts fun _ _ _ _ => trivial
  refine .after (.request _) fun buffer => (hbody.inSubshell _).before fun status => ?_
  exact Course.Holds.bind (.modify fun _ => ⟨rfl, rfl, List.suffix_rfl⟩) fun _ =>
    (Course.Holds.request _).bind fun _ => .pure _

theorem arithmeticValue (text : String) :
    Unwinds e (· = []) (arithmeticValue parts text) (arithmeticValue other text) := by
  unfold Conch.arithmeticValue
  split
  · exact .same (.throw _)
  · refine (expandSingle hparts _).before fun expanded => .state_bind fun state => ?_
    rcases Arithmetic.value expanded state.bindings with ⟨result, bindings⟩
    refine Course.Holds.bind (.modifyState fun _ => ⟨rfl, rfl, rfl, rfl⟩) fun _ => ?_
    cases result with
    | ok value => exact .pure _
    | error fault => exact .throw _

theorem expandFragment (isQuoted : Bool) (fragment : Node) (fields : Fields) :
    Unwinds e (· = []) (expandFragment parts isQuoted fragment fields)
      (expandFragment other isQuoted fragment fields) := by
  cases fragment with
  | literal text =>
      dsimp only [Conch.expandFragment]
      split <;> exact .same (.pure _)
  | quoted inside => exact .state_bind fun _ => expandAll hparts _ _ _
  | parameter short text =>
      dsimp only [Conch.expandFragment]
      split
      · exact .state_bind fun _ => .same (.pure _)
      · exact (parameterValue hparts short text).before fun _ => .pure _
  | substitution body => exact (substitutionValue hparts body).before fun _ => .pure _
  | arithmetic text => exact (arithmeticValue hparts text).before fun _ => .pure _
  | word inside => exact expandAll hparts _ _ _
  | _ => exact .same (.pure _)

/-! ## Commands -/

theorem redirect (streams : Streams) (redirection : Redirection) :
    Unwinds e (· = []) (redirect parts streams redirection)
      (redirect other streams redirection) := by
  refine (expandSingle hparts _).before fun target => ?_
  split
  · exact (Course.Holds.openTarget _ _).bind fun _ => .ofFault _
  · exact (Course.Holds.openTarget _ _).bind fun _ => .ofFault _
  · dsimp only
    split
    · exact .throw _
    · exact (Course.Holds.openTarget _ _).bind fun _ =>
        (Course.Holds.request _).bind fun _ => .pure _
  · exact .ofFault _
  · exact .ofFault _
  · exact .throw _

theorem redirectAll (redirections : List Redirection) :
    Unwinds e (· = []) (redirectAll parts redirections) (redirectAll other redirections) :=
  .get_bind fun _ => .foldlM (fun streams redirection _ => redirect hparts streams redirection) _

theorem assignOnly (command : CommandParts) :
    Unwinds e (· = []) (assignOnly parts command) (assignOnly other command) := by
  have hassign : ∀ assignment ∈ command.assignments, Unwinds e (· = [])
      (do let value ← Conch.expandSingle parts assignment.value
          Action.modifyState (·.set assignment.name value))
      (do let value ← Conch.expandSingle other assignment.value
          Action.modifyState (·.set assignment.name value)) := fun assignment _ =>
    (expandSingle hparts assignment.value).before fun value => .set assignment.name value
  exact (forM hassign).bind fun _ => (redirectAll hparts _).discard.before fun _ =>
    .get_bind fun _ => .pure _

end

theorem acts_runExternal {executor : Executor} {arguments : List String} {shell : Shell}
    {log : List Exchange} {x : Except Interruption Int × Shell} :
    Acts (Conch.runExternal executor arguments) shell log x ↔
      ∃ result, (executor ⟨arguments, shell.state.environment, shell.state.directory,
          shell.state.get? "PATH"⟩ shell.streams).Runs log result ∧
        x = (result.mapError .ofExternal, shell) := by
  rw [Conch.runExternal, acts_get_bind, acts_ofProc]
  constructor
  · rintro ⟨_, hruns, rfl⟩
    obtain ⟨result, first, _, rfl, hexecuted, rfl, rfl⟩ := Proc.runs_bind.mp hruns
    exact ⟨result, (List.append_nil first).symm ▸ hexecuted, rfl⟩
  · rintro ⟨result, hexecuted, rfl⟩
    exact ⟨_, Proc.runs_bind.mpr ⟨result, log, [], (List.append_nil log).symm, hexecuted, rfl, rfl⟩,
      rfl⟩

/-- An external command is where a crash strikes. -/
theorem runExternal (executor : Executor) (arguments : List String) :
    Unwinds e (· = []) (runExternal executor arguments)
      (runExternal (executor.softened e) arguments) := by
  intro shell log x hacts
  obtain ⟨result, hruns, rfl⟩ := acts_runExternal.mp hacts
  refine ⟨log, _, acts_runExternal.mpr ⟨_, Executor.softened_runs e hruns, rfl⟩, rfl, ?_⟩
  rcases result with fault | status
  · cases fault with
    | stream _ => exact .same (Nat.le_refl _)
    | crash =>
        have hclosed : Unwound e (· = []) shell.state.callDepth
            ((.error .crash : Except Interruption Int), shell)
            (.error (.stream e), Scope.leaveAll [] shell) := .crashed rfl (Nat.le_refl _)
        exact hclosed
  · exact .same (Nat.le_refl _)

section

variable {executor : Executor} {call call' : Node → Action Int}
  (hcall : ∀ body, Unwinds e body.Encloses (call body) (call' body))

include hcall

theorem callFunction (name : String) (body : Node) (args : List String) :
    Unwinds e Scope.AreInvoked (callFunction call name body args)
      (callFunction call' name body args) := by
  refine fun shell => .get_bind ?_
  split
  · exact .same (Course.Holds.throw _ _)
  have hinside : UnwindsAt e Scope.AreInvoked shell.state.callDepth (shell.called args)
      (Action.ensuring (Scope.call shell.state.positional).leave (call body))
      (Action.ensuring (Scope.call shell.state.positional).leave (call' body)) :=
    .ensuring (hcall body (shell.called args)) fun scopes hbody =>
      .inr ⟨body, scopes, _, hbody, rfl⟩
  refine .modify_bind (hinside.attempt_bind fun result => .same ?_)
  cases result with
  | ok status => exact .pure status
  | error interruption =>
      cases interruption with
      | leaveFunction status => exact .pure status
      | _ => exact .throw _

theorem invoke (arguments : List String) :
    Unwinds e Scope.AreInvoked (invoke executor call arguments)
      (invoke (executor.softened e) call' arguments) := by
  cases arguments with
  | nil => exact .same (.pure 0)
  | cons name args =>
      refine .get_bind fun shell => .state_bind fun state => ?_
      dsimp only
      split
      · split
        · exact .same (.builtin _ args)
        · exact callFunction hcall name _ args
      · exact .same (.builtin _ args)
      · exact callFunction hcall name _ args
      · exact (runExternal executor _).lift (.inl rfl)

variable {parts other : Evaluator} (hparts : parts.Unwinds e other)

include hparts

theorem invokeUnder (command : CommandParts) (arguments : List String) (hnil : admits [])
    (hadmits : ∀ scopes saved outer, Scope.AreInvoked scopes →
      saved.map SavedVariable.name = (command.assignments.map Assignment.name).reverse →
        admits (scopes ++ [.command saved outer])) :
    Unwinds e admits (invokeUnder executor call parts command arguments)
      (invokeUnder (executor.softened e) call' other command arguments) := by
  have hvalues : Unwinds e admits (assignedValues parts command.assignments)
      (assignedValues other command.assignments) :=
    .mapM (fun assignment => ((expandSingle hparts _).before fun _ => .pure _).lift hnil) _
  refine fun shell => (hvalues shell).bind fun values next log hacts => ?_
  have hnames := assignedValues_names hacts
  refine ((redirectAll hparts _).lift hnil).bind fun streams shell => .get_bind (.state_bind ?_)
  have hdepth := (State.pushAssignments_frame values shell.state []).callDepth
  have hsaved := shell.state.pushAssignments_names values
  generalize shell.state.pushAssignments [] values = pushed at hdepth hsaved ⊢
  obtain ⟨state, saved⟩ := pushed
  let entered : Shell := { shell with state := state, streams := streams }
  have hinvoked : UnwindsAt e Scope.AreInvoked state.callDepth entered
      (Conch.invoke executor call arguments)
      (Conch.invoke (executor.softened e) call' arguments) := invoke hcall arguments entered
  have hinside : UnwindsAt e admits shell.state.callDepth entered
      (Action.ensuring (Scope.command saved shell.streams).leave
        (Conch.invoke executor call arguments))
      (Action.ensuring (Scope.command saved shell.streams).leave
        (Conch.invoke (executor.softened e) call' arguments)) :=
    .ensuring (hdepth ▸ hinvoked) fun scopes hscopes =>
      hadmits scopes saved _ hscopes (hsaved.trans (by rw [hnames]))
  exact .modify_bind hinside

theorem runSimple (args : List Node) (background : Bool) :
    Unwinds e (Node.Encloses (.command args background)) (runSimple executor call parts args)
      (runSimple (executor.softened e) call' other args) := by
  refine .after (.modify fun _ => ⟨rfl, rfl, List.suffix_rfl⟩) fun _ =>
    ((expandWords hparts _).lift (.here _)).bind fun arguments => ?_
  split
  · exact (assignOnly hparts _).lift (.here _)
  · refine invokeUnder hcall hparts _ arguments (.here _)
      fun scopes saved outer hscopes hsaved => ?_
    rcases hscopes with rfl | ⟨body, inside, parameters, hbody, rfl⟩
    · exact .command background outer hsaved
    · exact .call background outer parameters hsaved hbody

omit hcall hparts in
/-- What a job is going to do is not looked at. -/
theorem startJob (args : List Node) :
    Unwinds e admits (startJob executor call parts args)
      (startJob (executor.softened e) call' other args) := by
  refine fun shell => .get_bind (.start_bind fun task log x hacts => ?_)
  obtain ⟨rfl, rfl⟩ := hacts
  exact ⟨[], _, ⟨rfl, rfl⟩, rfl, .same (Nat.le_refl _)⟩

theorem runCommand (args : List Node) (background : Bool) :
    Unwinds e (Node.Encloses (.command args background))
      (runCommand executor call parts args background)
      (runCommand (executor.softened e) call' other args background) := by
  refine .after .countCommand fun _ => ?_
  split
  · exact startJob args
  · exact runSimple hcall hparts args background

end

/-! ## Pipelines and control flow -/

section

variable {parts other : Evaluator} (hparts : parts.Unwinds e other)

include hparts

/-- After a crash the pipe is not closed. -/
theorem rightStage (right : Node) (pipe : PipeId) (left : TaskId) :
    Unwinds e (fun _ => True) (rightStage parts right pipe left)
      (rightStage other right pipe left) := by
  have hended : ∀ result : Except Interruption Int, Course.ofCalls.Holds (do
      Action.request (.closePipe pipe)
      let outcome ← Action.request (.join left)
      return (← Action.endWith result, outcome) : Action (Int × Outcome)) := fun result =>
    (Course.Holds.request _).bind fun _ => (Course.Holds.request _).bind fun _ =>
      (Course.Holds.endWith result).bind fun _ => .pure _
  intro shell log x hacts
  obtain ⟨result, next, first, later, rfl, hfirst, hlater⟩ := acts_attempt_bind.mp hacts
  obtain ⟨first', x', hother, hmatch, hends⟩ := hparts.execute right shell _ _ hfirst
  cases hends with
  | same hdepth =>
      have hdeeper : next.state.callDepth ≤ x.2.state.callDepth := by
        split at hlater
        · obtain ⟨_, _, rfl, rfl, rfl⟩ := hlater
          exact Nat.le_refl _
        · exact (hended result next later x.1 x.2 hlater).callDepth
      exact ⟨first' ++ later, x, acts_attempt_bind.mpr ⟨_, _, _, _, rfl, hother, hlater⟩,
        hmatch.append rfl, .same (Nat.le_trans hdepth hdeeper)⟩
  | crashed hscopes hdepth =>
      obtain ⟨outcome, _, rfl, rfl, rfl⟩ := hlater
      have hclosing : Matches [.asked (.join left) outcome]
        [.asked (.closePipe pipe) (), .asked (.join left) outcome] := rfl
      exact ⟨first' ++ _, _, acts_attempt_bind.mpr ⟨_, _, _, _, rfl, hother,
        (), _, rfl, outcome, _, rfl, rfl, rfl⟩, hmatch.append hclosing, .crashed trivial hdepth⟩

theorem runPipe (left right : Node) :
    Unwinds e (· = []) (runPipe parts left right) (runPipe other left right) := by
  refine .after (.request _) fun pipe => .after (.request _) fun input => .get_bind fun shell =>
    fun shell => .start_bind fun task => ?_
  refine (((rightStage hparts right pipe task).onCopy _).before fun x => ?_) shell
  obtain ⟨status, outcome⟩ := x
  dsimp only
  split
  · exact .throw _
  · exact .pure _

theorem runBinary (op : Syntax.Token) (left right : Node) :
    Unwinds e (Node.Encloses (.binary op left right)) (runBinary parts op left right)
      (runBinary other op left right) := by
  have hoperands : (Node.binary op left right).steps = [left, right] →
      Unwinds e (Node.Encloses (.binary op left right)) (parts.execute left)
          (other.execute left) ∧
        Unwinds e (Node.Encloses (.binary op left right)) (parts.execute right)
          (other.execute right) := fun hsteps =>
    ⟨(hparts.execute left).mono fun _ h => .step (by simp [hsteps]) rfl h,
      (hparts.execute right).mono fun _ h => .step (by simp [hsteps]) rfl h⟩
  unfold Conch.runBinary
  split
  · obtain ⟨hleft, hright⟩ := hoperands rfl
    refine hleft.bind fun status => ?_
    split
    · exact .same (.pure _)
    · exact hright
  · obtain ⟨hleft, hright⟩ := hoperands rfl
    refine hleft.bind fun status => ?_
    split
    · exact .same (.pure _)
    · exact hright
  · exact (runPipe hparts left right).lift (.here _)
  · exact .same (.throw _)

theorem runBranches {otherwise : List Node} {branches : List Branch}
    (hbranches : ∀ test body, .mk test body ∈ branches → ∀ step ∈ test :: body, ∀ scopes,
      step.Encloses scopes → admits scopes)
    (hotherwise : ∀ step ∈ otherwise, ∀ scopes, step.Encloses scopes → admits scopes)
    (status : Int) :
    Unwinds e admits (runBranches parts otherwise status branches)
      (runBranches other otherwise status branches) := by
  induction branches generalizing status with
  | nil =>
      rw [Conch.runBranches, Conch.runBranches]
      split
      · exact .same (.pure _)
      · exact executeAll hparts hotherwise
  | cons branch rest ih =>
      obtain ⟨test, body⟩ := branch
      obtain ⟨htest, hbody⟩ := List.forall_mem_cons.mp (hbranches test body List.mem_cons_self)
      have hrest := ih fun test body hmem => hbranches test body (List.mem_cons_of_mem _ hmem)
      rw [Conch.runBranches, Conch.runBranches]
      refine ((hparts.execute test).mono htest).bind fun reached => ?_
      split
      · exact executeAll hparts hbody
      · exact hrest reached

omit hparts in
theorem inLoop {body other : Action Int} (h : Unwinds e inner body other)
    (hadmits : ∀ scopes, inner scopes → admits (scopes ++ [.loop])) :
    Unwinds e admits (inLoop body) (inLoop other) := by
  intro shell
  have hinside : UnwindsAt e admits shell.state.callDepth
      { shell with state := { shell.state with loopDepth := shell.state.loopDepth + 1 } }
      (Action.ensuring Scope.loop.leave body) (Action.ensuring Scope.loop.leave other) :=
    .ensuring (h _) hadmits
  exact .modify_bind hinside

theorem whileRounds {test : Node} {body : List Node}
    (h : ∀ step ∈ test :: body, ∀ scopes, step.Encloses scopes → admits scopes)
    (limit rounds : Nat) (last : Int) :
    Unwinds e admits (whileRounds parts test body limit rounds last)
      (whileRounds other test body limit rounds last) := by
  obtain ⟨htest, hbody⟩ := List.forall_mem_cons.mp h
  induction rounds generalizing last with
  | zero =>
      rw [Conch.whileRounds, Conch.whileRounds]
      refine ((hparts.execute test).mono htest).before fun status => ?_
      split
      · exact .get_bind fun _ => .pure _
      · exact .throw _
  | succ rounds ih =>
      rw [Conch.whileRounds, Conch.whileRounds]
      refine ((hparts.execute test).mono htest).bind fun status => ?_
      split
      · exact .same (.get_bind fun _ => .pure _)
      refine (executeAll hparts hbody).attempt_bind fun result => ?_
      cases result with
      | ok last => exact ih last
      | error interruption =>
          dsimp only
          split
          · exact .same (.pure _)
          · exact ih last
          · exact .same (.throw _)

theorem forRounds (name : String) {body : List Node}
    (h : ∀ step ∈ body, ∀ scopes, step.Encloses scopes → admits scopes)
    (limit rounds : Nat) (status : Int) (values : List String) :
    Unwinds e admits (forRounds parts name body limit rounds status values)
      (forRounds other name body limit rounds status values) := by
  induction values generalizing rounds status with
  | nil => cases rounds <;> exact .same (.pure status)
  | cons value rest ih =>
      cases rounds with
      | zero => exact .same (.throw _)
      | succ rounds =>
          rw [Conch.forRounds, Conch.forRounds]
          refine .after (.set _ _) fun _ =>
            (executeAll hparts h).attempt_bind fun result => ?_
          cases result with
          | ok status => exact ih rounds status
          | error interruption =>
              dsimp only
              split
              · exact .same (.pure _)
              · exact .state_bind fun state => ih rounds state.status
              · exact .same (.throw _)

theorem runFor (name : String) (words body : List Node) :
    Unwinds e (Node.Encloses (.forLoop name words body)) (runFor parts name words body)
      (runFor other name words body) := by
  unfold Conch.runFor
  split
  · exact .throw_bind _ _ _
  · have hround : ∀ limit values, Unwinds e (fun scopes => ∃ step ∈ body, step.Encloses scopes)
        (Conch.forRounds parts name body limit limit 0 values)
        (Conch.forRounds other name body limit limit 0 values) := fun limit values =>
      forRounds hparts name (fun step hstep _ h => ⟨step, hstep, h⟩) limit limit 0 values
    refine ((expandWords hparts words).lift (.here _)).bind fun values =>
      inLoop (.get_bind fun shell => hround _ values) ?_
    rintro scopes ⟨step, hstep, h⟩
    exact .round hstep rfl h

theorem anyMatches (subject : String) (words : List Node) :
    Unwinds e (· = []) (anyMatches parts subject words) (anyMatches other subject words) := by
  induction words with
  | nil => exact .same (.pure _)
  | cons word words ih =>
      have hpattern : Unwinds e (· = []) (expandPattern parts word) (expandPattern other word) :=
        (expandWord hparts false word).before fun _ => .pure _
      refine hpattern.bind fun pattern => ?_
      split
      · exact .same (.pure _)
      · exact ih

theorem runArms (subject : String) {arms : List Arm} (hnil : admits [])
    (h : ∀ patterns body, .mk patterns body ∈ arms → ∀ step ∈ body, ∀ scopes,
      step.Encloses scopes → admits scopes) :
    Unwinds e admits (runArms parts subject arms) (runArms other subject arms) := by
  induction arms with
  | nil => exact .same (.pure _)
  | cons arm rest ih =>
      obtain ⟨patterns, body⟩ := arm
      rw [Conch.runArms, Conch.runArms]
      refine ((anyMatches hparts subject patterns).lift hnil).bind fun found => ?_
      split
      · exact executeAll hparts (h patterns body List.mem_cons_self)
      · exact ih fun patterns body hmem => h patterns body (List.mem_cons_of_mem _ hmem)

end

/-! ## Statements -/

section

variable (executor : Executor)

theorem executeNode {call call' : Node → Action Int}
    (hcall : ∀ body, Unwinds e body.Encloses (call body) (call' body))
    {parts other : Evaluator} (hparts : parts.Unwinds e other) (node : Node) :
    Unwinds e node.Encloses (executeNode executor call parts node)
      (executeNode (executor.softened e) call' other node) := by
  have hstep : node.isLoop = false → ∀ step ∈ node.steps, ∀ scopes, step.Encloses scopes →
      node.Encloses scopes := fun hplain step hmem _ h => .step hmem hplain h
  refine recording ?_
  cases node with
  | command args background => exact runCommand hcall hparts args background
  | subshell body =>
      have hbody : Unwinds e (fun _ => True) (Conch.executeAll parts body)
        (Conch.executeAll other body) := executeAll hparts fun _ _ _ _ => trivial
      exact (hbody.inSubshell _).lift (.here _)
  | group body => exact executeAll hparts (hstep rfl)
  | conditional test body elifs otherwise =>
      refine runBranches hparts (fun test' body' hmem step hbody => hstep rfl step ?_)
        (fun step hother => hstep rfl step (List.mem_append_right _ hother)) 0
      refine List.mem_append_left _ ?_
      rcases List.mem_cons.mp hmem with hfirst | hmem
      · cases hfirst
        exact List.mem_append_left _ hbody
      · exact List.mem_append_right _ (List.mem_flatMap.mpr ⟨_, hmem, hbody⟩)
  | whileLoop test body =>
      have hround : ∀ limit, Unwinds e (fun scopes => ∃ step ∈ test :: body, step.Encloses scopes)
          (Conch.whileRounds parts test body limit limit 0)
          (Conch.whileRounds other test body limit limit 0) := fun limit =>
        whileRounds hparts (fun step hstep _ h => ⟨step, hstep, h⟩) limit limit 0
      refine inLoop (.get_bind fun shell => hround _) ?_
      rintro scopes ⟨step, hstep, h⟩
      exact .round hstep rfl h
  | forLoop name words body => exact runFor hparts name words body
  | choice subject arms =>
      refine ((expandSingle hparts subject).lift (.here _)).bind fun subject =>
        runArms hparts subject (.here _) fun patterns body hmem step hbody => hstep rfl step ?_
      exact List.mem_flatMap.mpr ⟨_, hmem, hbody⟩
  | binary op left right => exact runBinary hparts op left right
  | function name body =>
      exact .same (Course.Holds.bind (.modify fun _ => ⟨rfl, rfl, List.suffix_rfl⟩)
        fun _ => .pure _)
  | _ => exact .same (.throw _)

theorem evaluator {call call' : Node → Action Int}
    (hcall : ∀ body, Unwinds e body.Encloses (call body) (call' body)) (height : Nat) :
    (evaluator executor call height).Unwinds e (evaluator (executor.softened e) call' height) := by
  induction height with
  | zero => exact ⟨fun _ => .same (.pure _), fun _ _ fields => .same (.pure fields)⟩
  | succ height ih => exact ⟨executeNode executor hcall ih, expandFragment ih⟩

theorem executeWithin (calls : Nat) (node : Node) :
    Unwinds e node.Encloses (executeWithin executor calls node)
      (executeWithin (executor.softened e) calls node) := by
  induction calls generalizing node with
  | zero => exact .same (.pure _)
  | succ calls ih => exact (evaluator executor ih node.height).execute node

theorem execute (node : Node) :
    Unwinds e node.Encloses (execute executor node) (execute (executor.softened e) node) :=
  .get_bind fun _ => executeWithin executor _ node

theorem runProgram (program : Syntax.Program) :
    Unwinds e (fun scopes => ∃ statement ∈ program, statement.Encloses scopes)
      (Action.runProgram executor program)
      (Action.runProgram (executor.softened e) program) := by
  refine forM fun statement hmem => ?_
  have hstatement := (execute (e := e) executor statement).mono fun scopes h =>
    (⟨statement, hmem, h⟩ : ∃ statement ∈ program, Node.Encloses statement scopes)
  refine hstatement.attempt_bind fun result => .same ?_
  split
  · exact .pure _
  · exact Course.Holds.bind (.modifyState fun _ => ⟨rfl, rfl, rfl, rfl⟩) fun _ => .throw _
  · split
    · exact .pure _
    · exact .throw _

end

end Unwinds

end Conch
