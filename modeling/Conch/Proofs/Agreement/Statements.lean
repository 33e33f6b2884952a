import Conch.Proofs.Agreement.Commands

/-!
# Statements run alike

Evaluators that agree on the trees up to a height execute what is one level higher in
the same way (`alike_executeNode`), jobs and the stages of pipelines included.
-/

namespace Conch

open Syntax (Node Branch Arm)

section

variable {terms : Terms} {level : Level}

/-! ## Statements and jobs -/

theorem alike_recording {body other : Action Int}
    (h : Alike terms level terms.statuses body other) :
    Alike terms level terms.statuses (Action.recording body) (Action.recording other) := by
  have hrecord : ∀ status : Int, terms.statuses status → Alike terms level terms.statuses (do
      Action.modifyState fun state => { state with status := status }
      return status : Action Int) (do
      Action.modifyState fun state => { state with status := status }
      return status) := fun status hstatus =>
    Alike.andThen (.modifyState (fun _ => rfl) fun _ _ => hstatus) fun _ => .pure hstatus
  refine h.attempt_bind (fun result hresult hcarries => ?_) fun final hfinal => .crashed hfinal
  cases result with
  | ok status => exact hrecord status hcarries
  | error interruption =>
      exact .ite ((alike_report interruption).bind hrecord)
        (.throw (by simpa using hresult) hcarries)

/-- That a message cannot be written is passed over. -/
theorem alike_tryWriteErrors (text : String) :
    Alike terms level anything (discard (Action.writeErrors text).attempt : Action PUnit)
      (discard (Action.writeErrors text).attempt) := by
  intro shell hshell
  have hrun : (discard (Action.writeErrors text).attempt : Action PUnit) shell =
      (shell.streams.errors.write text).bind fun _ => .done (.ok (), shell) := by
    change (((((shell.streams.errors.write text).bind fun written =>
      .done (written.mapError Interruption.stream)).bind fun result => .done (result, shell)).bind
        fun x => .done (Except.ok x.1, x.2)).bind _) = _
    simp only [Proc.bind_assoc]
    rfl
  rw [hrun]
  exact .after (Output.write_asks _ _) (Proc.Returns.trivial _) fun _ _ => .ok trivial hshell

theorem alike_jobStatus {result : Except Interruption Int} (h : result ≠ .error .crash)
    (hcarries : Carries terms.statuses terms.statuses result) :
    Alike terms level terms.statuses (jobStatus result) (jobStatus result) := by
  cases result with
  | ok status => exact .pure hcarries
  | error interruption =>
      cases interruption with
      | crash => exact absurd rfl h
      | limit reached =>
          exact (alike_tryWriteErrors _).andThen fun _ => .pure (terms.status_of_nat (by decide))
      | _ => exact .pure (terms.status_of_nat (by decide))

theorem alike_ended {body other : Action Int} (h : Alike terms level terms.statuses body other) :
    Alike terms level terms.statuses
      (do let result ← body.attempt; jobStatus (← (Action.endWith result).attempt))
      (do let result ← other.attempt; jobStatus (← (Action.endWith result).attempt)) :=
  h.attempt_bind (fun _ hresult hcarries => (alike_endWith hresult hcarries).attempt_bind
    (fun _ hended hcarries => alike_jobStatus hended hcarries) fun _ hfinal => .crashed hfinal)
    fun _ hfinal => .crashed hfinal

section

variable {height : Nat} {parts others : Evaluator}
  (hsettled : parts.Agrees terms.settled level height others)
variable {executor : Executor} (hexecutor : executor.Supports terms)
variable {call call' : Node → Action Int}
  (hcall : level.callDepth < level.limits.callDepth → ∀ body,
    Alike terms.settled level.deeper terms.statuses (call body) (call' body))

include hsettled hexecutor hcall

theorem alike_startJob {args : List Node} (h : Node.heights args ≤ height) :
    Alike terms level terms.statuses (startJob executor call parts args)
      (startJob executor call' others args) := by
  have hcommand := alike_recording (alike_countCommand.andThen fun _ =>
    alike_runSimple hsettled hexecutor hcall h)
  refine .get_bind fun shell hshell => ?_
  have hbody := alike_ended hcommand shell.fork ⟨hshell.level, hshell.holds.fork⟩
  refine .start_bind (hbody.toAccord.bind fun x hx => .done ⟨hx.carries, hx.holds.status⟩)
    fun task => ?_
  rcases shell.jobs.spawn (Node.command args false).render task with ⟨id, jobs⟩
  refine Alike.andThen (.modify fun shell hshell => ?_) fun _ =>
    .pure (terms.status_of_nat (by decide))
  exact ⟨hshell.level, hshell.holds.congr rfl⟩

theorem alike_runCommand {args : List Node} (h : Node.heights args ≤ height) (background : Bool) :
    Alike terms level terms.statuses (runCommand executor call parts args background)
      (runCommand executor call' others args background) := by
  refine alike_countCommand.andThen fun _ => .ite ?_ ?_
  · exact alike_startJob hsettled hexecutor hcall h
  · exact alike_runSimple hsettled hexecutor hcall h

end

section

variable {height : Nat} {parts others : Evaluator}
  (hparts : parts.Agrees terms level height others)

include hparts

/-! ## Pipelines and lists -/

theorem accord_leftStage {left : Node} (h : left.height ≤ height) (pipe : PipeId) {shell : Shell}
    (hshell : shell.Meets terms.toHolding level) :
    (leftStage parts left pipe shell).Accord terms terms.promise
      (leftStage others left pipe shell) := by
  refine (hparts.execute left h shell hshell).toAccord.bind fun x hx => ?_
  obtain ⟨result, final⟩ := x
  have hended : terms.promise (.shell result final.state) := ⟨hx.carries, hx.holds.status⟩
  dsimp only
  split
  · exact .done hended
  · exact .ask fun _ _ => .done hended

theorem alike_rightStage {right : Node} (h : right.height ≤ height) (pipe : PipeId)
    (left : TaskId) :
    Alike terms level (fun x => terms.statuses x.1) (rightStage parts right pipe left)
      (rightStage others right pipe left) := by
  refine (hparts.execute right h).attempt_bind (fun result hresult hcarries => ?_)
    fun final hfinal => ?_
  · split
    · exact absurd rfl hresult
    · exact .request_bind _ fun _ => .request_bind _ fun _ =>
        (alike_endWith hresult hcarries).bind fun _ hstatus => .pure hstatus
  · have hcrashed : Ends terms.toHolding level (fun x : Int × Outcome => terms.statuses x.1)
        (.error .crash, final) := ⟨fun _ hnone => (nomatch hnone), hfinal, fun h => absurd rfl h⟩
    exact ⟨.ask fun _ _ => .done hcrashed, fun _ _ _ => trivial⟩

omit hparts in
/-- What the end of a stage means is neither a crash nor control flow. -/
theorem leftInterruption_plain {outcome : Outcome} {interruption : Interruption}
    (h : leftInterruption outcome = some interruption) :
    interruption ≠ .crash ∧ interruption.status? = none := by
  unfold leftInterruption at h
  split at h
  · cases h
    exact ⟨by simp, rfl⟩
  · split at h
    · cases h
    · cases h
      exact ⟨by simp, rfl⟩
  · cases h
    exact ⟨by simp, rfl⟩
  · cases h

theorem alike_runPipe {left right : Node} (hleft : left.height ≤ height)
    (hright : right.height ≤ height) :
    Alike terms level terms.statuses (runPipe parts left right) (runPipe others left right) := by
  refine .request_bind _ fun pipe => .request_bind _ fun input => ?_
  refine .get_bind fun shell hshell => ?_
  have hstage : Shell.Meets terms.toHolding level { shell.fork with
      streams := { shell.fork.streams with output := .pipe pipe } } :=
    ⟨hshell.level, hshell.holds.fork.congr rfl⟩
  refine .start_bind (accord_leftStage hparts hleft pipe hstage) fun task =>
    Alike.bind (.onCopy (alike_rightStage hparts hright pipe task) fun shell hshell => ?_)
      fun x hstatus => ?_
  · exact ⟨hshell.level, hshell.holds.fork.congr rfl⟩
  · obtain ⟨status, outcome⟩ := x
    dsimp only
    split
    · rename_i interruption hleft
      exact .fail (leftInterruption_plain hleft).1 (leftInterruption_plain hleft).2
    · exact .pure hstatus

theorem alike_runBinary {op : Syntax.Token} {left right : Node} (hleft : left.height ≤ height)
    (hright : right.height ≤ height) :
    Alike terms level terms.statuses (runBinary parts op left right)
      (runBinary others op left right) := by
  unfold runBinary
  split
  · exact (hparts.execute left hleft).bind fun _ hstatus =>
      .ite (.pure hstatus) (hparts.execute right hright)
  · exact (hparts.execute left hleft).bind fun _ hstatus =>
      .ite (.pure hstatus) (hparts.execute right hright)
  · exact alike_runPipe hparts hleft hright
  · exact .fail (by simp) rfl

/-! ## Conditionals and choices -/

theorem alike_runBranches {otherwise : List Node} {branches : List Branch}
    (hbranches : ∀ t b, Branch.mk t b ∈ branches → max t.height (Node.heights b) ≤ height)
    (hotherwise : Node.heights otherwise ≤ height) {status : Int}
    (hstatus : terms.statuses status) :
    Alike terms level terms.statuses (runBranches parts otherwise status branches)
      (runBranches others otherwise status branches) := by
  induction branches generalizing status with
  | nil => exact .ite (.pure hstatus) (alike_executeAll hparts hotherwise)
  | cons branch branches ih =>
      obtain ⟨test, body⟩ := branch
      obtain ⟨hbranch, hrest⟩ := Branch.forall_mem_cons.mp hbranches
      refine (hparts.execute test (by omega)).bind fun status hstatus => ?_
      exact .ite (alike_executeAll hparts (by omega)) (ih hrest hstatus)

theorem alike_runArms (subject : String) {arms : List Arm} (h : Arm.heights arms ≤ height) :
    Alike terms level terms.statuses (runArms parts subject arms)
      (runArms others subject arms) := by
  induction arms with
  | nil => exact .pure (terms.status_of_nat (by decide))
  | cons arm arms ih =>
      obtain ⟨patterns, body⟩ := arm
      rw [Arm.heights, Arm.height] at h
      refine (alike_anyMatches hparts subject (by omega)).andThen fun found => ?_
      exact .ite (alike_executeAll hparts (by omega)) (ih (by omega))

/-! ## Loops -/

omit hparts in
theorem alike_inLoop {body other : Action Int} (h : Alike terms level terms.statuses body other) :
    Alike terms level terms.statuses (inLoop body) (inLoop other) :=
  fun _ hshell => .bracket h ⟨hshell.level, hshell.holds.congr rfl⟩
    fun _ hfinal => ⟨hfinal.level, hfinal.holds.congr rfl⟩

omit hparts in
/-- Nothing else is passed on as a crash, and a status is passed on as it is. -/
theorem loopAction_pass {interruption raised : Interruption}
    (h : loopAction interruption = .pass raised) (hcrash : interruption ≠ .crash) :
    raised ≠ .crash ∧ raised.status? = interruption.status? := by
  cases interruption with
  | breakLoops levels =>
      rw [loopAction] at h
      split at h
      · cases h
      · cases h
        exact ⟨by simp, rfl⟩
  | continueLoop levels =>
      rw [loopAction] at h
      split at h
      · cases h
      · cases h
        exact ⟨by simp, rfl⟩
  | _ =>
      cases h
      exact ⟨hcrash, rfl⟩

omit hparts in
/-- What a loop passes on. -/
theorem alike_pass {interruption raised : Interruption} (h : loopAction interruption = .pass raised)
    (hresult : (.error interruption : Except Interruption Int) ≠ .error .crash)
    (hcarries : Carries terms.statuses terms.statuses
      (.error interruption : Except Interruption Int)) :
    Alike terms level terms.statuses (throw raised : Action Int) (throw raised) := by
  obtain ⟨hcrash, hstatus⟩ := loopAction_pass h (by simpa using hresult)
  exact .throw hcrash fun status hsome => hcarries status (hstatus ▸ hsome)

theorem alike_whileRounds {test : Node} {body : List Node} (htest : test.height ≤ height)
    (hbody : Node.heights body ≤ height) (limit rounds : Nat) {last : Int}
    (hlast : terms.statuses last) :
    Alike terms level terms.statuses (whileRounds parts test body limit rounds last)
      (whileRounds others test body limit rounds last) := by
  have hended : ∀ dialect {test body : Int}, terms.statuses test → terms.statuses body →
      terms.statuses (endedStatus dialect test body) := by
    intro dialect test body htest hbody
    cases dialect with
    | embedded => exact htest
    | standalone => exact hbody
  induction rounds generalizing last with
  | zero =>
      refine (hparts.execute test htest).bind fun status hstatus => ?_
      exact .ite (.get_bind fun _ _ => .pure (hended _ hstatus hlast)) (.fail (by simp) rfl)
  | succ rounds ih =>
      refine (hparts.execute test htest).bind fun status hstatus =>
        .ite (.get_bind fun _ _ => .pure (hended _ hstatus hlast)) ?_
      refine (alike_executeAll hparts hbody).attempt_bind (fun result hresult hcarries => ?_)
        fun final hfinal => .crashed hfinal
      cases result with
      | ok last => exact ih hcarries
      | error interruption =>
          dsimp only
          split
          · exact .pure (terms.status_of_nat (by decide))
          · exact ih hlast
          · rename_i raised hpass
            exact alike_pass hpass hresult hcarries

theorem alike_forRounds (name : String) {body : List Node}
    (hbody : Node.heights body ≤ height) (limit rounds : Nat) {status : Int}
    (hstatus : terms.statuses status) (values : List String) :
    Alike terms level terms.statuses (forRounds parts name body limit rounds status values)
      (forRounds others name body limit rounds status values) := by
  induction values generalizing rounds status with
  | nil =>
      rw [forRounds, forRounds]
      exact .pure hstatus
  | cons value values ih =>
      cases rounds with
      | zero => exact .fail (by simp) rfl
      | succ rounds =>
          refine (Alike.set name value).andThen fun _ => ?_
          refine (alike_executeAll hparts hbody).attempt_bind (fun result hresult hcarries => ?_)
            fun final hfinal => .crashed hfinal
          cases result with
          | ok status => exact ih _ hcarries
          | error interruption =>
              dsimp only
              split
              · exact .pure (terms.status_of_nat (by decide))
              · exact .state_bind fun _ hstate => ih _ hstate
              · rename_i raised hpass
                exact alike_pass hpass hresult hcarries

theorem alike_runFor (name : String) {words body : List Node} (hwords : Node.heights words ≤ height)
    (hbody : Node.heights body ≤ height) :
    Alike terms level terms.statuses (runFor parts name words body)
      (runFor others name words body) := by
  refine .ite (.fail (by simp) rfl) ((alike_expandWords hparts hwords).andThen fun values => ?_)
  exact alike_inLoop (.get_bind fun _ _ =>
    alike_forRounds hparts name hbody _ _ (terms.status_of_nat (by decide)) values)

/-! ## All statements -/

/-- The parts agree whether the statuses of substitutions are settled or not. -/
theorem alike_executeNode (hsettled : parts.Agrees terms.settled level height others)
    {executor : Executor} (hexecutor : executor.Supports terms)
    {call call' : Node → Action Int}
    (hcall : level.callDepth < level.limits.callDepth → ∀ body,
      Alike terms.settled level.deeper terms.statuses (call body) (call' body))
    {node : Node} (h : node.height ≤ height + 1) :
    Alike terms level terms.statuses (executeNode executor call parts node)
      (executeNode executor call' others node) := by
  refine alike_recording ?_
  cases node with
  | command args background =>
      rw [Node.height] at h
      exact alike_runCommand hsettled hexecutor hcall (by omega) background
  | subshell body =>
      rw [Node.height] at h
      exact alike_inSubshell (alike_executeAll hparts (by omega)) fun _ hshell => hshell
  | group body =>
      rw [Node.height] at h
      exact alike_executeAll hparts (by omega)
  | conditional test body elifs otherwise =>
      rw [Node.height] at h
      refine alike_runBranches hparts (Branch.forall_mem_cons.mpr ⟨by omega, fun t b hb => ?_⟩)
        (by omega) (terms.status_of_nat (by decide))
      exact Nat.le_trans (Branch.height_le hb) (by omega)
  | whileLoop test body =>
      rw [Node.height] at h
      exact alike_inLoop (.get_bind fun _ _ => alike_whileRounds hparts (by omega) (by omega) _ _
        (terms.status_of_nat (by decide)))
  | forLoop name words body =>
      rw [Node.height] at h
      exact alike_runFor hparts name (by omega) (by omega)
  | choice subject arms =>
      rw [Node.height] at h
      have hsubject := Node.heights_fragments subject
      exact (alike_expandSingle hparts (by omega)).andThen fun text =>
        alike_runArms hparts text (by omega)
  | binary op left right =>
      rw [Node.height] at h
      exact alike_runBinary hparts (by omega) (by omega)
  | function name body =>
      exact Alike.andThen (.modifyState (fun _ => rfl) fun _ hstatus => hstatus) fun _ =>
        .pure (terms.status_of_nat (by decide))
  | _ => exact .fail (by simp) rfl

end

end

end Conch
