import Conch.Proofs.Agreement.Words
import Conch.Proofs.Shell.Invocations

/-!
# Builtins run alike

The statuses of builtins are small, or written in their arguments and reduced modulo 256,
or those of the shell and of its jobs; only `kill` makes others.
-/

namespace Conch

/-! ## Statuses -/

namespace State

@[simp] theorem set_status (state : State) (name value : String) :
    (state.set name value).status = state.status := rfl

@[simp] theorem unexportName_status (state : State) (name : String) :
    (state.unexportName name).status = state.status := rfl

@[simp] theorem exportName_status (state : State) (name : String) :
    (state.exportName name).status = state.status := by
  unfold exportName
  split <;> rfl

end State

namespace Builtin

theorem exportOne_status (unexport : Bool) (reached : State × String) (arg : String) :
    (exportOne unexport reached arg).1.status = reached.1.status := by
  unfold exportOne
  rcases splitAssignment arg with ⟨name, value⟩
  dsimp only
  split
  · rfl
  · cases value with
    | none => cases unexport <;> simp
    | some value => cases unexport <;> simp

theorem runExport_status (state : State) (args : List String) :
    (runExport state args).2.status = state.status := by
  have hfold : ∀ (names : List String) (reached : State × String),
      (names.foldl (exportOne (args.contains "-n")) reached).1.status = reached.1.status := by
    intro names
    induction names with
    | nil => exact fun _ => rfl
    | cons name names ih => exact fun reached => (ih _).trans (exportOne_status _ reached name)
  unfold runExport
  dsimp only
  split
  · rfl
  · exact hfold _ (state, "")

theorem unsetOne_status (mode : UnsetMode) (state : State) (errors arg : String) :
    (unsetOne mode state errors arg).1.status = state.status := by
  unfold unsetOne
  split
  · rfl
  split
  · rfl
  split <;> rfl

theorem unsetFrom_status (mode : UnsetMode) (state : State) (errors : String) (args : List String) :
    (unsetFrom mode state errors args).1.status = state.status := by
  fun_induction unsetFrom mode state errors args with
  | case1 mode state errors => rfl
  | case2 _ _ _ _ ih => exact ih
  | case3 _ _ _ _ ih => exact ih
  | case4 mode state errors arg args _ _ state' errors' hone ih =>
      have hstatus := unsetOne_status mode state errors arg
      rw [hone] at hstatus
      exact ih.trans hstatus

theorem runShift_status (state : State) (args : List String) :
    (runShift state args).2.status = state.status := by
  unfold runShift
  dsimp only
  split
  · rfl
  · split <;> rfl

theorem statusOf?_range {arg : String} {status : Int} (h : statusOf? arg = some status) :
    0 ≤ status ∧ status < 256 := by
  unfold statusOf? at h
  split at h
  · cases h
  · obtain ⟨n, _, rfl⟩ := Option.map_eq_some_iff.mp h
    omega

theorem loopLevels_failed {name : String} {args : List String} {completion : Completion}
    (h : loopLevels name args = .error completion) : completion.status = 1 := by
  unfold loopLevels at h
  split at h
  · cases h
  · split at h
    · cases h
    · cases h
      rfl
  · cases h
    rfl

end Builtin

section

variable {terms : Terms}

theorem carries_of_all {α : Type} {Q : α → Prop} (hall : ∀ status, terms.statuses status)
    (hQ : ∀ a, Q a) (result : Except Interruption α) : Carries terms.statuses Q result := by
  cases result with
  | ok a => exact hQ a
  | error interruption => exact fun status _ => hall status

/-- The completion has such a status. -/
def Terms.completes (terms : Terms) (completion : Completion) : Prop :=
  terms.statuses completion.status

theorem Terms.completes_ok : terms.completes .ok := terms.status_of_nat (by decide)

theorem Terms.completes_success (output : String) : terms.completes (.success output) :=
  terms.status_of_nat (by decide)

theorem Terms.completes_failure (errors : String) : terms.completes (.failure errors) :=
  terms.status_of_nat (by decide)

namespace Builtin

theorem completes_completionOf (errors : String) : terms.completes (completionOf errors) := by
  unfold completionOf
  split
  · exact terms.completes_ok
  · exact terms.completes_failure errors

theorem completes_runExport (state : State) (args : List String) :
    terms.completes (runExport state args).1 := by
  unfold runExport
  dsimp only
  split
  · exact terms.completes_success _
  · exact completes_completionOf _

theorem completes_runShift (state : State) (args : List String) :
    terms.completes (runShift state args).1 := by
  unfold runShift
  dsimp only
  split
  · exact terms.completes_failure _
  · split
    · exact terms.completes_failure _
    · exact terms.completes_ok

/-- Control flow of loops carries no status. -/
theorem carries_leaveLoops (builtin : Builtin) {interruption : Nat → Interruption}
    (hnone : ∀ levels, (interruption levels).status? = none) (state : State) (args : List String) :
    Carries terms.statuses terms.completes (leaveLoops builtin interruption state args) := by
  unfold leaveLoops
  split
  · exact terms.completes_ok
  split
  · exact fun status hsome => by simp [hnone] at hsome
  · rename_i completion hfailed
    have hone : completion.status = 1 := loopLevels_failed hfailed
    change terms.statuses completion.status
    rw [hone]
    exact terms.status_of_nat (by decide)

theorem status_of_statusOf? {arg : String} {status : Int} (h : statusOf? arg = some status) :
    terms.statuses status :=
  terms.bytes status (statusOf?_range h).1 (statusOf?_range h).2

theorem carries_runReturn {state : State} (h : terms.statuses state.status) (args : List String) :
    Carries terms.statuses terms.completes (runReturn state args) := by
  unfold runReturn
  split
  · exact terms.completes_failure _
  cases args with
  | nil =>
      rintro status ⟨⟩
      exact h
  | cons arg rest =>
      dsimp only
      split
      · rename_i reached hreached
        rintro status ⟨⟩
        exact status_of_statusOf? hreached
      · exact terms.status_of_nat (by decide)

theorem status_exitStatus {state : State} (h : terms.statuses state.status) (args : List String) :
    terms.statuses (exitStatus state args).1 := by
  cases args with
  | nil => exact h
  | cons arg rest =>
      dsimp only [exitStatus]
      split
      · rename_i reached hreached
        exact status_of_statusOf? hreached
      · exact terms.status_of_nat (by decide)

theorem runCd_asks (state : State) (args : List String) : (runCd state args).Asks := by
  unfold runCd
  generalize directoryOptions false args = options
  obtain ⟨physical, rest⟩ := options
  dsimp only
  split
  · exact .done _
  · refine .ask ?_
    rintro (_ | ⟨_ | _, _⟩)
    · exact .done _
    · exact .done _
    · cases physical with
      | false => exact .done _
      | true => exact .ask fun canonical => .done _

theorem runCd_ends (state : State) (args : List String) :
    (runCd state args).Returns fun x => terms.completes x.1 ∧
      x.2.callDepth = state.callDepth ∧ x.2.status = state.status := by
  have hmoved : ∀ (isWritten : Bool) (output : String) (next : State),
      next.callDepth = state.callDepth ∧ next.status = state.status →
      terms.completes (if isWritten then .success output else .ok) ∧
        next.callDepth = state.callDepth ∧ next.status = state.status := by
    intro isWritten output next hnext
    cases isWritten with
    | false => exact ⟨terms.completes_ok, hnext⟩
    | true => exact ⟨terms.completes_success output, hnext⟩
  unfold runCd
  generalize directoryOptions false args = options
  obtain ⟨physical, rest⟩ := options
  dsimp only
  split
  · exact ⟨terms.completes_failure _, rfl, rfl⟩
  · rintro (_ | ⟨_ | _, _⟩)
    · exact ⟨terms.completes_failure _, rfl, rfl⟩
    · exact ⟨terms.completes_failure _, rfl, rfl⟩
    · cases physical with
      | false => exact hmoved _ _ _ ⟨rfl, rfl⟩
      | true => exact fun canonical => hmoved _ _ _ ⟨rfl, rfl⟩

end Builtin

/-! ## Running them -/

variable {level : Level}

theorem alike_emit {completion : Completion} (h : terms.completes completion) :
    Alike terms level terms.statuses (Action.emit completion) (Action.emit completion) :=
  (alike_writeOutput _).andThen fun _ => (alike_writeErrors _).andThen fun _ => .pure h

theorem alike_onState {run : State → Completion × State}
    (hdepth : ∀ state, (run state).2.callDepth = state.callDepth)
    (hstatus : ∀ state, (run state).2.status = state.status)
    (hcompletes : ∀ state, terms.completes (run state).1) :
    Alike terms level terms.statuses (Action.onState run) (Action.onState run) := by
  intro shell hshell
  refine alike_emit (hcompletes shell.state) { shell with state := (run shell.state).2 } ⟨?_, ?_⟩
  · rw [← hshell.level, Shell.level, Shell.level, hdepth]
  · exact hshell.holds.congr (by simp only [hstatus])

theorem alike_onEffect {effect : Builtin.Effect} (h : effect ≠ .error .crash)
    (hcarries : Carries terms.statuses terms.completes effect) :
    Alike terms level terms.statuses (Action.onEffect effect) (Action.onEffect effect) := by
  cases effect with
  | ok completion => exact alike_emit hcarries
  | error interruption => exact .throw (by simpa using h) hcarries

/-- A task that keeps the promise has such a status. -/
theorem Terms.status_of_promise {outcome : Outcome} (h : terms.promise outcome) :
    terms.statuses outcome.status := by
  have hfailed : terms.statuses 1 := terms.status_of_nat (by decide)
  cases outcome with
  | shell result state =>
      cases result with
      | ok status => exact h.1
      | error interruption => exact hfailed
  | total result => exact hfailed
  | leftover bytes => exact hfailed

theorem alike_joinStatus (task : TaskId) :
    Alike terms level terms.statuses (Action.joinStatus task) (Action.joinStatus task) :=
  (Alike.request (.join task)).bind fun _ hjoined => .pure (terms.status_of_promise hjoined)

theorem alike_jobStates : Alike terms level anything Action.jobStates Action.jobStates :=
  .get_bind fun _ _ => .mapM _ fun _ _ => .request_bind _ fun _ => .pure trivial

theorem alike_reapJobs : Alike terms level anything Action.reapJobs Action.reapJobs :=
  alike_jobStates.andThen fun _ => .modify fun _ hshell => ⟨hshell.level, hshell.holds.congr rfl⟩

theorem alike_runJobs : Alike terms level terms.statuses Builtin.runJobs Builtin.runJobs :=
  alike_jobStates.andThen fun _ => alike_reapJobs.andThen fun _ =>
    alike_emit (terms.completes_success _)

theorem alike_waitFor (id : Nat) :
    Alike terms level (fun found => ∀ status, found = some status → terms.statuses status)
      (Action.waitFor id) (Action.waitFor id) := by
  refine .get_bind fun shell _ => ?_
  split
  · exact .pure fun _ hnone => nomatch hnone
  · refine Alike.andThen (.modify fun shell hshell => ?_) fun _ =>
      (alike_joinStatus _).bind fun status hstatus => .pure ?_
    · exact ⟨hshell.level, hshell.holds.congr rfl⟩
    · rintro _ ⟨⟩
      exact hstatus

theorem alike_waitOne (reached : Completion) (arg : String) :
    Alike terms level terms.completes (Builtin.waitOne reached arg)
      (Builtin.waitOne reached arg) := by
  have hnone : ∀ errors, terms.completes ⟨"", errors, 127⟩ := fun _ =>
    terms.status_of_nat (by decide)
  unfold Builtin.waitOne
  dsimp only
  split
  · refine (alike_waitFor _).bind fun status hstatus => ?_
    cases status with
    | none => exact .pure (hnone _)
    | some status => exact .pure (hstatus status rfl)
  · exact .pure (hnone _)

theorem alike_runWait (args : List String) :
    Alike terms level terms.statuses (Builtin.runWait args) (Builtin.runWait args) := by
  refine .ite ?_ ?_
  · refine Alike.andThen (.get_bind fun shell _ => ?_) fun _ =>
      .pure (terms.status_of_nat (by decide))
    rcases shell.jobs.takeAll with ⟨jobs, table⟩
    refine Alike.andThen (.modify fun shell hshell => ?_) fun _ =>
      .forM jobs fun job _ => (alike_joinStatus job.handle).discard
    exact ⟨hshell.level, hshell.holds.congr rfl⟩
  · exact (Alike.foldlM args (fun reached _ arg _ => alike_waitOne reached arg)
      terms.completes_ok).bind fun _ hreached => alike_emit hreached

theorem alike_runCd (args : List String) :
    Alike terms level terms.statuses (Builtin.run .cd args) (Builtin.run .cd args) := by
  intro shell hshell
  have hrun : Builtin.run .cd args shell = (Builtin.runCd shell.state args).bind fun x =>
      Action.emit x.1 { shell with state := x.2 } := by
    change Proc.bind (Proc.bind (Proc.bind (Builtin.runCd shell.state args) _) _) _ = _
    rw [Proc.bind_assoc, Proc.bind_assoc]
    rfl
  rw [hrun]
  refine .after (Builtin.runCd_asks shell.state args) (Builtin.runCd_ends shell.state args)
    fun x ⟨hcompletes, hdepth, hstatus⟩ => alike_emit hcompletes _ ⟨?_, ?_⟩
  · rw [← hshell.level, Shell.level, Shell.level, hdepth]
  · exact hshell.holds.congr (by simp only [hstatus])

theorem alike_runExit (args : List String) :
    Alike terms level terms.statuses (Builtin.runExit args) (Builtin.runExit args) := by
  refine .state_bind fun state hstate => (alike_writeErrors _).andThen fun _ => ?_
  have hexit := Builtin.status_exitStatus hstate args
  refine Alike.andThen (.modifyState (fun _ => rfl) fun _ _ => hexit) fun _ => .throw (by simp) ?_
  rintro _ ⟨⟩
  exact hexit

theorem Builtin.readLine_accord (h : ¬terms.ends) (isRaw : Bool) (input : InputId) :
    (readLine isRaw input).Accord terms anything (readLine isRaw input) := by
  refine ⟨Proc.Asks.repeatFrom_keeps (fun read => ?_) _, fun _ => ⟨rfl, Proc.Returns.trivial _⟩,
    fun hends => absurd hends h⟩
  refine (Proc.Asks.request _).andThen fun reply => ?_
  split
  · exact .done _
  · exact .done _
  · split
    · exact .done _
    · split <;> exact .done _

theorem alike_runRead (args : List String) (h : ¬terms.ends) :
    Alike terms level terms.statuses (Builtin.runRead args) (Builtin.runRead args) := by
  have hstatus : ∀ (c : Prop) [Decidable c], terms.statuses (if c then 0 else 1) := by
    intro c _
    split <;> exact terms.status_of_nat (by decide)
  refine .get_bind fun shell _ => ?_
  dsimp only
  split
  · refine (Alike.pure trivial).andThen fun bytes => .state_bind fun state _ => ?_
    exact (Alike.forM _ fun x _ => .set x.1 x.2).andThen fun _ => .pure (hstatus _)
  · refine Alike.andThen (.ofProc ?_ fun log hruns => ?_) fun bytes =>
      .state_bind fun state _ => (Alike.forM _ fun x _ => .set x.1 x.2).andThen fun _ =>
        .pure (hstatus _)
    · refine (Builtin.readLine_accord h _ _).bind fun result _ => .done ?_
      cases result with
      | ok bytes => trivial
      | error e => exact fun status hnone => nomatch hnone
    · obtain ⟨result, _, _, _, _, _, hx⟩ := Proc.runs_bind.mp hruns
      cases result <;> cases hx

theorem alike_builtin (builtin : Builtin) (args : List String)
    (hread : terms.ends → builtin ≠ .read)
    (hkill : builtin = .kill → ∀ status, terms.statuses status) :
    Alike terms level terms.statuses (builtin.run args) (builtin.run args) := by
  cases builtin with
  | colon => exact alike_emit terms.completes_ok
  | trueStatus => exact alike_emit terms.completes_ok
  | falseStatus => exact alike_emit (terms.completes_failure "")
  | echo => exact alike_emit (terms.completes_success _)
  | echoEscaped => exact alike_emit (terms.completes_success _)
  | pwd => exact .state_bind fun _ _ => alike_emit (terms.completes_success _)
  | cd => exact alike_runCd args
  | exportNames =>
      exact alike_onState (fun state => (Builtin.runExport_frame state args).callDepth)
        (fun state => Builtin.runExport_status state args)
        fun state => Builtin.completes_runExport state args
  | unset =>
      have hscope : ∀ state : State, state.Scope False [] (Builtin.runUnset state args).2 :=
        fun state => Builtin.runUnset_scope state args
      change Alike terms level terms.statuses (Action.onState (Builtin.runUnset · args))
        (Action.onState (Builtin.runUnset · args))
      exact alike_onState (fun state => (hscope state).callDepth)
        (fun state => Builtin.unsetFrom_status .either state "" args)
        fun state => Builtin.completes_completionOf _
  | shift =>
      have hscope : ∀ state : State, state.Scope False [] (Builtin.runShift state args).2 :=
        fun state => Builtin.runShift_scope state args
      exact alike_onState (fun state => (hscope state).callDepth)
        (fun state => Builtin.runShift_status state args)
        fun state => Builtin.completes_runShift state args
  | breakLoop =>
      refine .state_bind fun state _ => alike_onEffect (fun hcrash => ?_)
        (Builtin.carries_leaveLoops _ (fun _ => rfl) state args)
      obtain ⟨levels, hlevels, _⟩ := Builtin.leaveLoops_eq_error hcrash
      cases hlevels
  | continueLoop =>
      refine .state_bind fun state _ => alike_onEffect (fun hcrash => ?_)
        (Builtin.carries_leaveLoops _ (fun _ => rfl) state args)
      obtain ⟨levels, hlevels, _⟩ := Builtin.leaveLoops_eq_error hcrash
      cases hlevels
  | returnStatus =>
      refine .state_bind fun state hstate => alike_onEffect (fun hcrash => ?_)
        (Builtin.carries_runReturn hstate args)
      obtain ⟨⟨status, hstatus⟩, _⟩ := Builtin.runReturn_eq_error hcrash
      cases hstatus
  | exitShell => exact alike_runExit args
  | jobs => exact alike_runJobs
  | wait => exact alike_runWait args
  | kill =>
      have hall := hkill rfl
      refine .state_bind fun state _ => alike_onEffect (fun hcrash => ?_)
        (carries_of_all hall (fun _ => hall _) _)
      obtain ⟨status, hstatus⟩ := Builtin.runKill_eq_error hcrash
      cases hstatus
  | read => exact alike_runRead args fun hends => hread hends rfl

end

end Conch
