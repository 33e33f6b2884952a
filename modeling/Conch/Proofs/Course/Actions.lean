import Conch.Proofs.Job.Ledgers
import Conch.Proofs.Shell.Loops

/-!
# Courses of a shell

A course says how a shell may change along the exchanges of a run.  It holds of an action
if every finished run follows it, one that a crash ends included; unlike a contract it
relies on nothing that is taken back afterwards.  What an execution changes comes down to
few things: adjustments of the shell in place, operations on its jobs, and function calls,
which a crash leaves open.  A course that has these holds of every statement.
-/

namespace Conch

open Syntax (Node Branch Arm)

namespace Shell

/-- The jobs and the number of open calls are the same, and parameters were at most shifted away. -/
structure Adjusted (shell final : Shell) : Prop where
  jobs : final.jobs = shell.jobs
  callDepth : final.state.callDepth = shell.state.callDepth
  positional : final.state.positional <:+ shell.state.positional

theorem Adjusted.refl (shell : Shell) : shell.Adjusted shell := ⟨rfl, rfl, List.suffix_rfl⟩

/-- A change of the state that leaves no scope. -/
theorem Adjusted.ofFrame {shell final : Shell} (hjobs : final.jobs = shell.jobs)
    (h : shell.state.Frame final.state) : shell.Adjusted final :=
  ⟨hjobs, h.callDepth, by simp [h.positional]⟩

/-- Inside a function. -/
def called (shell : Shell) (args : List String) : Shell :=
  { shell with state := { shell.state with
      positional := args
      callDepth := shell.state.callDepth + 1 } }

/-- Back from a function. -/
def returned (shell : Shell) (outer : List String) : Shell :=
  { shell with state := { shell.state with
      positional := outer
      callDepth := shell.state.callDepth - 1 } }

end Shell

structure Course where
  leads : Shell → List Exchange → Shell → Prop
  trans : ∀ {first second third log rest}, leads first log second → leads second rest third →
    leads first (log ++ rest) third
  adjusts : ∀ {shell final} log, shell.Adjusted final → leads shell log final
  works : ∀ {shell log} {operation : JobTable.Operation TaskId},
    operation.Logged shell.jobs log →
      leads shell log { shell with jobs := (operation.apply shell.jobs).2 }
  /-- A call that is still open. -/
  calls : ∀ {shell inside log args}, leads (shell.called args) log inside → leads shell log inside
  returns : ∀ {shell inside log args}, leads (shell.called args) log inside →
    leads shell log (inside.returned shell.state.positional)

namespace Course

open JobTable (Operation)

/-- Every finished run of the action in this shell follows the course, however it ends. -/
def HoldsAt (course : Course) (shell : Shell) {α : Type} (body : Action α) : Prop :=
  ∀ log result final, Acts body shell log (result, final) → course.leads shell log final

def Holds (course : Course) {α : Type} (body : Action α) : Prop :=
  ∀ shell, course.HoldsAt shell body

variable {course : Course} {α β : Type} {body : Action α}

/-- What follows a change in place. -/
theorem after {shell next final : Shell} {log : List Exchange} (h : shell.Adjusted next)
    (hrest : course.leads next log final) : course.leads shell log final :=
  course.trans (course.adjusts [] h) hrest

namespace HoldsAt

variable {shell : Shell}

theorem get_bind {rest : Shell → Action β} (h : course.HoldsAt shell (rest shell)) :
    course.HoldsAt shell (get >>= rest) := h

theorem state_bind {rest : State → Action β} (h : course.HoldsAt shell (rest shell.state)) :
    course.HoldsAt shell (Action.state >>= rest) := h

theorem modify_bind {f : Shell → Shell} {rest : PUnit → Action β}
    (h : shell.Adjusted (f shell)) (hrest : course.HoldsAt (f shell) (rest ())) :
    course.HoldsAt shell (modify f >>= rest) :=
  fun log result final hacts => after h (hrest log result final hacts)

theorem bind {rest : α → Action β} (hbody : course.HoldsAt shell body)
    (hrest : ∀ a, course.Holds (rest a)) : course.HoldsAt shell (body >>= rest) := by
  intro log result final hacts
  rcases acts_bind.mp hacts with
    ⟨e, next, hx, hfirst⟩ | ⟨a, next, first, later, rfl, hfirst, hlater⟩
  · cases hx
    exact hbody _ _ _ hfirst
  · exact course.trans (hbody _ _ _ hfirst) (hrest a _ _ _ _ hlater)

/-- What follows a program that knows nothing of the shell. -/
theorem ofProc_bind {p : Proc α} {rest : α → Action β}
    (h : ∀ log a, p.Runs log a → course.HoldsAt shell (rest a)) :
    course.HoldsAt shell (Action.ofProc (p.bind fun a => .done (.ok a)) >>= rest) := by
  intro log result final hacts
  have hrun : Acts (Action.ofProc (p.bind fun a => .done (.ok a)) >>= rest) shell log
      (result, final) ↔ (((p.bind fun a => .done (Except.ok a)).bind fun x =>
        .done (x, shell)).bind fun x => (ExceptT.bindCont rest x.1).run x.2).Runs log
          (result, final) := Iff.rfl
  rw [hrun, Proc.bind_assoc, Proc.bind_assoc, Proc.runs_bind] at hacts
  obtain ⟨a, first, later, rfl, hfirst, hlater⟩ := hacts
  exact course.trans (course.adjusts first (.refl shell)) (h first a hfirst _ _ _ hlater)

theorem attempt_bind {rest : Except Interruption α → Action β} (hbody : course.HoldsAt shell body)
    (hrest : ∀ result, course.Holds (rest result)) :
    course.HoldsAt shell (body.attempt >>= rest) := by
  intro log result final hacts
  obtain ⟨first, next, _, _, rfl, hfirst, hlater⟩ := acts_attempt_bind.mp hacts
  exact course.trans (hbody _ _ _ hfirst) (hrest first _ _ _ _ hlater)

/-- What is taken back may as well be left as it is, as after a crash. -/
theorem ensuring {leave : Shell → Shell} (hbody : course.HoldsAt shell body)
    (hleave : ∀ inside : Shell, inside.Adjusted (leave inside)) :
    course.HoldsAt shell (Action.ensuring leave body) := by
  intro log result final hacts
  rcases acts_ensuring.mp hacts with ⟨inside, hinside, hx⟩ | ⟨result, inside, _, hinside, hx⟩
  · cases hx
    exact hbody _ _ _ hinside
  · cases hx
    have hended := course.trans (hbody _ _ _ hinside) (course.adjusts [] (hleave inside))
    rwa [List.append_nil] at hended

end HoldsAt

namespace Holds

theorem pure (a : α) : course.Holds (Pure.pure a) := by
  intro shell log result final hacts
  obtain ⟨rfl, hx⟩ := acts_pure.mp hacts
  cases hx
  exact course.adjusts _ (.refl shell)

theorem throw (interruption : Interruption) :
    course.Holds (MonadExcept.throw interruption : Action α) := by
  intro shell log result final hacts
  obtain ⟨rfl, hx⟩ := acts_throw.mp hacts
  cases hx
  exact course.adjusts _ (.refl shell)

theorem bind {rest : α → Action β} (hbody : course.Holds body)
    (hrest : ∀ a, course.Holds (rest a)) : course.Holds (body >>= rest) :=
  fun shell => (hbody shell).bind hrest

theorem get_bind {rest : Shell → Action β} (h : ∀ shell, course.Holds (rest shell)) :
    course.Holds (get >>= rest) := fun shell => h shell shell

theorem state_bind {rest : State → Action β} (h : ∀ state, course.Holds (rest state)) :
    course.Holds (Action.state >>= rest) := fun shell => h shell.state shell

theorem modify {f : Shell → Shell} (h : ∀ shell : Shell, shell.Adjusted (f shell)) :
    course.Holds (modify f : Action PUnit) := by
  intro shell log result final hacts
  obtain ⟨rfl, hx⟩ : log = [] ∧ (result, final) = (.ok (), f shell) := hacts
  cases hx
  exact course.adjusts _ (h shell)

theorem modifyState {f : State → State} (h : ∀ state : State, state.Frame (f state)) :
    course.Holds (Action.modifyState f) := modify fun shell => .ofFrame rfl (h shell.state)

theorem set (name value : String) : course.Holds (Action.modifyState (·.set name value)) :=
  modifyState fun _ => ⟨rfl, rfl, rfl, rfl⟩

/-- A program that knows nothing of the shell. -/
theorem lift (p : Proc α) : course.Holds (liftM p : Action α) := by
  intro shell log result final hacts
  obtain ⟨a, _, hx⟩ := acts_lift.mp hacts
  cases hx
  exact course.adjusts _ (.refl shell)

theorem ofProc (p : Proc (Except Interruption α)) : course.Holds (Action.ofProc p) := by
  intro shell log result final hacts
  obtain ⟨a, first, rest, rfl, _, rfl, hx⟩ := Proc.runs_bind.mp hacts
  cases hx
  exact course.adjusts _ (.refl shell)

theorem request (r : Request) : course.Holds (Action.request r) := by
  intro shell log result final hacts
  obtain ⟨reply, _, rfl, rfl, hx⟩ := hacts
  cases hx
  exact course.adjusts _ (.refl shell)

theorem discard (h : course.Holds body) : course.Holds (Functor.discard body : Action PUnit) := by
  intro shell log result final hacts
  obtain ⟨inner, next, hbody, hx⟩ := acts_discard.mp hacts
  cases hx
  exact h _ _ _ _ hbody

theorem attempt_bind {rest : Except Interruption α → Action β} (hbody : course.Holds body)
    (hrest : ∀ result, course.Holds (rest result)) : course.Holds (body.attempt >>= rest) :=
  fun shell => (hbody shell).attempt_bind hrest

/-- What becomes of a copy does not reach the shell. -/
theorem onCopy (change : Shell → Shell) (body : Action α) :
    course.Holds (Action.onCopy change body) := by
  intro shell log result final hacts
  obtain ⟨r, copy, _, hx⟩ := acts_onCopy.mp hacts
  cases hx
  exact course.adjusts _ (.refl shell)

/-! ### Lists -/

theorem foldlM {f : β → α → Action β} (h : ∀ acc a, course.Holds (f acc a)) (items : List α)
    (start : β) : course.Holds (items.foldlM f start) := by
  induction items generalizing start with
  | nil => exact pure start
  | cons a items ih =>
      rw [List.foldlM_cons]
      exact (h start a).bind ih

theorem mapM {f : α → Action β} (h : ∀ a, course.Holds (f a)) (items : List α) :
    course.Holds (items.mapM f) := by
  induction items with
  | nil => exact pure []
  | cons a items ih =>
      rw [List.mapM_cons]
      exact (h a).bind fun b => ih.bind fun rest => pure (b :: rest)

theorem flatMapM {f : α → Action (List β)} (h : ∀ a, course.Holds (f a)) (items : List α) :
    course.Holds (items.flatMapM f) := by
  induction items with
  | nil => exact pure []
  | cons a items ih =>
      rw [List.flatMapM_cons]
      exact (h a).bind fun b => ih.bind fun rest => pure (b ++ rest)

theorem forM {f : α → Action PUnit} (h : ∀ a, course.Holds (f a)) (items : List α) :
    course.Holds (items.forM f) := by
  induction items with
  | nil => exact pure ()
  | cons a items ih => exact (h a).bind fun _ => ih

/-! ### Output -/

theorem writeOutput (text : String) : course.Holds (Action.writeOutput text) :=
  .get_bind fun _ => .ofProc _

theorem writeErrors (text : String) : course.Holds (Action.writeErrors text) :=
  .get_bind fun _ => .ofProc _

theorem emit (completion : Completion) : course.Holds (Action.emit completion) :=
  (writeOutput _).bind fun _ => (writeErrors _).bind fun _ => .pure _

/-! ### Jobs -/

theorem waitFor (id : Nat) : course.Holds (Action.waitFor id) := by
  intro shell log result final hacts
  have hwait := acts_waitFor.mp hacts
  have hentry : ∀ log, (Operation.wait id).Logged shell.jobs log → course.leads shell log
      { shell with jobs := ((Operation.wait id).apply shell.jobs).2 } := fun _ => course.works
  simp only [Operation.Logged, Operation.apply] at hentry
  cases htake : shell.jobs.take? id with
  | none =>
      rw [htake] at hwait
      obtain ⟨rfl, hx⟩ := hwait
      cases hx
      exact course.adjusts _ (.refl shell)
  | some taken =>
      obtain ⟨job, left⟩ := taken
      rw [htake] at hwait hentry
      obtain ⟨outcome, rfl, hx⟩ := hwait
      cases hx
      exact hentry _ ⟨outcome, [], rfl, rfl⟩

theorem waitForAll : course.Holds Action.waitForAll := by
  intro shell log result final hacts
  obtain ⟨hjoined, rfl⟩ := joined_of_forM hacts
  have hlogged : Operation.waitAll.Logged shell.jobs log := hjoined
  exact course.works hlogged

theorem jobStates : course.Holds Action.jobStates := by
  intro shell log result final hacts
  obtain ⟨rfl, _⟩ := asked_of_jobStates hacts
  exact course.adjusts _ (.refl _)

theorem reapJobs : course.Holds Action.reapJobs := by
  intro shell log result final hacts
  obtain ⟨finished, hlogged, _, rfl⟩ := logged_of_reapJobs hacts
  exact course.works hlogged

/-! ### Builtins -/

theorem onState (run : State → Completion × State)
    (h : ∀ state : State, state.Scope False [] (run state).2) :
    course.Holds (Action.onState run) := fun shell =>
  .modify_bind ⟨rfl, (h shell.state).callDepth, (h shell.state).positional⟩ (emit _ _)

theorem onEffect (effect : State → Builtin.Effect) :
    course.Holds (do Action.onEffect (effect (← Action.state))) := by
  refine .state_bind fun state => ?_
  cases effect state with
  | ok completion => exact emit completion
  | error interruption => exact .throw interruption

theorem runCd (args : List String) : course.Holds (Builtin.cd.run args) := fun shell =>
  .ofProc_bind fun _ _ hruns => .modify_bind
    (.ofFrame rfl ((Builtin.runCd_returns shell.state args).of_runs hruns)) (emit _ _)

theorem runJobs : course.Holds Builtin.runJobs :=
  jobStates.bind fun _ => reapJobs.bind fun _ => emit _

theorem waitOne (reached : Completion) (arg : String) :
    course.Holds (Builtin.waitOne reached arg) := by
  unfold Builtin.waitOne
  dsimp only
  split
  · refine (waitFor _).bind fun status => ?_
    cases status <;> exact .pure _
  · exact .pure _

theorem runWait (args : List String) : course.Holds (Builtin.runWait args) := by
  unfold Builtin.runWait
  split
  · exact waitForAll.bind fun _ => .pure _
  · exact (foldlM waitOne args _).bind fun _ => emit _

theorem runRead (args : List String) : course.Holds (Builtin.runRead args) := by
  refine .get_bind fun shell => ?_
  dsimp only
  split
  · exact (Holds.pure []).bind fun bytes => .state_bind fun state =>
      (forM (fun _ => set _ _) _).bind fun _ => .pure _
  · exact (ofProc _).bind fun bytes => .state_bind fun state =>
      (forM (fun _ => set _ _) _).bind fun _ => .pure _

theorem builtin (builtin : Builtin) (args : List String) : course.Holds (builtin.run args) := by
  cases builtin with
  | colon => exact emit _
  | trueStatus => exact emit _
  | falseStatus => exact emit _
  | echo => exact emit _
  | echoEscaped => exact emit _
  | pwd => exact .state_bind fun _ => emit _
  | cd => exact runCd args
  | exportNames =>
      exact onState (Builtin.runExport · args) fun state =>
        (Builtin.runExport_frame state args).scope
  | unset => exact onState (Builtin.runUnset · args) (Builtin.runUnset_scope · args)
  | shift => exact onState (Builtin.runShift · args) (Builtin.runShift_scope · args)
  | breakLoop => exact onEffect (Builtin.runBreak · args)
  | continueLoop => exact onEffect (Builtin.runContinue · args)
  | returnStatus => exact onEffect (Builtin.runReturn · args)
  | kill => exact onEffect (Builtin.runKill · args)
  | exitShell =>
      exact .state_bind fun _ => (writeErrors _).bind fun _ =>
        Holds.bind (modifyState fun _ => ⟨rfl, rfl, rfl, rfl⟩) fun _ => .throw _
  | jobs => exact runJobs
  | wait => exact runWait args
  | read => exact runRead args

end Holds

end Course

end Conch
