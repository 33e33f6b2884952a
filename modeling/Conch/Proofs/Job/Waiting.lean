import Conch.Proofs.Job.Bookings
import Conch.Proofs.Shell.Counting
import Conch.Proofs.World.Chronicles
import Conch.Tools.Toolbox

/-!
# Waiting for a job

A job keeps its number and its task in the table of its shell, whatever the shell does in
between, until its status is brought by a `wait` or it is found finished when the finished
jobs are forgotten.  So a `wait` for the number joins that very task, at whatever time it
finished (`Shell.Lives.wait_brings`).  Finished jobs are forgotten between the scripts of a
shell, between the programs of a session and by `jobs`: the status of a job that was
found finished there is lost (`status_lost`).
-/

namespace Conch

open JobTable (Settles Operation)
open Syntax (Node)

/-- The number of the job that an argument names. -/
def Builtin.jobNumber? (arg : String) : Option Nat :=
  Text.word32? (String.ofList (arg.toList.dropWhile (· == '%')))

namespace Shell

/-- Waiting for the argument joins the task, and ends with the status of its outcome. -/
def WaitBrings (shell : Shell) (arg : String) (task : TaskId) : Prop :=
  ∃ left, ∀ log x, Acts (Builtin.wait.run [arg]) shell log x ↔
    ∃ outcome, log = [.asked (.join task) outcome] ∧
      x = (.ok outcome.status, { shell with jobs := left })

/-- Waiting for the argument joins nothing, and ends with 127 unless the complaint cannot be
written. -/
def WaitFails (shell : Shell) (arg : String) : Prop :=
  ∀ log result final, Acts (Builtin.wait.run [arg]) shell log (result, final) →
    final.jobs = shell.jobs ∧ (∀ task outcome, .asked (.join task) outcome ∉ log) ∧
      (result = .ok 127 ∨ ∃ e, result = .error (.stream e))

/-- A stretch of the life of a shell, with its exchanges: statements and words, be they parts of
others, commands, scripts and the rounds of a session. -/
inductive Lives (executor : Executor) : Shell → List Exchange → Shell → Prop where
  | statement {calls height : Nat} {node : Node} {shell final : Shell} {log : List Exchange}
      {result : Except Interruption Int}
      (h : Acts ((evaluator executor (executeWithin executor calls) height).execute node) shell log
        (result, final)) : Lives executor shell log final
  | word {calls height : Nat} {isQuoted : Bool} {node : Node} {fields : Fields}
      {shell final : Shell} {log : List Exchange} {result : Except Interruption Fields}
      (h : Acts ((evaluator executor (executeWithin executor calls) height).expand isQuoted node
        fields) shell log (result, final)) : Lives executor shell log final
  | command {calls : Nat} {arguments : List String} {shell final : Shell} {log : List Exchange}
      {result : Except Interruption Int}
      (h : Acts (invoke executor (executeWithin executor calls) arguments) shell log
        (result, final)) : Lives executor shell log final
  | reset {shell final : Shell} {log : List Exchange} {result : Except Interruption Unit}
      (h : Acts Action.reset shell log (result, final)) : Lives executor shell log final
  | script {text : String} {shell final : Shell} {log : List Exchange} {completion : Completion}
      (h : (Shell.exec executor text shell).Runs log (completion, final)) :
      Lives executor shell log final
  | line {pipes : SessionPipes} {session next : Session} {log : List Exchange}
      {result : Except Interruption Bool}
      (h : Acts (Session.round executor pipes) session log (result, next)) :
      Lives executor session.shell log next.shell
  /-- Whatever leaves the jobs alone. -/
  | aside {shell final : Shell} {log : List Exchange} (h : final.jobs = shell.jobs) :
      Lives executor shell log final
  | trans {first second third : Shell} {log rest : List Exchange}
      (h : Lives executor first log second) (hrest : Lives executor second rest third) :
      Lives executor first (log ++ rest) third

section

variable {executor : Executor} {shell final : Shell} {log : List Exchange}

theorem Lives.ledger (h : Lives executor shell log final) :
    JobTable.Ledger shell.jobs log final.jobs := by
  have hparts : ∀ calls height, (evaluator executor (executeWithin executor calls) height).Follows
      Course.ofJobs := fun calls height =>
    Course.Holds.evaluator executor (.executeWithin executor calls) height
  induction h with
  | statement h => exact Booked.of_course ((hparts _ _).execute _) _ _ _ _ h
  | word h => exact Booked.of_course ((hparts _ _).expand _ _ _) _ _ _ _ h
  | command h => exact Booked.of_course (.invoke (.executeWithin executor _) _) _ _ _ _ h
  | reset h => exact Booked.reset _ _ _ _ h
  | script h => exact ledger_of_exec h
  | line h => exact Session.booked_round executor _ _ _ _ _ h
  | aside h =>
      rw [h]
      exact .aside ..
  | trans _ _ ih ihrest => exact ih.trans ihrest

theorem Lives.sound (h : Lives executor shell log final) (hempty : shell.jobs = .empty) :
    final.jobs.Sound := h.ledger.sound (hempty ▸ .empty)

end

end Shell

/-! ## Starting -/

section

variable {executor : Executor} {call : Node → Action Int} {parts : Evaluator} {args : List Node}
  {shell final : Shell} {log : List Exchange} {result : Except Interruption Int}

/-- A command in the background that started its job has put it into the table. -/
theorem started_of_background
    (hacts : Acts (executeNode executor call parts (.command args true)) shell log (result, final))
    {program : Proc Outcome} {task : TaskId} (hjob : .started true program task ∈ log) :
    final.jobs = (shell.jobs.spawn (Node.command args false).render task).2 ∧
      final.state.lastJob = some shell.jobs.nextId := by
  obtain ⟨ended, next, first, later, rfl, hbody, hrest⟩ := acts_attempt_bind.mp hacts
  rcases acts_bind.mp hbody with
    ⟨e, counted, hx, hcount⟩ | ⟨_, counted, count, start, rfl, hcount, hstart⟩
  · obtain ⟨rfl, hcounted⟩ := acts_countCommand.mp hcount
    cases hx
    split at hcounted
    · cases hcounted
      obtain ⟨rfl, _⟩ := acts_throw.mp hrest
      simp at hjob
    · cases hcounted
  · obtain ⟨rfl, hcounted⟩ := acts_countCommand.mp hcount
    obtain ⟨own, started, rfl, hx⟩ := acts_startJob hstart
    cases hx
    obtain ⟨rfl, hx⟩ := hrest
    cases hx
    have hsame : program = own ∧ task = started := by simpa using hjob
    rw [hsame.2]
    have hjobs : counted.jobs = shell.jobs := congrArg (fun x => x.2.jobs) hcounted
    rw [← hjobs]
    exact ⟨rfl, rfl⟩

end

/-! ## Waiting -/

section

variable {shell final : Shell} {log : List Exchange} {arg : String} {number : Nat}

/-- What `wait` says of a job that is not there. -/
def Builtin.noSuchJob (arg : String) : Completion :=
  ⟨"", "treesh: wait: " ++ arg ++ ": no such job\n", 127⟩

theorem wait_eq (hnumber : Builtin.jobNumber? arg = some number) :
    Builtin.wait.run [arg] = Action.waitFor number >>= fun status =>
      match status with
      | some status => pure status
      | none => Action.emit (Builtin.noSuchJob arg) := by
  have hone : Builtin.waitOne .ok arg = Action.waitFor number >>= fun status =>
      match status with
      | some status => pure ⟨"", "", status⟩
      | none => pure (Builtin.noSuchJob arg) := by
    unfold Builtin.jobNumber? at hnumber
    rw [Builtin.waitOne, hnumber]
    rfl
  change ([arg].foldlM Builtin.waitOne .ok >>= Action.emit) = _
  simp only [List.foldlM_cons, List.foldlM_nil, bind_pure]
  rw [hone, bind_assoc]
  refine congrArg _ (funext fun status => ?_)
  cases status with
  | none => rw [pure_bind]
  | some status => rw [pure_bind, emit_silent]

/-- The job that a number names can be taken out. -/
theorem take?_of_mem {table : JobTable TaskId} (sound : table.Sound) {job : Job TaskId}
    (hjob : job ∈ table.jobs) : ∃ left, table.take? job.id = some (job, left) := by
  have htaken := (Operation.wait job.id).apply_fst sound
  have hfilter : table.jobs.filter (Operation.wait job.id).joins = [job] := sound.filter_id hjob
  rw [hfilter, Operation.apply] at htaken
  cases htake : table.take? job.id with
  | none =>
      rw [htake] at htaken
      cases htaken
  | some taken =>
      obtain ⟨found, left⟩ := taken
      rw [htake] at htaken
      cases htaken
      exact ⟨left, rfl⟩

theorem waitBrings_of_mem (sound : shell.jobs.Sound) {job : Job TaskId}
    (hjob : job ∈ shell.jobs.jobs) (hnumber : Builtin.jobNumber? arg = some job.id) :
    shell.WaitBrings arg job.handle := by
  obtain ⟨left, htake⟩ := take?_of_mem sound hjob
  refine ⟨left, fun log x => ?_⟩
  rw [wait_eq hnumber, acts_bind]
  simp only [acts_waitFor, htake]
  constructor
  · rintro (⟨e, next, _, outcome, _, hx⟩ |
      ⟨status, next, first, later, rfl, ⟨outcome, rfl, hx⟩, hlater⟩)
    · cases hx
    · cases hx
      obtain ⟨rfl, rfl⟩ := acts_pure.mp hlater
      exact ⟨outcome, rfl, rfl⟩
  · rintro ⟨outcome, rfl, rfl⟩
    exact .inr ⟨_, _, _, [], rfl, ⟨outcome, rfl, rfl⟩, acts_pure.mpr ⟨rfl, rfl⟩⟩

/-- Writing joins nothing, and only the stream can fail. -/
theorem acts_writeTo {output : Output} {text : String} {result : Except Interruption Unit}
    (hacts : Acts (Action.writeTo output text) shell log (result, final)) :
    final = shell ∧ (∀ task outcome, .asked (.join task) outcome ∉ log) ∧
      (result = .ok () ∨ ∃ e, result = .error (.stream e)) := by
  obtain ⟨_, _, _, rfl, hwrite, rfl, hx⟩ := Proc.runs_bind.mp hacts
  obtain ⟨written, first, _, rfl, hfirst, rfl, rfl⟩ := Proc.runs_bind.mp hwrite
  cases hx
  refine ⟨rfl, ?_, ?_⟩
  · unfold Output.write Output.writeBytes at hfirst
    split at hfirst
    · obtain ⟨rfl, _⟩ := hfirst
      simp
    · obtain ⟨reply, _, rfl, rfl, _⟩ := hfirst
      simp
  · cases written with
    | ok _ => exact .inl rfl
    | error e => exact .inr ⟨e, rfl⟩

theorem acts_emit {completion : Completion} {result : Except Interruption Int}
    (hacts : Acts (Action.emit completion) shell log (result, final)) :
    final = shell ∧ (∀ task outcome, .asked (.join task) outcome ∉ log) ∧
      (result = .ok completion.status ∨ ∃ e, result = .error (.stream e)) := by
  rcases acts_bind.mp hacts with ⟨e, next, hx, hwrite⟩ | ⟨_, next, first, rest, rfl, hwrite, hrest⟩
  · obtain ⟨rfl, hjoins, hended⟩ := acts_writeTo (acts_get_bind.mp hwrite)
    cases hx
    exact ⟨rfl, hjoins, .inr (by simpa using hended)⟩
  obtain ⟨rfl, hfirst, _⟩ := acts_writeTo (acts_get_bind.mp hwrite)
  rcases acts_bind.mp hrest with
    ⟨e, last, hx, hwrite⟩ | ⟨_, last, second, rest, rfl, hwrite, rfl, hx⟩
  · obtain ⟨rfl, hjoins, hended⟩ := acts_writeTo (acts_get_bind.mp hwrite)
    cases hx
    exact ⟨rfl, by simpa using fun task outcome => ⟨hfirst task outcome, hjoins task outcome⟩,
      .inr (by simpa using hended)⟩
  · obtain ⟨rfl, hjoins, _⟩ := acts_writeTo (acts_get_bind.mp hwrite)
    cases hx
    exact ⟨rfl, by simpa using fun task outcome => ⟨hfirst task outcome, hjoins task outcome⟩,
      .inl rfl⟩

theorem waitFails_of_forall (hnumber : Builtin.jobNumber? arg = some number)
    (hnone : ∀ job ∈ shell.jobs.jobs, job.id ≠ number) : shell.WaitFails arg := by
  have htake : shell.jobs.take? number = none := by
    have hfind : shell.jobs.jobs.find? (fun job => job.id == number) = none :=
      List.find?_eq_none.mpr fun job hjob => by simpa using hnone job hjob
    rw [JobTable.take?, hfind]
    rfl
  intro log result final hacts
  rw [wait_eq hnumber, acts_bind] at hacts
  simp only [acts_waitFor, htake] at hacts
  rcases hacts with ⟨e, next, _, _, hx⟩ | ⟨status, next, first, later, rfl, ⟨rfl, hx⟩, hlater⟩
  · cases hx
  · cases hx
    obtain ⟨rfl, hended⟩ := acts_emit hlater
    exact ⟨rfl, hended⟩

end

/-! ## Forgetting -/

/-- Every time it is asked, the task is found finished. -/
def FoundFinished (task : TaskId) (log : List Exchange) : Prop :=
  ∀ reply, .asked (.isFinished task) reply ∈ log → reply = true

/-- After the action no job has the number of one that was found finished. -/
def Forgets (body : Action Unit) : Prop :=
  ∀ shell log result final, Acts body shell log (result, final) → shell.jobs.Sound →
    ∀ job ∈ shell.jobs.jobs, FoundFinished job.handle log →
      ∀ other ∈ final.jobs.jobs, other.id ≠ job.id

theorem forgets_reapJobs : Forgets Action.reapJobs := by
  intro shell log result final hacts sound job hjob hfound other hother hid
  obtain ⟨finished, ⟨hasked, hfinished⟩, _, hfinal⟩ := logged_of_reapJobs hacts
  obtain ⟨reply, hreply⟩ := hasked.of_mem hjob
  obtain rfl := hfound reply hreply
  rw [hfinal] at hother
  obtain ⟨hold, hkept⟩ := List.mem_filter.mp hother
  obtain rfl := sound.eq_of_id_eq hold hjob hid
  rw [(hfinished _).mpr hreply] at hkept
  cases hkept

/-- Between scripts and programs. -/
theorem forgets_reset : Forgets Action.reset := by
  intro shell log result final hacts
  have hforgets := forgets_reapJobs _ log result final (acts_modify_bind.mp hacts)
  exact hforgets

/-- After the jobs were listed. -/
theorem forgets_runJobs : Forgets (discard Builtin.runJobs) := by
  intro shell log result final hacts sound job hjob hfound
  obtain ⟨status, _, hruns, hx⟩ := acts_discard.mp hacts
  cases hx
  rcases acts_bind.mp hruns with
    ⟨e, next, _, hfailed⟩ | ⟨entries, next, first, later, rfl, hlisted, hrest⟩
  · obtain ⟨_, _, hresult, _⟩ := asked_of_jobStates hfailed
    cases hresult
  obtain ⟨rfl, _⟩ := asked_of_jobStates hlisted
  have hlater : FoundFinished job.handle later := fun reply hmem =>
    hfound reply (List.mem_append_right _ hmem)
  rcases acts_bind.mp hrest with
    ⟨e, reaped, hx, hreap⟩ | ⟨_, reaped, second, third, rfl, hreap, hemit⟩
  · cases hx
    exact forgets_reapJobs _ _ _ _ hreap sound job hjob hlater
  · obtain ⟨rfl, _⟩ := acts_emit hemit
    exact forgets_reapJobs _ _ _ _ hreap sound job hjob fun reply hmem =>
      hlater reply (List.mem_append_left _ hmem)

/-! ## Jobs and their statuses -/

/-- In every world in which the program came to its end, what it joined is what the task of this
number ended with, which is an outcome of the program that was started as this task. -/
theorem joined_in_worlds {α : Type} {main : Proc α} {world : World α} {a : α}
    (hreaches : (World.start main).Reaches world) (hended : world.main.result? = some a) :
    ∃ log, main.Runs log a ∧ ∀ task outcome, .asked (.join task) outcome ∈ log →
      world.status.outcome? task = some outcome ∧
        ∀ isJob program, .started isJob program task ∈ log →
          ∃ own, program.Runs own outcome := by
  obtain ⟨_, log, hgoes⟩ := hreaches.chronicle (World.start_numbered main)
  have hmain := hgoes.main
  refine ⟨log, ?_, fun task outcome hjoin => ⟨hgoes.bears _ hjoin, ?_⟩⟩
  · cases hresult : world.main with
    | done b =>
        rw [hresult] at hended hmain
        cases hended
        exact hmain.runs
    | _ =>
        rw [hresult] at hended
        cases hended
  · intro isJob program hstarted
    obtain ⟨own, proc, hproc, hcame⟩ := hgoes.bears _ hstarted
    have houtcome : world.status.outcome? task = some outcome := hgoes.bears _ hjoin
    obtain ⟨found, hfound, hresult⟩ := Option.bind_eq_some_iff.mp houtcome
    cases hfound.symm.trans hproc
    cases proc with
    | done ended =>
        cases hresult
        exact ⟨own, hcame.runs⟩
    | _ => cases hresult

/-- A job that was started keeps its number until its status is brought or it is found finished.
Until then a `wait` for the number, at whatever time the job ends, joins its task and has
the status of its outcome.  When the finished jobs are forgotten, between scripts, between
the programs of a session and by `jobs`, a job that was found finished is among them, and a
`wait` for the number fails unless another job was started since.  In every order of turns
what is joined is the outcome of the program that was started. -/
theorem Shell.Lives.wait_brings {executor : Executor} {call : Node → Action Int}
    {parts : Evaluator} {fresh shell started : Shell} {early first : List Exchange}
    {args : List Node} {result : Except Interruption Int} {program : Proc Outcome} {task : TaskId}
    (hfresh : fresh.jobs = .empty) (hearly : Lives executor fresh early shell)
    (hstart : Acts (executeNode executor call parts (.command args true)) shell first
      (result, started)) (hjob : .started true program task ∈ first) :
    (∃ number, started.state.lastJob = some number ∧
      ∀ between before, Lives executor started between before →
        JobTable.Unsettled task between →
        (∀ arg, Builtin.jobNumber? arg = some number → before.WaitBrings arg task) ∧
        ∀ body, body = Action.reset ∨ body = discard Builtin.runJobs →
          ∀ log ended forgotten, Acts body before log (ended, forgotten) →
            FoundFinished task log →
            ∀ later last, Lives executor forgotten later last →
              (∀ other id, .started true other id ∉ later) →
              ∀ arg, Builtin.jobNumber? arg = some number → last.WaitFails arg) ∧
    ∀ (α : Type) (main : Proc α) world a, (World.start main).Reaches world →
      world.main.result? = some a →
        ∃ log, main.Runs log a ∧ ∀ task outcome, .asked (.join task) outcome ∈ log →
          world.status.outcome? task = some outcome ∧
            ∀ isJob program, .started isJob program task ∈ log →
              ∃ own, program.Runs own outcome := by
  refine ⟨?_, fun α main world a hreaches hended => joined_in_worlds hreaches hended⟩
  obtain ⟨hjobs, hlast⟩ := started_of_background hstart hjob
  have hsound : started.jobs.Sound := by
    rw [hjobs]
    exact (hearly.sound hfresh).spawn _ _
  let job : Job TaskId := ⟨shell.jobs.nextId, (Node.command args false).render, task⟩
  have hmem : job ∈ started.jobs.jobs := by
    rw [hjobs]
    exact List.mem_append_right _ (List.mem_singleton.mpr rfl)
  refine ⟨job.id, hlast, fun between before hbetween hunsettled => ?_⟩
  have hbefore : before.jobs.Sound := hbetween.ledger.sound hsound
  have hlive : job ∈ before.jobs.jobs := hbetween.ledger.keeps hsound hmem hunsettled
  refine ⟨fun arg => waitBrings_of_mem hbefore hlive, ?_⟩
  intro body hbody log ended forgotten hacts hfound later last hlater hnew arg hnumber
  have hforgets : Forgets body := by
    rcases hbody with rfl | rfl
    · exact forgets_reset
    · exact forgets_runJobs
  refine waitFails_of_forall hnumber fun other hother => ?_
  rcases hlater.ledger.origin hother with hold | ⟨program, hstarted⟩
  · exact hforgets before log ended forgotten hacts hbefore job hlive hfound other hold
  · exact absurd hstarted (hnew program other.handle)

/-! A shell in which a job is started that ends with three. -/

def Shell.untouched : Shell := .new (State.initial "/" 1) ⟨9, 9, 9⟩

/-- Answers in a world in which jobs are finished or not. -/
def Request.jobReply? (finished : Bool) : (r : Request) → Option r.Reply
  | .newBuffer => some 0
  | .contents _ => some []
  | .write _ _ => some (.ok ())
  | .isFinished _ => some finished
  | .awaitJobs _ => some ()
  | .command => some ()
  | _ => none

/-- Starts a job that ends with the status. -/
def Exchange.startsWith (status : Int) : Exchange → Bool
  | .started true program _ =>
      (program.replay (Request.jobReply? true)).any fun x => x.2.status = status
  | _ => false

def Exchange.isJoin : Exchange → Bool
  | .asked (.join _) _ => true
  | _ => false

/-- Brings the status of some job or finds one finished. -/
def Exchange.settlesAny : Exchange → Bool
  | .asked (.isFinished _) finished => finished
  | exchange => exchange.isJoin

theorem JobTable.unsettled_of_settlesAny {log : List Exchange}
    (h : log.any Exchange.settlesAny = false) (task : TaskId) : Unsettled task log := by
  rintro exchange hmem (⟨outcome, rfl⟩ | rfl)
  · exact List.any_eq_false.mp h _ hmem rfl
  · exact List.any_eq_false.mp h _ hmem rfl

theorem Exchange.exists_started {log : List Exchange} {status : Int}
    (h : log.any (startsWith status) = true) : ∃ program task own outcome,
      .started true program task ∈ log ∧ program.Runs own outcome ∧ outcome.status = status := by
  obtain ⟨exchange, hmem, hstarts⟩ := List.any_eq_true.mp h
  cases exchange with
  | asked r reply => cases hstarts
  | started isJob program task =>
      cases isJob with
      | false => cases hstarts
      | true =>
          obtain ⟨own, outcome, hruns, hstatus⟩ := Proc.exists_runs _ program _ hstarts
          exact ⟨program, task, own, outcome, hmem, hruns, of_decide_eq_true hstatus⟩

/-- While the job runs another script is executed, and after that `wait 1` joins the job. -/
theorem three_is_brought : ∃ first started between completion before program task own outcome,
    Acts (executeNode Toolbox.executor (fun _ => pure 0)
      (evaluator Toolbox.executor (fun _ => pure 0) 2)
      (.command [.word [.literal "st"], .word [.literal "3"]] true)) .untouched first
      (.ok 0, started) ∧
    .started true program task ∈ first ∧ program.Runs own outcome ∧ outcome.status = 3 ∧
    (Shell.exec Toolbox.executor "st 5" started).Runs between (completion, before) ∧
    completion.status = 5 ∧ before.WaitBrings "1" task := by
  obtain ⟨first, ⟨result, started⟩, hruns, htest⟩ := Proc.exists_runs (Request.jobReply? true)
    ((executeNode Toolbox.executor (fun _ => pure 0)
      (evaluator Toolbox.executor (fun _ => pure 0) 2)
      (.command [.word [.literal "st"], .word [.literal "3"]] true)).run.run .untouched)
    (fun x => x.1.any (Exchange.startsWith 3) ∧ x.2.1.toOption = some 0 ∧
      x.2.2.state.lastJob = some 1 ∧
      (((Shell.exec Toolbox.executor "st 5").run x.2.2).replay (Request.jobReply? false)).any
        fun y => y.2.1.status = 5 ∧ y.1.any Exchange.settlesAny = false) (by decide +kernel)
  obtain ⟨hstarts, hzero, hlast, hscript⟩ := of_decide_eq_true htest
  obtain ⟨program, task, own, outcome, hjob, hown, hthree⟩ := Exchange.exists_started hstarts
  obtain ⟨between, ⟨completion, before⟩, hscript, htest⟩ := Proc.exists_runs _ _ _ hscript
  obtain ⟨hfive, hsettles⟩ := of_decide_eq_true htest
  cases result with
  | error _ => cases hzero
  | ok status =>
      obtain rfl : status = 0 := by simpa [Except.toOption] using hzero
      have hearly : Shell.Lives Toolbox.executor .untouched [] .untouched := .aside rfl
      have hstart : Acts (executeNode Toolbox.executor (fun _ => pure 0)
        (evaluator Toolbox.executor (fun _ => pure 0) 2)
        (.command [.word [.literal "st"], .word [.literal "3"]] true)) .untouched first
        (.ok 0, started) := hruns
      obtain ⟨⟨number, hnumber, hwaits⟩, _⟩ := Shell.Lives.wait_brings rfl hearly hstart hjob
      obtain rfl : number = 1 := Option.some.inj (hnumber.symm.trans hlast)
      obtain ⟨hbrings, _⟩ := hwaits between before (.script hscript)
        (JobTable.unsettled_of_settlesAny hsettles task)
      exact ⟨first, started, between, completion, before, program, task, own, outcome, hruns, hjob,
        hown, hthree, hscript, hfive, hbrings "1" (by decide +kernel)⟩

/-- The job ended with three before the next script started, so it is forgotten and the first wait
for it, with no other one in between, fails. -/
theorem status_lost : ∃ log completions final,
    Proc.Runs ((["st 3 &", "settle", "wait 1"].mapM (Shell.exec Toolbox.executor) :
      StateT Shell Proc (List Completion)).run .untouched) log (completions, final) ∧
    (∃ program task own outcome, .started true program task ∈ log ∧ program.Runs own outcome ∧
      outcome.status = 3) ∧
    final.state.lastJob = some 1 ∧ completions.map Completion.status = [0, 0, 127] ∧
    ∀ task outcome, .asked (.join task) outcome ∉ log := by
  obtain ⟨log, ⟨completions, final⟩, hruns, htest⟩ := Proc.exists_runs (Request.jobReply? true)
    ((["st 3 &", "settle", "wait 1"].mapM (Shell.exec Toolbox.executor) :
      StateT Shell Proc (List Completion)).run .untouched)
    (fun x => x.1.any (Exchange.startsWith 3) ∧ x.2.2.state.lastJob = some 1 ∧
      x.2.1.map Completion.status = [0, 0, 127] ∧ x.1.any Exchange.isJoin = false)
    (by decide +kernel)
  obtain ⟨hstarts, hlast, hstatuses, hjoins⟩ := of_decide_eq_true htest
  refine ⟨log, completions, final, hruns, Exchange.exists_started hstarts, hlast, hstatuses, ?_⟩
  exact fun task outcome hmem => List.any_eq_false.mp hjoins _ hmem rfl

end Conch
