import Conch.Proofs.Job.Bookkeeping
import Conch.Proofs.Shell.Contracts
import Conch.Shell.Invocation

/-!
# Ledgers of jobs

What becomes of the jobs of a shell can be read off the exchanges of a run.  A job gets
into the table when its task is started, and it leaves the table only with a `join`, which
brings its status, or when it is found finished (`Ledger.keeps`).  An action has a ledger
if its parts have one; those that work on jobs make the entries.
-/

namespace Conch

namespace JobTable

/-- The jobs are joined one after the other. -/
def Joined : List (Job TaskId) → List Exchange → Prop
  | [], log => log = []
  | job :: jobs, log =>
      ∃ outcome rest, log = .asked (.join job.handle) outcome :: rest ∧ Joined jobs rest

/-- Each job is asked for whether it is finished. -/
def Asked (jobs : List (Job TaskId)) (log : List Exchange) : Prop :=
  ∃ entries : List (Job TaskId × Bool), entries.map Prod.fst = jobs ∧
    log = entries.map fun entry => .asked (.isFinished entry.1.handle) entry.2

/-- The exchanges that go with an operation on a table. -/
def Operation.Logged (table : JobTable TaskId) (log : List Exchange) : Operation TaskId → Prop
  | .spawn _ task => ∃ program, log = [.started true program task]
  | .wait id => Joined (Operation.apply (.wait id) table).1 log
  | .waitAll => Joined (Operation.apply .waitAll table).1 log
  | .reap finished =>
      Asked table.jobs log ∧ ∀ task, finished task = true ↔ .asked (.isFinished task) true ∈ log

/-- How a table changes along the exchanges of a run. -/
inductive Ledger : JobTable TaskId → List Exchange → JobTable TaskId → Prop where
  /-- Nothing is done to the jobs. -/
  | aside (table : JobTable TaskId) (log : List Exchange) : Ledger table log table
  | entry {table : JobTable TaskId} {log : List Exchange} {operation : Operation TaskId}
      (h : operation.Logged table log) : Ledger table log (operation.apply table).2
  | trans {first second third : JobTable TaskId} {log rest : List Exchange}
      (h : Ledger first log second) (hrest : Ledger second rest third) :
      Ledger first (log ++ rest) third

/-- The exchange brings the status of a task or finds the task finished. -/
def Settles (task : TaskId) (exchange : Exchange) : Prop :=
  (∃ outcome, exchange = .asked (.join task) outcome) ∨ exchange = .asked (.isFinished task) true

/-- So far the status of the task was not brought, and the task was not found finished. -/
def Unsettled (task : TaskId) (log : List Exchange) : Prop :=
  ∀ exchange ∈ log, ¬Settles task exchange

section

variable {table final : JobTable TaskId} {log : List Exchange} {operation : Operation TaskId}

theorem Asked.of_mem {jobs : List (Job TaskId)} (h : Asked jobs log) {job : Job TaskId}
    (hjob : job ∈ jobs) : ∃ reply, .asked (.isFinished job.handle) reply ∈ log := by
  obtain ⟨entries, rfl, rfl⟩ := h
  obtain ⟨entry, hentry, rfl⟩ := List.mem_map.mp hjob
  exact ⟨entry.2, List.mem_map.mpr ⟨entry, hentry, rfl⟩⟩

theorem Joined.settles {jobs : List (Job TaskId)} (h : Joined jobs log) {job : Job TaskId}
    (hjob : job ∈ jobs) : ∃ exchange ∈ log, Settles job.handle exchange := by
  induction jobs generalizing log with
  | nil => cases hjob
  | cons first jobs ih =>
      obtain ⟨outcome, rest, rfl, hrest⟩ := h
      rcases List.mem_cons.mp hjob with rfl | hlater
      · exact ⟨_, List.mem_cons_self .., .inl ⟨outcome, rfl⟩⟩
      · obtain ⟨exchange, hmem, hsettles⟩ := ih hrest hlater
        exact ⟨exchange, List.mem_cons_of_mem _ hmem, hsettles⟩

/-- What an operation takes out is settled by it. -/
theorem Operation.Logged.settles (h : operation.Logged table log) (sound : table.Sound)
    {job : Job TaskId} (hjob : job ∈ table.jobs) (hjoins : operation.joins job = true) :
    ∃ exchange ∈ log, Settles job.handle exchange := by
  have htaken : job ∈ (operation.apply table).1 := by
    rw [operation.apply_fst sound]
    exact List.mem_filter.mpr ⟨hjob, hjoins⟩
  cases operation with
  | spawn command task => cases hjoins
  | wait id => exact Joined.settles h htaken
  | waitAll => exact Joined.settles h htaken
  | reap finished => exact ⟨_, (h.2 job.handle).mp hjoins, .inr rfl⟩

theorem Ledger.sound (h : Ledger table log final) (sound : table.Sound) : final.Sound := by
  induction h with
  | aside => exact sound
  | @entry _ _ operation _ => exact operation.apply_sound sound
  | trans _ _ ih ihrest => exact ihrest (ih sound)

/-- A job that nothing settled is still there. -/
theorem Ledger.keeps (h : Ledger table log final) (sound : table.Sound) {job : Job TaskId}
    (hjob : job ∈ table.jobs) (hlog : Unsettled job.handle log) : job ∈ final.jobs := by
  induction h with
  | aside => exact hjob
  | @entry table log operation hlogged =>
      rw [operation.apply_snd_jobs]
      refine List.mem_append_left _ (List.mem_filter.mpr ⟨hjob, ?_⟩)
      rw [Bool.not_eq_true']
      refine Bool.eq_false_iff.mpr fun hjoins => ?_
      obtain ⟨exchange, hmem, hsettles⟩ := hlogged.settles sound hjob hjoins
      exact hlog exchange hmem hsettles
  | trans hfirst _ ih ihrest =>
      have hkept := ih sound hjob fun exchange hmem => hlog exchange (List.mem_append_left _ hmem)
      exact ihrest (hfirst.sound sound) hkept fun exchange hmem =>
        hlog exchange (List.mem_append_right _ hmem)

/-- A job was there before or was started. -/
theorem Ledger.origin (h : Ledger table log final) {job : Job TaskId} (hjob : job ∈ final.jobs) :
    job ∈ table.jobs ∨ ∃ program, .started true program job.handle ∈ log := by
  induction h with
  | aside => exact .inl hjob
  | @entry table log operation hlogged =>
      rw [operation.apply_snd_jobs] at hjob
      rcases List.mem_append.mp hjob with hold | hnew
      · exact .inl (List.mem_filter.mp hold).1
      · cases operation with
        | spawn command task =>
            obtain ⟨program, rfl⟩ := hlogged
            rw [List.mem_singleton.mp hnew]
            exact .inr ⟨program, List.mem_singleton.mpr rfl⟩
        | _ => cases hnew
  | trans _ _ ih ihrest =>
      rcases ihrest hjob with hmiddle | ⟨program, hstarted⟩
      · exact (ih hmiddle).imp_right fun ⟨program, hstarted⟩ =>
          ⟨program, List.mem_append_left _ hstarted⟩
      · exact .inr ⟨program, List.mem_append_right _ hstarted⟩

end

end JobTable

/-! ## Actions -/

/-- Every finished run of the action has a ledger of the jobs, however it ends. -/
def Booked {ε σ α : Type} (jobs : σ → JobTable TaskId) (body : ExceptT ε (StateT σ Proc) α) :
    Prop :=
  ∀ s log result final, Acts body s log (result, final) →
    JobTable.Ledger (jobs s) log (jobs final)

namespace Booked

section

variable {ε σ α β : Type} {jobs : σ → JobTable TaskId} {body : ExceptT ε (StateT σ Proc) α}

theorem pure (a : α) : Booked jobs (Pure.pure a : ExceptT ε (StateT σ Proc) α) := by
  intro s log result final hacts
  obtain ⟨rfl, hx⟩ := acts_pure.mp hacts
  cases hx
  exact .aside ..

theorem throw (e : ε) : Booked jobs (MonadExcept.throw e : ExceptT ε (StateT σ Proc) α) := by
  intro s log result final hacts
  obtain ⟨rfl, hx⟩ := acts_throw.mp hacts
  cases hx
  exact .aside ..

theorem bind {rest : α → ExceptT ε (StateT σ Proc) β} (hbody : Booked jobs body)
    (hrest : ∀ a, Booked jobs (rest a)) : Booked jobs (body >>= rest) := by
  intro s log result final hacts
  rcases acts_bind.mp hacts with
    ⟨e, next, hx, hfirst⟩ | ⟨a, next, first, later, rfl, hfirst, hlater⟩
  · cases hx
    exact hbody _ _ _ _ hfirst
  · exact (hbody _ _ _ _ hfirst).trans (hrest a _ _ _ _ hlater)

theorem get_bind {rest : σ → ExceptT ε (StateT σ Proc) β} (h : ∀ s, Booked jobs (rest s)) :
    Booked jobs (get >>= rest) := fun s => h s s

/-- A change that leaves the jobs alone. -/
theorem modify {f : σ → σ} (h : ∀ s, jobs (f s) = jobs s) :
    Booked jobs (modify f : ExceptT ε (StateT σ Proc) PUnit) := by
  intro s log result final hacts
  obtain ⟨rfl, hx⟩ : log = [] ∧ (result, final) = (.ok (), f s) := hacts
  cases hx
  rw [h]
  exact .aside ..

theorem discard (h : Booked jobs body) :
    Booked jobs (Functor.discard body : ExceptT ε (StateT σ Proc) PUnit) := by
  intro s log result final hacts
  obtain ⟨inner, next, hbody, hx⟩ := acts_discard.mp hacts
  cases hx
  exact h _ _ _ _ hbody

end

end Booked

/-! ## Jobs -/

section

open JobTable (Joined Operation)

variable {shell : Shell} {log : List Exchange}

theorem acts_joinStatus {task : TaskId} {x : Except Interruption Int × Shell} :
    Acts (Action.joinStatus task) shell log x ↔
      ∃ outcome, log = [.asked (.join task) outcome] ∧ x = (.ok outcome.status, shell) := by
  constructor
  · rintro ⟨outcome, rest, rfl, rfl, hx⟩
    exact ⟨outcome, rfl, hx⟩
  · rintro ⟨outcome, rfl, hx⟩
    exact ⟨outcome, [], rfl, rfl, hx⟩

/-- Waiting for the job of a number joins it and gives its status, if there is one. -/
theorem acts_waitFor {id : Nat} {x : Except Interruption (Option Int) × Shell} :
    Acts (Action.waitFor id) shell log x ↔
      match shell.jobs.take? id with
      | none => log = [] ∧ x = (.ok none, shell)
      | some (job, left) => ∃ outcome, log = [.asked (.join job.handle) outcome] ∧
          x = (.ok (some outcome.status), { shell with jobs := left }) := by
  rw [Action.waitFor, acts_get_bind]
  cases shell.jobs.take? id with
  | none => exact acts_pure
  | some taken =>
      obtain ⟨job, left⟩ := taken
      dsimp only
      rw [acts_modify_bind, acts_bind]
      constructor
      · rintro (⟨e, next, _, hjoin⟩ | ⟨status, next, first, later, rfl, hjoin, rfl, hx⟩)
        · obtain ⟨_, _, hx⟩ := acts_joinStatus.mp hjoin
          cases hx
        · obtain ⟨outcome, rfl, hnext⟩ := acts_joinStatus.mp hjoin
          cases hnext
          exact ⟨outcome, rfl, hx⟩
      · rintro ⟨outcome, rfl, hx⟩
        exact .inr ⟨_, _, _, [], rfl, acts_joinStatus.mpr ⟨outcome, rfl, rfl⟩, rfl, hx⟩

theorem joined_of_forM {jobs : List (Job TaskId)} {result : Except Interruption PUnit}
    {final : Shell} (hacts : Acts (jobs.forM fun job => discard (Action.joinStatus job.handle))
      shell log (result, final)) : Joined jobs log ∧ final = shell := by
  induction jobs generalizing log with
  | nil =>
      obtain ⟨rfl, hx⟩ := acts_pure.mp hacts
      cases hx
      exact ⟨rfl, rfl⟩
  | cons job jobs ih =>
      rcases acts_bind.mp hacts with
        ⟨e, next, _, hjoin⟩ | ⟨a, next, first, later, rfl, hjoin, hlater⟩
      · obtain ⟨_, _, hstatus, hx⟩ := acts_discard.mp hjoin
        obtain ⟨_, _, hnext⟩ := acts_joinStatus.mp hstatus
        cases hnext
        cases hx
      · obtain ⟨_, _, hstatus, hx⟩ := acts_discard.mp hjoin
        obtain ⟨outcome, rfl, hnext⟩ := acts_joinStatus.mp hstatus
        cases hnext
        cases hx
        obtain ⟨hrest, rfl⟩ := ih hlater
        exact ⟨⟨outcome, later, rfl, hrest⟩, rfl⟩

/-- Asks for each job whether it is finished. -/
theorem asked_of_mapM {jobs : List (Job TaskId)}
    {result : Except Interruption (List (Job TaskId × Bool))} {final : Shell}
    (hacts : Acts (jobs.mapM fun job =>
      (do return (job, ← Action.request (.isFinished job.handle)) : Action (Job TaskId × Bool)))
      shell log (result, final)) :
    final = shell ∧ ∃ entries, result = .ok entries ∧ entries.map Prod.fst = jobs ∧
      log = entries.map fun entry => .asked (.isFinished entry.1.handle) entry.2 := by
  induction jobs generalizing log result final with
  | nil =>
      obtain ⟨rfl, hx⟩ := acts_pure.mp hacts
      cases hx
      exact ⟨rfl, [], rfl, rfl, rfl⟩
  | cons job jobs ih =>
      rw [List.mapM_cons] at hacts
      obtain ⟨reply, rest, rfl, hrest⟩ := hacts
      rcases acts_bind.mp hrest with
        ⟨e, next, _, hfailed⟩ | ⟨entries, next, first, later, rfl, hasked, rfl, hx⟩
      · obtain ⟨_, _, hresult, _⟩ := ih hfailed
        cases hresult
      · obtain ⟨rfl, entries, hresult, rfl, rfl⟩ := ih hasked
        cases hresult
        cases hx
        exact ⟨rfl, (job, reply) :: entries, rfl, rfl, by simp⟩

theorem asked_of_jobStates {result : Except Interruption (List (Job TaskId × Bool))}
    {final : Shell} (hacts : Acts Action.jobStates shell log (result, final)) :
    final = shell ∧ ∃ entries, result = .ok entries ∧ entries.map Prod.fst = shell.jobs.jobs ∧
      log = entries.map fun entry => .asked (.isFinished entry.1.handle) entry.2 :=
  asked_of_mapM hacts

/-- The finished jobs are those that were found so. -/
theorem logged_of_reapJobs {result : Except Interruption Unit} {final : Shell}
    (hacts : Acts Action.reapJobs shell log (result, final)) :
    ∃ finished, (Operation.reap finished).Logged shell.jobs log ∧
      result = .ok () ∧
      final = { shell with jobs := ((Operation.reap finished).apply shell.jobs).2 } := by
  rcases acts_bind.mp hacts with
    ⟨e, next, _, hfailed⟩ | ⟨entries, next, first, later, rfl, hasked, rfl, hx⟩
  · obtain ⟨_, _, hresult, _⟩ := asked_of_jobStates hfailed
    cases hresult
  · obtain ⟨rfl, entries, hresult, hjobs, rfl⟩ := asked_of_jobStates hasked
    cases hresult
    cases hx
    rw [List.append_nil]
    refine ⟨((entries.filter Prod.snd).map fun entry => entry.1.handle).contains,
      ⟨⟨entries, hjobs, rfl⟩, fun task => ?_⟩, rfl, rfl⟩
    simp only [List.contains_iff_mem, List.mem_map, List.mem_filter]
    constructor
    · rintro ⟨⟨job, done⟩, ⟨hentry, rfl⟩, rfl⟩
      exact ⟨(job, true), hentry, rfl⟩
    · rintro ⟨⟨job, done⟩, hentry, hexchange⟩
      cases hexchange
      exact ⟨(job, true), ⟨hentry, rfl⟩, rfl⟩

end

end Conch
