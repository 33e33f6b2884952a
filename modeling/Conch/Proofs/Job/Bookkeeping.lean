import Mathlib.Data.List.Perm.Lattice
import Conch.Job.Table

/-!
# The books of a job table

A table is worked by four operations: a job is started, a job is waited for by number,
all jobs are waited for, and the finished ones are reaped.  An operation that takes a job
out gets its handle, and with it the status, so the books list each job that leaves under
the operation that took it.  What was started is what was delivered followed by what is
still live, whichever jobs were finished at each reaping.
-/

namespace Conch

namespace JobTable

variable {Handle : Type}

/--
The numbers of the jobs grow in the order of the table and were given since it was last
empty.
-/
structure Sound (table : JobTable Handle) : Prop where
  ascending : (table.jobs.map Job.id).Pairwise (· < ·)
  positive : ∀ job ∈ table.jobs, 1 ≤ job.id
  given : ∀ job ∈ table.jobs, job.id ≤ table.lastId

inductive Operation (Handle : Type) where
  | spawn (command : String) (handle : Handle)
  | wait (id : Nat)
  | waitAll
  /-- Which jobs are finished is up to the schedule. -/
  | reap (finished : Handle → Bool)

namespace Operation

/-- The jobs that an operation takes out, and the table that it leaves. -/
def apply : Operation Handle → JobTable Handle → List (Job Handle) × JobTable Handle
  | spawn command handle, table => ([], (table.spawn command handle).2)
  | wait id, table =>
      match table.take? id with
      | none => ([], table)
      | some (job, left) => ([job], left)
  | waitAll, table => table.takeAll
  | reap finished, table => table.reap finished

/-- The job that an operation puts into a table. -/
def started (table : JobTable Handle) : Operation Handle → List (Job Handle)
  | spawn command handle => [⟨table.nextId, command, handle⟩]
  | _ => []

/-- The operation is one that joins the job if it finds it. -/
def joins : Operation Handle → Job Handle → Bool
  | spawn _ _, _ => false
  | wait id, job => job.id == id
  | waitAll, _ => true
  | reap finished, job => finished job.handle

end Operation

/-- What has become of a table that started empty. -/
structure History (Handle : Type) where
  table : JobTable Handle
  /-- All jobs that were started, in order. -/
  spawned : List (Job Handle)
  /-- The jobs that were taken out, each with the operation that took it, in order. -/
  delivered : List (Operation Handle × Job Handle)
  /-- How many jobs were started since the table was last empty. -/
  streak : Nat

namespace History

def start : History Handle := ⟨empty, [], [], 0⟩

def step (history : History Handle) (operation : Operation Handle) : History Handle where
  table := (operation.apply history.table).2
  spawned := history.spawned ++ operation.started history.table
  delivered :=
    history.delivered ++ (operation.apply history.table).1.map fun job => (operation, job)
  streak :=
    if (operation.apply history.table).2.jobs.isEmpty then 0
    else history.streak + (operation.started history.table).length

def of (operations : List (Operation Handle)) : History Handle := operations.foldl step start

/-- The books balance. -/
structure Accounted (history : History Handle) : Prop where
  sound : history.table.Sound
  /-- The live jobs stand in the order in which they were started. -/
  ordered : history.table.jobs.Sublist history.spawned
  /-- Every job that was started is either delivered, once, or live. -/
  conserved : (history.delivered.map Prod.snd ++ history.table.jobs).Perm history.spawned
  joined : ∀ delivery ∈ history.delivered, delivery.1.joins delivery.2
  /-- Numbers count the jobs since the table was last empty. -/
  numbered : history.table.nextId = history.streak + 1

end History

section Numbers

theorem Sound.empty : (empty : JobTable Handle).Sound := ⟨.nil, nofun, nofun⟩

variable {table : JobTable Handle}

/-- The next number is above those of the live jobs, so no job is overwritten. -/
theorem Sound.id_lt_nextId (sound : table.Sound) : ∀ job ∈ table.jobs, job.id < table.nextId := by
  intro job hjob
  have hlast := sound.given job hjob
  have hlive : table.jobs ≠ [] := List.ne_nil_of_mem hjob
  simp only [nextId, List.isEmpty_iff, hlive, if_false]
  omega

theorem one_le_nextId (table : JobTable Handle) : 1 ≤ table.nextId := by
  unfold nextId
  split <;> omega

theorem Sound.spawn (sound : table.Sound) (command : String) (handle : Handle) :
    (table.spawn command handle).2.Sound where
  ascending := by
    simp only [spawn_jobs, List.map_append, List.map_cons, List.map_nil]
    refine List.pairwise_append.mpr ⟨sound.ascending, List.pairwise_singleton _ _, ?_⟩
    intro id hid next hnext
    obtain ⟨job, hjob, rfl⟩ := List.mem_map.mp hid
    rw [List.mem_singleton.mp hnext]
    exact sound.id_lt_nextId job hjob
  positive := by
    intro job hjob
    rcases List.mem_append.mp hjob with hold | hnew
    · exact sound.positive job hold
    · rw [List.mem_singleton.mp hnew]
      exact table.one_le_nextId
  given := by
    intro job hjob
    rcases List.mem_append.mp hjob with hold | hnew
    · exact Nat.le_of_lt (sound.id_lt_nextId job hold)
    · rw [List.mem_singleton.mp hnew]
      exact Nat.le_refl table.nextId

/-- Taking jobs out leaves the numbers in order. -/
theorem Sound.sublist (sound : table.Sound) {left : JobTable Handle}
    (hjobs : left.jobs.Sublist table.jobs) (hlast : left.lastId = table.lastId) : left.Sound where
  ascending := sound.ascending.sublist (hjobs.map Job.id)
  positive job hjob := sound.positive job (hjobs.subset hjob)
  given job hjob := hlast ▸ sound.given job (hjobs.subset hjob)

theorem Sound.distinct (sound : table.Sound) : (table.jobs.map Job.id).Nodup :=
  sound.ascending.imp Nat.ne_of_lt

/-- A number names one live job at most. -/
theorem Sound.eq_of_id_eq (sound : table.Sound) {job other : Job Handle}
    (hjob : job ∈ table.jobs) (hother : other ∈ table.jobs) (hid : job.id = other.id) :
    job = other :=
  List.inj_on_of_nodup_map sound.distinct hjob hother hid

theorem Sound.filter_id (sound : table.Sound) {job : Job Handle} (hjob : job ∈ table.jobs) :
    table.jobs.filter (fun other => other.id == job.id) = [job] := by
  have hnodup : table.jobs.Nodup := sound.distinct.of_map
  have hsame : ∀ other ∈ table.jobs, (other.id == job.id) = true ↔ other = job := by
    intro other hother
    rw [beq_iff_eq]
    exact ⟨fun hid => sound.eq_of_id_eq hother hjob hid, fun heq => heq ▸ rfl⟩
  refine List.perm_singleton.mp ((List.perm_ext_iff_of_nodup (hnodup.filter _) (by simp)).mpr ?_)
  intro other
  rw [List.mem_filter, List.mem_singleton]
  exact ⟨fun ⟨hother, hid⟩ => (hsame other hother).mp hid,
    fun heq => ⟨heq ▸ hjob, (hsame other (heq ▸ hjob)).mpr heq⟩⟩

end Numbers

namespace Operation

variable {table : JobTable Handle}

/-- What an operation takes out are the live jobs that it joins. -/
theorem apply_fst (operation : Operation Handle) (sound : table.Sound) :
    (operation.apply table).1 = table.jobs.filter operation.joins := by
  cases operation with
  | spawn command handle => exact (List.filter_eq_nil_iff.mpr fun _ _ => Bool.false_ne_true).symm
  | waitAll => exact (List.filter_eq_self.mpr fun _ _ => rfl).symm
  | reap finished => rfl
  | wait id =>
    simp only [apply, take?]
    cases hfind : table.jobs.find? (fun job => job.id == id) with
    | none => exact (List.filter_eq_nil_iff.mpr (List.find?_eq_none.mp hfind)).symm
    | some job =>
      have hid : job.id = id := by simpa using List.find?_some hfind
      subst hid
      exact (sound.filter_id (List.mem_of_find?_eq_some hfind)).symm

/-- What an operation leaves are the other jobs, and the one that it starts. -/
theorem apply_snd_jobs (operation : Operation Handle) (table : JobTable Handle) :
    (operation.apply table).2.jobs =
      table.jobs.filter (fun job => !operation.joins job) ++ operation.started table := by
  cases operation with
  | spawn command handle => simp [apply, joins, started]
  | waitAll => simp [apply, joins, started, takeAll]
  | reap finished => simp [apply, joins, started, JobTable.reap]
  | wait id =>
    simp only [apply, take?, joins, started, List.append_nil]
    cases hfind : table.jobs.find? (fun job => job.id == id) with
    | none =>
      refine (List.filter_eq_self.mpr fun job hjob => ?_).symm
      simpa using List.find?_eq_none.mp hfind job hjob
    | some job => rfl

theorem apply_snd_lastId (operation : Operation Handle) (table : JobTable Handle) :
    (operation.apply table).2.lastId =
      if operation.started table = [] then table.lastId else table.nextId := by
  cases operation with
  | spawn command handle => rfl
  | waitAll => rfl
  | reap finished => rfl
  | wait id =>
    simp only [apply, take?, started, if_true]
    cases table.jobs.find? (fun job => job.id == id) <;> rfl

/-- An operation starts a job, as `spawn` does, or only takes jobs out. -/
theorem started_cases (operation : Operation Handle) (table : JobTable Handle) :
    (∃ command handle, operation = .spawn command handle) ∨ operation.started table = [] := by
  cases operation with
  | spawn command handle => exact .inl ⟨command, handle, rfl⟩
  | wait id => exact .inr rfl
  | waitAll => exact .inr rfl
  | reap finished => exact .inr rfl

theorem apply_sound (operation : Operation Handle) (sound : table.Sound) :
    (operation.apply table).2.Sound := by
  rcases operation.started_cases table with ⟨command, handle, rfl⟩ | hnone
  · exact sound.spawn command handle
  · refine sound.sublist ?_ ?_
    · rw [apply_snd_jobs, hnone, List.append_nil]
      exact List.filter_sublist
    · rw [apply_snd_lastId, if_pos hnone]

end Operation

namespace History

open scoped List

variable {history : History Handle}

theorem start_accounted : (start : History Handle).Accounted :=
  ⟨.empty, .slnil, .nil, nofun, rfl⟩

/-- The number after an operation counts on, unless the operation empties the table. -/
theorem Accounted.step_numbered (accounted : history.Accounted) (operation : Operation Handle) :
    (history.step operation).table.nextId = (history.step operation).streak + 1 := by
  have hnumbered := accounted.numbered
  simp only [step]
  by_cases hempty : (operation.apply history.table).2.jobs.isEmpty
  · simp [nextId, hempty]
  rcases operation.started_cases history.table with ⟨command, handle, rfl⟩ | hnone
  · simp [Operation.apply, Operation.started, nextId, JobTable.spawn] at hnumbered ⊢
    exact hnumbered
  · have hlive : history.table.jobs.isEmpty = false := by
      have hne : (operation.apply history.table).2.jobs ≠ [] := by simpa using hempty
      rw [Operation.apply_snd_jobs, hnone, List.append_nil] at hne
      have hjobs : history.table.jobs ≠ [] := fun hnil => hne (by simp [hnil])
      simpa using hjobs
    have hlast : history.table.lastId = history.streak := by simpa [nextId, hlive] using hnumbered
    simp [nextId, hempty, hnone, Operation.apply_snd_lastId, hlast]

theorem Accounted.step (accounted : history.Accounted) (operation : Operation Handle) :
    (history.step operation).Accounted where
  sound := operation.apply_sound accounted.sound
  ordered := by
    simp only [History.step, Operation.apply_snd_jobs]
    exact (List.filter_sublist.trans accounted.ordered).append (.refl _)
  conserved := by
    simp only [History.step, Operation.apply_snd_jobs, operation.apply_fst accounted.sound,
      List.map_append, List.map_map, Function.comp_def, List.map_id', List.append_assoc]
    have hsplit := List.filter_append_perm operation.joins history.table.jobs
    calc history.delivered.map Prod.snd ++ (history.table.jobs.filter operation.joins ++
          (history.table.jobs.filter (fun job => !operation.joins job) ++
            operation.started history.table))
      _ ~ history.delivered.map Prod.snd ++ (history.table.jobs ++
            operation.started history.table) := by
          rw [← List.append_assoc (history.table.jobs.filter operation.joins)]
          exact (hsplit.append_right _).append_left _
      _ ~ history.spawned ++ operation.started history.table := by
          rw [← List.append_assoc]
          exact accounted.conserved.append_right _
  joined := by
    intro delivery hdelivery
    rcases List.mem_append.mp hdelivery with hold | hnew
    · exact accounted.joined delivery hold
    · obtain ⟨job, hjob, rfl⟩ := List.mem_map.mp hnew
      rw [operation.apply_fst accounted.sound] at hjob
      exact (List.mem_filter.mp hjob).2
  numbered := accounted.step_numbered operation

theorem foldl_accounted (accounted : history.Accounted) (operations : List (Operation Handle)) :
    (operations.foldl step history).Accounted := by
  induction operations generalizing history with
  | nil => exact accounted
  | cons operation operations ih => exact ih (accounted.step operation)

/--
After any operations the books balance, the next number is that of no live job, and the
next operation takes out the live jobs that it joins and leaves the others: a wait that
names a live job takes that job, and nothing else does but a reaping that finds it
finished or a wait for all.
-/
theorem books_balance (operations : List (Operation Handle)) :
    (of operations).Accounted ∧
      (∀ job ∈ (of operations).table.jobs, job.id < (of operations).table.nextId) ∧
      (∀ job ∈ (of operations).table.jobs,
        ((Operation.wait job.id).apply (of operations).table).1 = [job]) ∧
      ∀ operation : Operation Handle,
        (operation.apply (of operations).table).1 =
            (of operations).table.jobs.filter operation.joins ∧
          (operation.apply (of operations).table).2.jobs =
            (of operations).table.jobs.filter (fun job => !operation.joins job) ++
              operation.started (of operations).table := by
  have accounted : (of operations).Accounted := foldl_accounted start_accounted operations
  refine ⟨accounted, accounted.sound.id_lt_nextId, ?_, ?_⟩
  · intro job hjob
    rw [Operation.apply_fst _ accounted.sound]
    exact accounted.sound.filter_id hjob
  · intro operation
    exact ⟨operation.apply_fst accounted.sound, operation.apply_snd_jobs _⟩

example :
    (of [.spawn "a" 7, .spawn "b" 8, .reap (· == 7), .spawn "c" 9]).table.jobs.map Job.id = [2, 3] ∧
      (of [.spawn "a" 7, .waitAll, .spawn "b" 8]).table.jobs.map Job.id = [1] := by
  decide

end History

end JobTable

end Conch
