/-!
# Job tables

The background jobs of a shell by number.  Numbers grow while the table holds a job
and start again at one once it is empty.  What a table keeps of a running job is left
open: a handle by which its status can be had.
-/

namespace Conch

structure Job (Handle : Type) where
  id : Nat
  /-- The command as written, for listings. -/
  command : String
  handle : Handle
  deriving DecidableEq, Repr

/-- Jobs in the order of their numbers. -/
structure JobTable (Handle : Type) where
  jobs : List (Job Handle)
  /-- The number given last. -/
  lastId : Nat
  deriving DecidableEq, Repr

namespace JobTable

variable {Handle : Type}

def empty : JobTable Handle := ⟨[], 0⟩

instance : Inhabited (JobTable Handle) := ⟨empty⟩

/-- The number that the next job gets. -/
def nextId (table : JobTable Handle) : Nat :=
  if table.jobs.isEmpty then 1 else table.lastId + 1

def spawn (table : JobTable Handle) (command : String) (handle : Handle) :
    Nat × JobTable Handle :=
  (table.nextId, ⟨table.jobs ++ [⟨table.nextId, command, handle⟩], table.nextId⟩)

/-- Takes a job out of the table. -/
def take? (table : JobTable Handle) (id : Nat) : Option (Job Handle × JobTable Handle) :=
  (table.jobs.find? (fun job => job.id == id)).map fun job =>
    (job, { table with jobs := table.jobs.filter (fun other => other.id != id) })

/-- Takes all jobs out of the table, in order. -/
def takeAll (table : JobTable Handle) : List (Job Handle) × JobTable Handle :=
  (table.jobs, { table with jobs := [] })

/-- Takes the finished jobs out of the table. -/
def reap (table : JobTable Handle) (finished : Handle → Bool) :
    List (Job Handle) × JobTable Handle :=
  (table.jobs.filter (fun job => finished job.handle),
    { table with jobs := table.jobs.filter (fun job => !finished job.handle) })

@[simp] theorem spawn_fst (table : JobTable Handle) (command : String) (handle : Handle) :
    (table.spawn command handle).1 = table.nextId := rfl

@[simp] theorem spawn_jobs (table : JobTable Handle) (command : String) (handle : Handle) :
    (table.spawn command handle).2.jobs =
      table.jobs ++ [⟨table.nextId, command, handle⟩] := rfl

end JobTable

end Conch
