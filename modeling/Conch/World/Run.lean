import Conch.World.Kernel

/-!
# Running side by side

A main program and the tasks that were started beside it share one kernel.  A
program runs until it has to wait; then the next one gets its turn.  The console is
read only when no program can go on without it, and the run is over when every
program is done or waits.  Calls are performed by the surroundings, which may be a
disk in memory or the real system.
-/

namespace Conch

/-- What one step of a program comes to. -/
inductive Move (α : Type) : Type 1 where
  | ended
  | blocked
  | moved (kernel : Kernel) (next : Proc α)
  | started (isJob : Bool) (task : Proc Outcome) (next : TaskId → Proc α)
  | outside (c : Call) (resume : c.Reply → Kernel × Proc α)

/-- One step of a program. -/
def Proc.move {α : Type} (kernel : Kernel) (tasks : Tasks) : Proc α → Move α
  | .done _ => .ended
  | .iterate body start k =>
      .moved kernel ((body start).bind fun
        | .inl next => .iterate body next k
        | .inr last => k last)
  | .fork isJob task k => .started isJob task k
  | .ask r k =>
      match kernel.attempt tasks r with
      | .served reply kernel => .moved kernel (k reply)
      | .blocked => .blocked
      | .advanced kernel => .moved kernel (.ask r k)
      | .outside c resume => .outside c (fun reply => ((resume reply).2, k (resume reply).1))

def Proc.result? {α : Type} : Proc α → Option α
  | .done a => some a
  | _ => none

structure Task where
  isJob : Bool
  proc : Proc Outcome

/-- Whose turn it is: the main program's, or a task's. -/
inductive Turn where
  | main
  | task (id : TaskId)
  deriving DecidableEq, Repr

structure World (α : Type) where
  kernel : Kernel
  main : Proc α
  /-- All tasks that were started, the ended ones included. -/
  tasks : Shelf Task
  /-- The programs that have not ended, in the order of their turns. -/
  turns : List Turn

/-- What one turn comes to. -/
inductive World.Step (α : Type) : Type 1 where
  | ended
  | blocked
  | next (world : World α)
  | outside (c : Call) (resume : c.Reply → World α)

namespace World

variable {α : Type}

def start (main : Proc α) : World α := ⟨.new, main, .empty, [.main]⟩

def status (world : World α) : Tasks where
  outcome? id := (world.tasks.get? id).bind (fun task => task.proc.result?)
  unfinishedJobs _ := world.tasks.countP (fun task => task.isJob && task.proc.result?.isNone)

/-- Starts a task and gives its number. -/
def addTask (world : World α) (isJob : Bool) (task : Proc Outcome) : TaskId × World α :=
  let (id, tasks) := world.tasks.push ⟨isJob, task⟩
  (id, { world with tasks := tasks, turns := world.turns ++ [.task id] })

/-- The world after a move of one program, which goes back to where it came from. -/
def follow {β : Type} (world : World α) (put : World α → Proc β → World α) : Move β → Step α
  | .ended => .ended
  | .blocked => .blocked
  | .moved kernel next => .next (put { world with kernel } next)
  | .started isJob task next =>
      let (id, world) := world.addTask isJob task
      .next (put world (next id))
  | .outside c resume =>
      .outside c fun reply =>
        let (kernel, next) := resume reply
        put { world with kernel } next

def step (world : World α) : Turn → Step α
  | .main =>
      world.follow (fun world next => { world with main := next })
        (world.main.move world.kernel world.status)
  | .task id =>
      match world.tasks.get? id with
      | none => .ended
      | some task =>
          world.follow
            (fun world next =>
              { world with tasks := world.tasks.set id { task with proc := next } })
            (task.proc.move world.kernel world.status)

/-- Lets the program whose turn it is wait for its next one. -/
def rotate (world : World α) : World α :=
  match world.turns with
  | [] => world
  | turn :: others => { world with turns := others ++ [turn] }

/-- Runs for so many steps; `waiting` programs in a row had to wait.  Once all have waited, the
console is read, and once all have waited again, the run is over.  The result is that of the main
program, if it came to an end. -/
def run {m : Type → Type} [Monad m] (perform : (c : Call) → m c.Reply) :
    Nat → World α → Nat → m (Option α)
  | 0, world, _ => pure world.main.result?
  | steps + 1, world, waiting =>
      match world.turns with
      | [] => pure world.main.result?
      | turn :: others =>
          match world.step turn with
          | .ended => run perform steps { world with turns := others } waiting
          | .blocked =>
              if 2 * world.turns.length ≤ waiting then pure world.main.result?
              else run perform steps world.rotate (waiting + 1)
          | .next world => run perform steps world 0
          | .outside c resume =>
              if c.readsConsole && waiting < world.turns.length then
                run perform steps world.rotate (waiting + 1)
              else do run perform steps (resume (← perform c)) 0

/-- More steps than any run takes. -/
def maxSteps : Nat := 0x1000000000000000

end World

/-- Runs a program until it and the tasks it started are done or wait. -/
def Proc.run {m : Type → Type} [Monad m] (perform : (c : Call) → m c.Reply) {α : Type}
    (main : Proc α) : m (Option α) :=
  World.run perform World.maxSteps (.start main) 0

end Conch
