import Conch.Proofs.Effect.Trees
import Conch.Tools.Feeder
import Conch.World.Run

/-!
# Worlds with files

The programs of a world make their steps in any order.  The calls considered here are reads
of files, each of which gives as many of the bytes that are left as it likes, or fails.
-/

namespace Conch

open Text (Bytes)

/-! ## Moves -/

/-- What a program does next, with the objects and files after it. -/
inductive Move.Leads {α : Type} (files : Descriptor → Bytes) (move : Move α) :
    Kernel → (Descriptor → Bytes) → Proc α → Prop where
  | moved {kernel : Kernel} {next : Proc α} (h : move = .moved kernel next) :
      Leads files move kernel files next
  | given {file : Descriptor} {limit : Nat} {given later : Bytes}
      {resume : Except FileError Bytes → Kernel × Proc α}
      (h : move = .outside (.read file limit) resume) (hfile : files file = given ++ later) :
      Leads files move (resume (.ok given)).1
        (fun other => if other = file then later else files other) (resume (.ok given)).2
  | failed {file : Descriptor} {limit : Nat} {resume : Except FileError Bytes → Kernel × Proc α}
      (h : move = .outside (.read file limit) resume) (e : FileError) :
      Leads files move (resume (.error e)).1 files (resume (.error e)).2

namespace Move

variable {α : Type} {files files' : Descriptor → Bytes} {kernel kernel' served : Kernel}
  {tasks : Tasks} {next : Proc α}

/-- A request that is served leads to one place. -/
theorem Leads.of_served {r : Request} {reply : r.Reply} {k : r.Reply → Proc α}
    (h : ((Proc.ask r k).move kernel tasks).Leads files kernel' files' next)
    (hattempt : kernel.attempt tasks r = .served reply served) :
    kernel' = served ∧ files' = files ∧ next = k reply := by
  have hmove : (Proc.ask r k).move kernel tasks = .moved served (k reply) := by
    rw [Proc.move, hattempt]
  rw [hmove] at h
  cases h with
  | moved h =>
      cases h
      exact ⟨rfl, rfl, rfl⟩
  | given h => cases h
  | failed h => cases h

/-- A request that has to wait leads nowhere. -/
theorem Leads.of_blocked {r : Request} {k : r.Reply → Proc α}
    (h : ((Proc.ask r k).move kernel tasks).Leads files kernel' files' next)
    (hattempt : kernel.attempt tasks r = .blocked) : False := by
  have hmove : (Proc.ask r k).move kernel tasks = .blocked := by rw [Proc.move, hattempt]
  rw [hmove] at h
  cases h with
  | moved h => cases h
  | given h => cases h
  | failed h => cases h

/-- A read of a file gets some of its bytes, or an error. -/
theorem Leads.of_read {r : Request} {file : Descriptor} {limit : Nat} {k : r.Reply → Proc α}
    {resume : Except FileError Bytes → r.Reply × Kernel}
    (h : ((Proc.ask r k).move kernel tasks).Leads files kernel' files' next)
    (hattempt : kernel.attempt tasks r = .outside (.read file limit) resume) :
    (∃ given later, files file = given ++ later ∧ kernel' = (resume (.ok given)).2 ∧
        files' = (fun other => if other = file then later else files other) ∧
        next = k (resume (.ok given)).1) ∨
      ∃ e, kernel' = (resume (.error e)).2 ∧ files' = files ∧ next = k (resume (.error e)).1 := by
  have hmove : (Proc.ask r k).move kernel tasks =
      .outside (.read file limit) fun reply => ((resume reply).2, k (resume reply).1) := by
    rw [Proc.move, hattempt]
  rw [hmove] at h
  cases h with
  | moved h => cases h
  | given h hfile =>
      cases h
      exact .inl ⟨_, _, hfile, rfl, rfl, rfl⟩
  | failed h e =>
      cases h
      exact .inr ⟨e, rfl, rfl, rfl⟩

theorem Leads.of_done {a : α}
    (h : ((Proc.done a).move kernel tasks).Leads files kernel' files' next) : False := by
  cases h with
  | moved h => cases h
  | given h => cases h
  | failed h => cases h

/-- A repetition goes into its next round. -/
theorem Leads.of_iterate {σ τ : Type} {body : σ → Proc (σ ⊕ τ)} {start : σ} {k : τ → Proc α}
    (h : ((Proc.iterate body start k).move kernel tasks).Leads files kernel' files' next) :
    kernel' = kernel ∧ files' = files ∧ next = (body start).bind (Proc.again body k) := by
  cases h with
  | moved h =>
      cases h
      exact ⟨rfl, rfl, by rfl⟩
  | given h => cases h
  | failed h => cases h

/-- Only a fork starts a task. -/
theorem fork_of_started {p : Proc α} {isJob : Bool} {task : Proc Outcome} {k : TaskId → Proc α}
    (h : p.move kernel tasks = .started isJob task k) : p = .fork isJob task k := by
  cases p with
  | fork =>
      cases h
      rfl
  | done => cases h
  | iterate => cases h
  | ask r k =>
      rw [Proc.move] at h
      cases hattempt : kernel.attempt tasks r with
      | _ =>
          rw [hattempt] at h
          cases h

end Move

/-! ## Scenes -/

/-- What a turn comes to, with the files after it. -/
inductive World.Step.Leads {α : Type} (files : Descriptor → Bytes) (step : World.Step α) :
    World α → (Descriptor → Bytes) → Prop where
  | next {world : World α} (h : step = .next world) : Leads files step world files
  | given {file : Descriptor} {limit : Nat} {given later : Bytes}
      {resume : Except FileError Bytes → World α}
      (h : step = .outside (.read file limit) resume) (hfile : files file = given ++ later) :
      Leads files step (resume (.ok given)) fun other => if other = file then later else files other
  | failed {file : Descriptor} {limit : Nat} {resume : Except FileError Bytes → World α}
      (h : step = .outside (.read file limit) resume) (e : FileError) :
      Leads files step (resume (.error e)) files

/-- A world with what is left of each open file. -/
structure Scene (α : Type) where
  world : World α
  files : Descriptor → Bytes

namespace Scene

variable {α : Type} {scene next : Scene α} {world after : World α}
  {files files' : Descriptor → Bytes}

/-- What is left in its inputs. -/
def supply (scene : Scene α) : Supply := ⟨scene.world.kernel, scene.files⟩

/-- One of the programs has its turn, or the order of the turns is changed. -/
inductive Step (scene : Scene α) : Scene α → Prop where
  | turn (turn : Turn) {world : World α} {files : Descriptor → Bytes}
      (h : (scene.world.step turn).Leads scene.files world files) : Step scene ⟨world, files⟩
  | order (turns : List Turn) : Step scene ⟨{ scene.world with turns := turns }, scene.files⟩

/-- Steps one after the other, so that the programs have their turns in any order. -/
inductive Run (start : Scene α) : Scene α → Prop where
  | start : Run start start
  | step {scene next : Scene α} (h : Run start scene) (hstep : scene.Step next) : Run start next

/-- What a step changes: the program that had its turn, and the objects and files. -/
inductive Turned (scene : Scene α) : Scene α → Prop where
  | order (turns : List Turn) : Turned scene ⟨{ scene.world with turns := turns }, scene.files⟩
  | main {kernel : Kernel} {files : Descriptor → Bytes} {main : Proc α}
      (h : (scene.world.main.move scene.world.kernel scene.world.status).Leads scene.files
        kernel files main) :
      Turned scene ⟨{ scene.world with kernel := kernel, main := main }, files⟩
  | task {id : TaskId} {task : Task} {kernel : Kernel} {files : Descriptor → Bytes}
      {proc : Proc Outcome} (htask : scene.world.tasks.get? id = some task)
      (h : (task.proc.move scene.world.kernel scene.world.status).Leads scene.files
        kernel files proc) :
      Turned scene
        ⟨{ scene.world with
            kernel := kernel
            tasks := scene.world.tasks.set id { task with proc := proc } }, files⟩
  | mainStarts {isJob : Bool} {task : Proc Outcome} {k : TaskId → Proc α}
      (h : scene.world.main.move scene.world.kernel scene.world.status = .started isJob task k) :
      Turned scene
        ⟨{ (scene.world.addTask isJob task).2 with main := k (scene.world.addTask isJob task).1 },
          scene.files⟩
  | taskStarts {id : TaskId} {task : Task} {isJob : Bool} {started : Proc Outcome}
      {k : TaskId → Proc Outcome} (htask : scene.world.tasks.get? id = some task)
      (h : task.proc.move scene.world.kernel scene.world.status = .started isJob started k) :
      Turned scene
        ⟨{ (scene.world.addTask isJob started).2 with
            tasks := (scene.world.addTask isJob started).2.tasks.set id
              { task with proc := k (scene.world.addTask isJob started).1 } }, scene.files⟩

/-- A turn makes the move of the program that has it. -/
theorem leads_follow {β : Type} {put : World α → Proc β → World α} {move : Move β}
    (h : (world.follow put move).Leads files after files') :
    (∃ kernel next, move.Leads files kernel files' next ∧
        after = put { world with kernel := kernel } next) ∨
      ∃ isJob task k, move = .started isJob task k ∧ files' = files ∧
        after = put (world.addTask isJob task).2 (k (world.addTask isJob task).1) := by
  cases move with
  | moved kernel next =>
      cases h with
      | next h =>
          cases h
          exact .inl ⟨kernel, next, .moved rfl, rfl⟩
      | given h => cases h
      | failed h => cases h
  | started isJob task k =>
      cases h with
      | next h =>
          cases h
          exact .inr ⟨isJob, task, k, rfl, rfl, rfl⟩
      | given h => cases h
      | failed h => cases h
  | outside c resume =>
      cases h with
      | next h => cases h
      | given h hfile =>
          cases h
          exact .inl ⟨_, _, .given rfl hfile, rfl⟩
      | failed h e =>
          cases h
          exact .inl ⟨_, _, .failed rfl e, rfl⟩
  | _ =>
      cases h with
      | next h => cases h
      | given h => cases h
      | failed h => cases h

theorem Step.turned (h : scene.Step next) : scene.Turned next := by
  obtain ⟨world, files⟩ := scene
  cases h with
  | order turns => exact .order turns
  | turn turn h =>
      cases turn with
      | main =>
          rw [World.step] at h
          rcases leads_follow h with ⟨kernel, next, hmove, rfl⟩ | ⟨isJob, task, k, hmove, rfl, rfl⟩
          · exact .main hmove
          · exact .mainStarts hmove
      | task id =>
          rw [World.step] at h
          cases htask : world.tasks.get? id with
          | none =>
              rw [htask] at h
              cases h with
              | next h => cases h
              | given h => cases h
              | failed h => cases h
          | some task =>
              rw [htask] at h
              rcases leads_follow h with
                ⟨kernel, next, hmove, rfl⟩ | ⟨isJob, started, k, hmove, rfl, rfl⟩
              · exact .task htask hmove
              · exact .taskStarts htask hmove

end Scene

end Conch
