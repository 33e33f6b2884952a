import Conch.Proofs.Effect.Trees
import Conch.Proofs.World.Mirrors

/-!
# Chronicles of worlds

In every world that is reached the main program has come as far as some log of exchanges
tells, and the world bears the log out: a task that was started is there under its number,
as far as its own program has come, and what a join brought is what the task ended with
(`World.Reaches.chronicle`).  So a finished run of the main program is a run in the sense
of its log, and the outcomes in the log are those of the tasks.
-/

namespace Conch

/-! ## Programs -/

namespace Proc

/-- The program goes through the exchanges of the log and has then come to the other one. -/
inductive Goes {α : Type} : Proc α → List Exchange → Proc α → Prop where
  | here (p : Proc α) : Goes p [] p
  | ask {r : Request} {k : r.Reply → Proc α} {reply : r.Reply} {log : List Exchange} {q : Proc α}
      (h : Goes (k reply) log q) : Goes (.ask r k) (.asked r reply :: log) q
  | fork {isJob : Bool} {task : Proc Outcome} {k : TaskId → Proc α} {id : TaskId}
      {log : List Exchange} {q : Proc α} (h : Goes (k id) log q) :
      Goes (.fork isJob task k) (.started isJob task id :: log) q
  | iterate {σ τ : Type} {body : σ → Proc (σ ⊕ τ)} {start : σ} {k : τ → Proc α}
      {log : List Exchange} {q : Proc α} (h : Goes ((body start).bind (again body k)) log q) :
      Goes (.iterate body start k) log q

section

variable {α : Type} {p q : Proc α} {log rest : List Exchange}

theorem Goes.trans {last : Proc α} (h : p.Goes log q) (hrest : q.Goes rest last) :
    p.Goes (log ++ rest) last := by
  induction h with
  | here => exact hrest
  | ask _ ih => exact .ask (ih hrest)
  | fork _ ih => exact .fork (ih hrest)
  | iterate _ ih => exact .iterate (ih hrest)

/-- A program that is done goes nowhere. -/
theorem Goes.of_done {a : α} (h : (done a).Goes log q) : log = [] ∧ q = .done a := by
  cases h
  exact ⟨rfl, rfl⟩

/-- The first round of a repetition and what follows it. -/
theorem runs_of_again {σ τ : Type} {body : σ → Proc (σ ⊕ τ)} {start : σ} {k : τ → Proc α} {a : α}
    (h : ((body start).bind (again body k)).Runs log a) : (iterate body start k).Runs log a := by
  obtain ⟨round, first, rest, rfl, hfirst, hrest⟩ := runs_bind.mp h
  cases round with
  | inl next =>
      obtain ⟨last, rounds, rest, rfl, hrounds, hlast⟩ := hrest
      exact ⟨last, first ++ rounds, rest, (List.append_assoc ..).symm, .again hfirst hrounds, hlast⟩
  | inr last => exact ⟨last, first, rest, rfl, .stop hfirst, hrest⟩

theorem Goes.runs {a : α} (h : p.Goes log (.done a)) : p.Runs log a := by
  generalize hlast : Proc.done a = last at h
  induction h with
  | here =>
      subst hlast
      exact ⟨rfl, rfl⟩
  | ask _ ih => exact ⟨_, _, rfl, ih hlast⟩
  | fork _ ih => exact ⟨_, _, rfl, ih hlast⟩
  | iterate _ ih => exact runs_of_again (ih hlast)

end

end Proc

/-! ## Replies -/

/-- What the reply says of a task holds. -/
def Request.Answered (tasks : Tasks) : (r : Request) → r.Reply → Prop
  | .join task, outcome => tasks.outcome? task = some outcome
  | .isFinished task, reply => reply = true → (tasks.outcome? task).isSome = true
  | _, _ => True

section

variable {kernel : Kernel} {tasks : Tasks}

theorem Kernel.answered_of_served {r : Request} {reply : r.Reply} {next : Kernel}
    (h : kernel.attempt tasks r = .served reply next) : r.Answered tasks reply := by
  cases r with
  | join task =>
      rw [attempt] at h
      split at h
      · rename_i outcome houtcome
        cases h
        exact houtcome
      · cases h
  | isFinished task =>
      cases h
      exact id
  | _ => trivial

theorem Kernel.answered_of_outside {r : Request} {c : Call} {resume : c.Reply → r.Reply × Kernel}
    (h : kernel.attempt tasks r = .outside c resume) (reply : c.Reply) :
    r.Answered tasks (resume reply).1 := by
  cases r with
  | join task =>
      rw [attempt] at h
      split at h <;> cases h
  | isFinished task => cases h
  | _ => trivial

end

/-! ## Worlds -/

section

variable {α : Type} {world middle next : World α} {log rest : List Exchange}

/-- No task has a number that was not given yet. -/
def World.Numbered (world : World α) : Prop :=
  ∀ id task, world.tasks.get? id = some task → id < world.tasks.next

/-- Every task is still there, as far as its program has come. -/
def World.Advances (world next : World α) : Prop :=
  ∀ id task, world.tasks.get? id = some task →
    ∃ log proc, next.tasks.get? id = some ⟨task.isJob, proc⟩ ∧ task.proc.Goes log proc

/-- The world agrees with what an exchange says of a task. -/
def Exchange.BorneOut (world : World α) : Exchange → Prop
  | .asked r reply => r.Answered world.status reply
  | .started isJob program id =>
      ∃ log proc, world.tasks.get? id = some ⟨isJob, proc⟩ ∧ program.Goes log proc

/-- The main program goes through the exchanges of the log, and the world that is come to bears
them out. -/
structure World.Goes (world : World α) (log : List Exchange) (next : World α) : Prop where
  main : world.main.Goes log next.main
  tasks : world.Advances next
  bears : ∀ exchange ∈ log, exchange.BorneOut next

namespace World

theorem Advances.refl (world : World α) : world.Advances world :=
  fun _ task htask => ⟨[], task.proc, htask, .here _⟩

theorem Advances.trans (h : world.Advances middle) (hrest : middle.Advances next) :
    world.Advances next := by
  intro id task htask
  obtain ⟨log, proc, hproc, hgoes⟩ := h id task htask
  obtain ⟨rest, last, hlast, hmore⟩ := hrest id _ hproc
  exact ⟨log ++ rest, last, hlast, hgoes.trans hmore⟩

/-- What ended stays as it ended. -/
theorem Advances.outcome? (h : world.Advances next) {id : TaskId} {outcome : Outcome}
    (houtcome : world.status.outcome? id = some outcome) :
    next.status.outcome? id = some outcome := by
  obtain ⟨task, htask, hresult⟩ := Option.bind_eq_some_iff.mp houtcome
  obtain ⟨log, proc, hproc, hgoes⟩ := h id task htask
  obtain ⟨isJob, program⟩ := task
  cases program with
  | done ended =>
      obtain ⟨_, rfl⟩ := hgoes.of_done
      exact Option.bind_eq_some_iff.mpr ⟨_, hproc, hresult⟩
  | _ => cases hresult

end World

theorem Exchange.BorneOut.mono {exchange : Exchange} (h : exchange.BorneOut world)
    (hadvances : world.Advances next) : exchange.BorneOut next := by
  cases exchange with
  | started isJob program id =>
      obtain ⟨log, proc, hproc, hgoes⟩ := h
      obtain ⟨rest, last, hlast, hmore⟩ := hadvances id _ hproc
      exact ⟨log ++ rest, last, hlast, hgoes.trans hmore⟩
  | asked r reply =>
      cases r with
      | join task => exact hadvances.outcome? h
      | isFinished task =>
          intro hreply
          obtain ⟨outcome, houtcome⟩ := Option.isSome_iff_exists.mp (h hreply)
          exact Option.isSome_iff_exists.mpr ⟨outcome, hadvances.outcome? houtcome⟩
      | _ => trivial

namespace World

theorem bears_nil (exchange : Exchange) (hmem : exchange ∈ []) : exchange.BorneOut world :=
  absurd hmem List.not_mem_nil

theorem Goes.refl (world : World α) : world.Goes [] world :=
  ⟨.here _, .refl world, bears_nil⟩

theorem Goes.trans (h : world.Goes log middle) (hrest : middle.Goes rest next) :
    world.Goes (log ++ rest) next where
  main := h.main.trans hrest.main
  tasks := h.tasks.trans hrest.tasks
  bears exchange hmem := by
    rcases List.mem_append.mp hmem with hfirst | hlater
    · exact (h.bears exchange hfirst).mono hrest.tasks
    · exact hrest.bears exchange hlater

/-! ### Steps -/

/-- The new task has a number of its own. -/
theorem addTask_get? (isJob : Bool) (program : Proc Outcome) :
    (world.addTask isJob program).2.tasks.get? (world.addTask isJob program).1 =
      some ⟨isJob, program⟩ := Shelf.get?_push ..

theorem Numbered.get?_addTask (numbered : world.Numbered) (isJob : Bool) (program : Proc Outcome)
    {id : TaskId} {task : Task} (htask : world.tasks.get? id = some task) :
    (world.addTask isJob program).2.tasks.get? id = some task := by
  have hold : id ≠ world.tasks.next := Nat.ne_of_lt (numbered id task htask)
  exact (Shelf.get?_push_of_ne _ _ hold).trans htask

theorem Numbered.addTask (numbered : world.Numbered) (isJob : Bool) (program : Proc Outcome) :
    (world.addTask isJob program).2.Numbered := by
  intro id task htask
  by_cases hid : id = world.tasks.next
  · rw [hid]
    exact Nat.lt_succ_self _
  · have hold : world.tasks.get? id = some task := (Shelf.get?_push_of_ne _ _ hid).symm.trans htask
    exact Nat.lt_succ_of_lt (numbered id task hold)

theorem Numbered.setTask (numbered : world.Numbered) {id : TaskId} {task : Task}
    (htask : world.tasks.get? id = some task) (other : Task) :
    Numbered { world with tasks := world.tasks.set id other } := by
  intro number found hfound
  by_cases hnumber : number = id
  · rw [hnumber]
    exact numbered id task htask
  · exact numbered number found ((Shelf.get?_set_of_ne _ _ hnumber).symm.trans hfound)

/-- What is done around one step of a program: a task may be added. -/
structure Makes (world middle : World α) : Prop where
  numbered : middle.Numbered
  main : middle.main = world.main
  tasks : ∀ id task, world.tasks.get? id = some task → middle.tasks.get? id = some task

theorem Makes.withKernel (numbered : world.Numbered) (kernel : Kernel) :
    world.Makes { world with kernel } := ⟨numbered, rfl, fun _ _ htask => htask⟩

/-- A step of a program goes through one exchange at most. -/
theorem goes_of_follow {β : Type} {p : Proc β} {put : World α → Proc β → World α}
    (numbered : world.Numbered)
    (hstep : (world.follow put (p.move world.kernel world.status)).ComesTo next) :
    ∃ middle log q, next = put middle q ∧ world.Makes middle ∧ p.Goes log q ∧
      ∀ exchange ∈ log, exchange.BorneOut middle := by
  cases p with
  | done a => cases hstep
  | iterate body start k =>
      cases hstep
      have hround := Proc.Goes.here ((body start).bind (Proc.again body k))
      exact ⟨_, [], _, by rfl, .withKernel numbered _, .iterate hround, bears_nil⟩
  | fork isJob task k =>
      cases hstep
      refine ⟨(world.addTask isJob task).2, [.started isJob task (world.addTask isJob task).1], _,
        rfl, ?_, .fork (.here _), ?_⟩
      · exact ⟨numbered.addTask isJob task, rfl, fun _ _ => numbered.get?_addTask isJob task⟩
      · intro exchange hmem
        rw [List.mem_singleton.mp hmem]
        exact ⟨[], task, addTask_get? isJob task, .here _⟩
  | ask r k =>
      rw [Proc.move] at hstep
      cases hattempt : world.kernel.attempt world.status r with
      | served reply kernel =>
          rw [hattempt] at hstep
          cases hstep
          refine ⟨_, [.asked r reply], _, rfl, .withKernel numbered _, .ask (.here _), ?_⟩
          intro exchange hmem
          rw [List.mem_singleton.mp hmem]
          exact Kernel.answered_of_served hattempt
      | blocked =>
          rw [hattempt] at hstep
          cases hstep
      | advanced kernel =>
          rw [hattempt] at hstep
          cases hstep
          exact ⟨_, [], _, rfl, .withKernel numbered _, .here _, bears_nil⟩
      | outside c resume =>
          rw [hattempt] at hstep
          cases hstep with
          | outside reply =>
              refine ⟨_, [.asked r (resume reply).1], _, rfl, .withKernel numbered _,
                .ask (.here _), ?_⟩
              intro exchange hmem
              rw [List.mem_singleton.mp hmem]
              exact Kernel.answered_of_outside hattempt reply

theorem goes_of_step (numbered : world.Numbered) {turn : Turn}
    (hstep : (world.step turn).ComesTo next) : next.Numbered ∧ ∃ log, world.Goes log next := by
  cases turn with
  | main =>
      rw [World.step] at hstep
      obtain ⟨middle, log, q, rfl, hmakes, hgoes, hbears⟩ := goes_of_follow numbered hstep
      refine ⟨hmakes.numbered, log, hgoes, ?_, hbears⟩
      exact fun id task htask => ⟨[], task.proc, hmakes.tasks id task htask, .here _⟩
  | task id =>
      rw [World.step] at hstep
      cases htask : world.tasks.get? id with
      | none =>
          rw [htask] at hstep
          cases hstep
      | some task =>
          rw [htask] at hstep
          obtain ⟨middle, log, q, rfl, hmakes, hgoes, _⟩ := goes_of_follow numbered hstep
          refine ⟨hmakes.numbered.setTask (hmakes.tasks id task htask) _, [], ?_, ?_, bears_nil⟩
          · rw [← hmakes.main]
            exact .here _
          · intro number found hfound
            by_cases hnumber : number = id
            · subst hnumber
              obtain rfl : task = found := Option.some.inj (htask.symm.trans hfound)
              exact ⟨log, q, Shelf.get?_set .., hgoes⟩
            · have hsame := hmakes.tasks number found hfound
              rw [← Shelf.get?_set_of_ne _ _ hnumber] at hsame
              exact ⟨[], found.proc, hsame, .here _⟩

/-- A world that is reached has a chronicle. -/
theorem Reaches.chronicle {start : World α} (numbered : start.Numbered) (h : start.Reaches world) :
    world.Numbered ∧ ∃ log, start.Goes log world := by
  induction h with
  | start => exact ⟨numbered, [], .refl start⟩
  | turn turn _ hstep ih =>
      obtain ⟨hnumbered, log, hgoes⟩ := ih
      obtain ⟨hnext, more, hmore⟩ := goes_of_step hnumbered hstep
      exact ⟨hnext, log ++ more, hgoes.trans hmore⟩
  | reorder turns _ ih =>
      obtain ⟨hnumbered, log, hgoes⟩ := ih
      exact ⟨hnumbered, log, hgoes.main, hgoes.tasks, hgoes.bears⟩

theorem start_numbered (p : Proc α) : (World.start p).Numbered := by
  intro id task htask
  have hnone : (Shelf.empty : Shelf Task).get? id = none := by simp [Shelf.get?, Shelf.empty]
  cases hnone.symm.trans htask

end World

end

end Conch
