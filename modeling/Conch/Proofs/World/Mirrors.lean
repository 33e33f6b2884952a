import Conch.Proofs.Effect.Mirrors
import Conch.World.Run

/-!
# Worlds that mirror each other

What a task ended with is what its joins get, so in a world whose programs keep a promise
about the ends of tasks it is also kept by the replies (`attempt_admits`).  Worlds of
programs that mirror each other make the same steps: whatever the calls outside reply,
and in whatever order the programs have their turns, the promise holds in every world
that is reached (`Keeps.reaches`), and the runs are the same (`Mirrors.runsLike`).
-/

namespace Conch

/-! ## Shelves -/

/-- Shelves have as many things that satisfy conditions if these are the same number by number. -/
theorem Shelf.countP_congr {α β : Type 1} {shelf : Shelf α} {other : Shelf β} {p : α → Bool}
    {q : β → Bool} (h : ∀ id, (shelf.get? id).map p = (other.get? id).map q) :
    shelf.countP p = other.countP q := by
  have hcount : ∀ {γ : Type 1} (shelf : Shelf γ) (r : γ → Bool), shelf.countP r =
      (shelf.items.map fun _ a => r a).foldl (fun n _ b => if b then n + 1 else n) 0 := by
    intro γ shelf r
    rw [countP, Std.TreeMap.foldl_eq_foldl_toList, Std.TreeMap.foldl_eq_foldl_toList,
      Std.TreeMap.toList_map, List.foldl_map]
  rw [hcount, hcount]
  refine Std.TreeMap.Equiv.foldl_eq (.of_forall_constGet?_eq fun id => ?_)
  simpa [get?] using h id

/-! ## Moves -/

section

variable {promise : Outcome → Prop} {α : Type} {P : α → Prop} {p q : Proc α}

/-- A reply of the kernel is one to expect, if the tasks that ended kept the promise. -/
theorem Kernel.attempt_admits {kernel : Kernel} {tasks : Tasks}
    (htasks : ∀ id outcome, tasks.outcome? id = some outcome → promise outcome) (r : Request) :
    (∀ reply next, kernel.attempt tasks r = .served reply next → r.Admits promise reply) ∧
      ∀ c resume, kernel.attempt tasks r = .outside c resume →
        ∀ reply, r.Admits promise (resume reply).1 := by
  cases r with
  | join task =>
      cases houtcome : tasks.outcome? task with
      | none =>
          rw [attempt, houtcome]
          exact ⟨fun _ _ h => (nomatch h), fun _ _ h => nomatch h⟩
      | some outcome =>
          rw [attempt, houtcome]
          refine ⟨fun reply next h => ?_, fun _ _ h => nomatch h⟩
          cases h
          exact htasks task outcome houtcome
  | _ => exact ⟨fun _ _ _ => trivial, fun _ _ _ _ => trivial⟩

theorem Proc.Mirrors.result? (h : p.Mirrors promise P q) : p.result? = q.result? := by
  cases h <;> rfl

theorem Proc.Mirrors.of_result? (h : p.Mirrors promise P q) {a : α} (ha : p.result? = some a) :
    P a := by
  cases h with
  | done h =>
      cases ha
      exact h
  | _ => cases ha

/-- Moves of programs that mirror each other. -/
inductive Move.Mirrors (promise : Outcome → Prop) (P : α → Prop) : Move α → Move α → Prop where
  | ended : Mirrors promise P .ended .ended
  | blocked : Mirrors promise P .blocked .blocked
  | moved {kernel : Kernel} {p q : Proc α} (h : p.Mirrors promise P q) :
      Mirrors promise P (.moved kernel p) (.moved kernel q)
  | started {isJob : Bool} {task task' : Proc Outcome} {k k' : TaskId → Proc α}
      (htask : task.Mirrors promise promise task') (h : ∀ id, (k id).Mirrors promise P (k' id)) :
      Mirrors promise P (.started isJob task k) (.started isJob task' k')
  | outside {c : Call} {resume resume' : c.Reply → Kernel × Proc α}
      (hkernel : ∀ reply, (resume reply).1 = (resume' reply).1)
      (h : ∀ reply, (resume reply).2.Mirrors promise P (resume' reply).2) :
      Mirrors promise P (.outside c resume) (.outside c resume')

theorem Proc.Mirrors.move (h : p.Mirrors promise P q) (kernel : Kernel) {tasks : Tasks}
    (htasks : ∀ id outcome, tasks.outcome? id = some outcome → promise outcome) :
    (p.move kernel tasks).Mirrors promise P (q.move kernel tasks) := by
  cases h with
  | done h => exact .ended
  | fork htask h => exact .started htask h
  | iterate hstart hbody h =>
      refine .moved ((hbody _ hstart).bind fun round hround => ?_)
      cases round with
      | inl next => exact .iterate hround hbody h
      | inr last => exact h last hround
  | @ask _ _ r k k' h =>
      obtain ⟨hserved, houtside⟩ := kernel.attempt_admits htasks r
      rw [Proc.move, Proc.move]
      cases hattempt : kernel.attempt tasks r with
      | served reply next => exact .moved (h reply (hserved reply next hattempt))
      | blocked => exact .blocked
      | advanced next => exact .moved (.ask h)
      | outside c resume =>
          exact .outside (fun _ => rfl) fun reply => h _ (houtside c resume hattempt reply)

/-! ## Worlds -/

/-- Tasks of the same kind whose programs mirror each other. -/
structure Task.Mirrors (promise : Outcome → Prop) (task other : Task) : Prop where
  isJob : task.isJob = other.isJob
  proc : task.proc.Mirrors promise promise other.proc

/-- Worlds with the same objects and turns, whose programs mirror each other. -/
structure World.Mirrors (promise : Outcome → Prop) (P : α → Prop) (world other : World α) :
    Prop where
  kernel : world.kernel = other.kernel
  turns : world.turns = other.turns
  main : world.main.Mirrors promise P other.main
  next : world.tasks.next = other.tasks.next
  tasks : ∀ id, Option.Rel (Task.Mirrors promise) (world.tasks.get? id) (other.tasks.get? id)

/-- Steps to worlds that mirror each other. -/
inductive World.Step.Mirrors (promise : Outcome → Prop) (P : α → Prop) :
    World.Step α → World.Step α → Prop where
  | ended : Mirrors promise P .ended .ended
  | blocked : Mirrors promise P .blocked .blocked
  | next {world other : World α} (h : world.Mirrors promise P other) :
      Mirrors promise P (.next world) (.next other)
  | outside {c : Call} {resume resume' : c.Reply → World α}
      (h : ∀ reply, (resume reply).Mirrors promise P (resume' reply)) :
      Mirrors promise P (.outside c resume) (.outside c resume')

namespace World

variable {world other : World α}

namespace Mirrors

/-- What is read of a task is the same of both. -/
theorem bind_get? (h : world.Mirrors promise P other) {β : Type} {f : Task → Option β}
    (hf : ∀ task task', task.Mirrors promise task' → f task = f task') (id : TaskId) :
    (world.tasks.get? id).bind f = (other.tasks.get? id).bind f := by
  have hrel := h.tasks id
  generalize world.tasks.get? id = task, other.tasks.get? id = task' at hrel
  cases hrel with
  | none => rfl
  | some hrel => exact hf _ _ hrel

theorem status (h : world.Mirrors promise P other) : world.status = other.status := by
  have hresult : ∀ id, (world.tasks.get? id).bind (fun task => task.proc.result?) =
      (other.tasks.get? id).bind fun task => task.proc.result? :=
    h.bind_get? fun task task' hrel => hrel.proc.result?
  have hjob : ∀ task task' : Task, task.Mirrors promise task' →
      (task.isJob && task.proc.result?.isNone) = (task'.isJob && task'.proc.result?.isNone) :=
    fun task task' hrel => by rw [hrel.isJob, hrel.proc.result?]
  have hjobs : world.tasks.countP (fun task => task.isJob && task.proc.result?.isNone) =
      other.tasks.countP fun task => task.isJob && task.proc.result?.isNone := by
    refine Shelf.countP_congr fun id => ?_
    rw [Option.map_eq_bind, Option.map_eq_bind]
    exact h.bind_get? (fun task task' hrel => congrArg some (hjob task task' hrel)) id
  simp only [World.status, hresult, hjobs]

theorem left (h : world.Mirrors promise P other) : world.Mirrors promise P world where
  kernel := rfl
  turns := rfl
  main := h.main.left
  next := rfl
  tasks id := by
    have hrel := h.tasks id
    generalize world.tasks.get? id = task, other.tasks.get? id = task' at hrel
    cases hrel with
    | none => exact .none
    | some hrel => exact .some ⟨rfl, hrel.proc.left⟩

/-- A task that ended kept the promise. -/
theorem outcome (h : world.Mirrors promise P other) (id : TaskId) (outcome : Outcome)
    (houtcome : world.status.outcome? id = some outcome) : promise outcome := by
  obtain ⟨task, htask, hresult⟩ := Option.bind_eq_some_iff.mp houtcome
  have hrel := h.left.tasks id
  rw [htask] at hrel
  cases hrel with
  | some hrel => exact hrel.proc.of_result? hresult

theorem setTask (h : world.Mirrors promise P other) (id : TaskId) {task task' : Task}
    (htask : task.Mirrors promise task') :
    Mirrors promise P { world with tasks := world.tasks.set id task }
      { other with tasks := other.tasks.set id task' } where
  kernel := h.kernel
  turns := h.turns
  main := h.main
  next := h.next
  tasks number := by
    by_cases hnumber : number = id
    · subst hnumber
      rw [Shelf.get?_set, Shelf.get?_set]
      exact .some htask
    · rw [Shelf.get?_set_of_ne _ _ hnumber, Shelf.get?_set_of_ne _ _ hnumber]
      exact h.tasks number

theorem addTask (h : world.Mirrors promise P other) (isJob : Bool) {task task' : Proc Outcome}
    (htask : task.Mirrors promise promise task') :
    (world.addTask isJob task).1 = (other.addTask isJob task').1 ∧
      (world.addTask isJob task).2.Mirrors promise P (other.addTask isJob task').2 := by
  refine ⟨h.next, h.kernel, ?_, h.main, congrArg (· + 1) h.next, fun number => ?_⟩
  · change world.turns ++ [.task world.tasks.next] = other.turns ++ [.task other.tasks.next]
    rw [h.turns, h.next]
  · change Option.Rel _ ((world.tasks.push ⟨isJob, task⟩).2.get? number)
      ((other.tasks.push ⟨isJob, task'⟩).2.get? number)
    by_cases hnumber : number = world.tasks.next
    · subst hnumber
      have hworld : (world.tasks.push ⟨isJob, task⟩).2.get? world.tasks.next =
          some ⟨isJob, task⟩ := Shelf.get?_push ..
      have hother : (other.tasks.push ⟨isJob, task'⟩).2.get? other.tasks.next =
          some ⟨isJob, task'⟩ := Shelf.get?_push ..
      rw [hworld, h.next, hother]
      exact .some ⟨rfl, htask⟩
    · rw [Shelf.get?_push_of_ne _ _ hnumber, Shelf.get?_push_of_ne _ _ (h.next ▸ hnumber)]
      exact h.tasks number

/-- Programs that mirror each other are moved in the same way, and put back to where they were. -/
theorem follow {β : Type} {Q : β → Prop} (h : world.Mirrors promise P other)
    {put put' : World α → Proc β → World α}
    (hput : ∀ {world other : World α} {p q : Proc β}, world.Mirrors promise P other →
      p.Mirrors promise Q q → (put world p).Mirrors promise P (put' other q))
    {move move' : Move β} (hmove : move.Mirrors promise Q move') :
    (world.follow put move).Mirrors promise P (other.follow put' move') := by
  have hkernel : ∀ {kernel kernel' : Kernel}, kernel = kernel' →
      Mirrors promise P { world with kernel := kernel } { other with kernel := kernel' } :=
    fun hkernel => ⟨hkernel, h.turns, h.main, h.next, h.tasks⟩
  cases hmove with
  | ended => exact .ended
  | blocked => exact .blocked
  | moved hnext => exact .next (hput (hkernel rfl) hnext)
  | @started isJob task task' k k' htask hnext =>
      obtain ⟨hid, hadded⟩ := h.addTask isJob htask
      have hgoesOn : (k (world.addTask isJob task).1).Mirrors promise Q
          (k' (other.addTask isJob task').1) := hid ▸ hnext _
      exact .next (hput hadded hgoesOn)
  | outside hsame hnext =>
      exact .outside fun reply => hput (hkernel (hsame reply)) (hnext reply)

theorem step (h : world.Mirrors promise P other) (turn : Turn) :
    (world.step turn).Mirrors promise P (other.step turn) := by
  have hmove : ∀ {β : Type} {Q : β → Prop} {p q : Proc β}, p.Mirrors promise Q q →
      (p.move world.kernel world.status).Mirrors promise Q (q.move other.kernel other.status) := by
    intro β Q p q hp
    rw [← h.kernel, ← h.status]
    exact hp.move world.kernel h.outcome
  cases turn with
  | main =>
      have hput : ∀ {world other : World α} {p q : Proc α}, world.Mirrors promise P other →
          p.Mirrors promise P q →
          Mirrors promise P { world with main := p } { other with main := q } :=
        fun hworld hnext => ⟨hworld.kernel, hworld.turns, hnext, hworld.next, hworld.tasks⟩
      exact h.follow hput (hmove h.main)
  | task id =>
      have hrel := h.tasks id
      rw [World.step, World.step]
      generalize world.tasks.get? id = task, other.tasks.get? id = task' at hrel
      cases hrel with
      | none => exact .ended
      | @some task task' hrel =>
          have hput : ∀ {world other : World α} {p q : Proc Outcome},
              world.Mirrors promise P other → p.Mirrors promise promise q →
              Mirrors promise P { world with tasks := world.tasks.set id { task with proc := p } }
                { other with tasks := other.tasks.set id { task' with proc := q } } :=
            fun hworld hnext => hworld.setTask id ⟨hrel.isJob, hnext⟩
          exact h.follow hput (hmove hrel.proc)

theorem withTurns (h : world.Mirrors promise P other) (turns : List Turn) :
    Mirrors promise P { world with turns := turns } { other with turns := turns } :=
  ⟨h.kernel, rfl, h.main, h.next, h.tasks⟩

theorem start {p q : Proc α} (h : p.Mirrors promise P q) :
    (World.start p).Mirrors promise P (World.start q) :=
  ⟨rfl, rfl, h, rfl, fun id => by
    have hnone : (Shelf.empty : Shelf Task).get? id = none := by simp [Shelf.get?, Shelf.empty]
    change Option.Rel _ ((Shelf.empty : Shelf Task).get? id) ((Shelf.empty : Shelf Task).get? id)
    rw [hnone]
    exact .none⟩

/-- Whatever the surroundings do, worlds that mirror each other come to the same result. -/
theorem run {m : Type → Type} [Monad m] (perform : (c : Call) → m c.Reply) (steps : Nat)
    {world other : World α} (h : world.Mirrors promise P other) (waiting : Nat) :
    World.run perform steps world waiting = World.run perform steps other waiting := by
  induction steps generalizing world other waiting with
  | zero => exact congrArg _ h.main.result?
  | succ steps ih =>
      have hrotate : world.rotate.Mirrors promise P other.rotate := by
        rw [rotate, rotate, ← h.turns]
        cases world.turns with
        | nil => exact h
        | cons turn others => exact h.withTurns _
      rw [World.run, World.run, ← h.turns]
      cases world.turns with
      | nil => exact congrArg _ h.main.result?
      | cons turn others =>
          have hstep := h.step turn
          dsimp only
          generalize world.step turn = step, other.step turn = step' at hstep
          cases hstep with
          | ended => exact ih (h.withTurns others) waiting
          | blocked =>
              dsimp only
              rw [h.main.result?, ih hrotate]
          | next hnext => exact ih hnext 0
          | outside hresume =>
              dsimp only
              rw [ih hrotate]
              simp only [ih (hresume _)]

end Mirrors

/-! ## Worlds that are reached -/

/-- What a step comes to, whatever a call outside replies. -/
inductive Step.ComesTo : World.Step α → World α → Prop where
  | next {world : World α} : ComesTo (.next world) world
  | outside {c : Call} {resume : c.Reply → World α} (reply : c.Reply) :
      ComesTo (.outside c resume) (resume reply)

/-- The worlds that are reached from one, in whatever order the programs have their turns. -/
inductive Reaches (start : World α) : World α → Prop where
  | start : Reaches start start
  | turn {world next : World α} (turn : Turn) (h : Reaches start world)
      (hstep : (world.step turn).ComesTo next) : Reaches start next
  | reorder {world : World α} (turns : List Turn) (h : Reaches start world) :
      Reaches start { world with turns := turns }

/-- All that ended did so as promised. -/
structure Honours (promise : Outcome → Prop) (P : α → Prop) (world : World α) : Prop where
  tasks : ∀ id outcome, world.status.outcome? id = some outcome → promise outcome
  main : ∀ a, world.main.result? = some a → P a

theorem Mirrors.honours (h : world.Mirrors promise P other) : world.Honours promise P :=
  ⟨h.outcome, fun _ ha => h.main.of_result? ha⟩

theorem Honours.mono {promised : Outcome → Prop} {Q : α → Prop} (h : world.Honours promise P)
    (htasks : ∀ outcome, promise outcome → promised outcome) (hmain : ∀ a, P a → Q a) :
    world.Honours promised Q :=
  ⟨fun id outcome houtcome => htasks outcome (h.tasks id outcome houtcome),
    fun a ha => hmain a (h.main a ha)⟩

/-- Whatever one world comes to, the other can come to as well. -/
theorem Mirrors.reaches {start start' : World α} (h : start.Mirrors promise P start')
    (hreaches : start.Reaches world) :
    ∃ other, start'.Reaches other ∧ world.Mirrors promise P other := by
  induction hreaches with
  | start => exact ⟨start', .start, h⟩
  | @turn world next turn _ hstep ih =>
      obtain ⟨other, hother, hmirrors⟩ := ih
      have hturn := hmirrors.step turn
      have hfollow : ∀ next, (other.step turn).ComesTo next → start'.Reaches next := fun _ hnext =>
        .turn turn hother hnext
      generalize world.step turn = step, other.step turn = step' at hstep hturn hfollow
      cases hstep with
      | next =>
          cases hturn with
          | next hnext => exact ⟨_, hfollow _ .next, hnext⟩
      | outside reply =>
          cases hturn with
          | outside hnext => exact ⟨_, hfollow _ (.outside reply), hnext reply⟩
  | reorder turns _ ih =>
      obtain ⟨other, hother, hmirrors⟩ := ih
      exact ⟨_, .reorder turns hother, hmirrors.withTurns turns⟩

/-- What a run on surroundings that have a state gives is a result in a world that is reached. -/
theorem run_reaches {σ : Type} (perform : (c : Call) → StateM σ c.Reply) (steps : Nat)
    {start world : World α} (h : start.Reaches world) (waiting : Nat) {state state' : σ} {a : α}
    (hrun : (World.run perform steps world waiting).run state = (some a, state')) :
    ∃ final, start.Reaches final ∧ final.main.result? = some a := by
  induction steps generalizing world waiting state with
  | zero => exact ⟨world, h, (Prod.mk.inj hrun).1⟩
  | succ steps ih =>
      have hrotate : start.Reaches world.rotate := by
        rw [rotate]
        split
        · exact h
        · exact .reorder _ h
      rw [World.run] at hrun
      split at hrun
      · exact ⟨world, h, (Prod.mk.inj hrun).1⟩
      rename_i turn others _
      have hturn : ∀ next, (world.step turn).ComesTo next → start.Reaches next := fun _ hstep =>
        .turn turn h hstep
      generalize world.step turn = step at hrun hturn
      cases step with
      | ended => exact ih (.reorder others h) waiting hrun
      | blocked =>
          dsimp only at hrun
          split at hrun
          · exact ⟨world, h, (Prod.mk.inj hrun).1⟩
          · exact ih hrotate _ hrun
      | next world => exact ih (hturn world .next) _ hrun
      | outside c resume =>
          dsimp only at hrun
          split at hrun
          · exact ih hrotate _ hrun
          · exact ih (hturn _ (.outside (perform c state).1)) _ hrun

end World

/-- The worlds that the one program reaches mirror those that the other reaches, and whatever the
surroundings do, runs of both give the same. -/
def Proc.RunsLike (promise : Outcome → Prop) (P : α → Prop) (p q : Proc α) : Prop :=
  (∀ world, (World.start p).Reaches world →
    ∃ other, (World.start q).Reaches other ∧ world.Mirrors promise P other) ∧
  ∀ (m : Type → Type) [Monad m] (perform : (c : Call) → m c.Reply) (steps : Nat),
    World.run perform steps (.start p) 0 = World.run perform steps (.start q) 0

theorem Proc.Mirrors.runsLike (h : p.Mirrors promise P q) : p.RunsLike promise P q := by
  have hmirrors := World.Mirrors.start h
  exact ⟨fun _ hreaches => hmirrors.reaches hreaches,
    fun _ _ perform steps => hmirrors.run perform steps 0⟩

/-- A promise that a program keeps while it is kept holds in every world that is reached. -/
theorem Proc.Keeps.reaches (h : p.Keeps promise P) {world : World α}
    (hreaches : (World.start p).Reaches world) : world.Honours promise P := by
  obtain ⟨_, _, hmirrors⟩ := (World.Mirrors.start h).reaches hreaches
  exact hmirrors.honours

end

end Conch
