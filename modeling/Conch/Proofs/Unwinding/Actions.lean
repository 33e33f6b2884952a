import Conch.Proofs.Course.Statements
import Conch.Proofs.Shell.Prefixes

/-!
# Crashes and failures

A run in which an external command crashes is compared with the one in which the command fails
instead, for want of its streams.  Up to there both are the same, and from there on neither does
more than to end its tasks.  But the failing run takes back what was set up for the time that a
construct runs, and the crashing one does not.  So the difference is a list of scopes that the
crash leaves open (`Unwound`), and they lie in one another as the constructs do
(`Node.Encloses`).
-/

namespace Conch

open Syntax (Node Branch Arm)

/-! ## Open calls -/

/-- No call that was open is closed, and if no more are open, parameters were at most shifted
away. -/
structure State.Deepens (state final : State) : Prop where
  callDepth : state.callDepth ≤ final.callDepth
  positional : final.callDepth = state.callDepth → final.positional <:+ state.positional

theorem State.Deepens.trans {first second third : State} (h : first.Deepens second)
    (h' : second.Deepens third) : first.Deepens third where
  callDepth := Nat.le_trans h.callDepth h'.callDepth
  positional heq := by
    have hle := h.callDepth
    have hle' := h'.callDepth
    exact (h'.positional (by omega)).trans (h.positional (by omega))

/-- The calls that are open and their parameters, crashes included. -/
def Course.ofCalls : Course where
  leads shell _ final := shell.state.Deepens final.state
  trans := .trans
  adjusts _ h := ⟨Nat.le_of_eq h.callDepth.symm, fun _ => h.positional⟩
  works _ := ⟨Nat.le_refl _, fun _ => List.suffix_rfl⟩
  calls h := by
    have hinside := h.callDepth
    exact ⟨Nat.le_of_succ_le hinside, fun heq => absurd (heq ▸ hinside) (Nat.not_succ_le_self _)⟩
  returns h := ⟨Nat.le_sub_one_of_lt h.callDepth, fun _ => List.suffix_rfl⟩

/-! ## Scopes -/

/-- What is set up for the time that a construct runs, with what stood there before. -/
inductive Scope where
  /-- A function call with its parameters. -/
  | call (outer : List String)
  /-- A command with its assignments and redirections. -/
  | command (saved : List SavedVariable) (outer : Streams)
  | loop

namespace Scope

/-- Takes back what was set up. -/
def leave : Scope → Shell → Shell
  | call outer, shell => shell.returned outer
  | command saved outer, shell =>
      { shell with state := saved.foldl State.restore shell.state, streams := outer }
  | loop, shell =>
      { shell with state := { shell.state with loopDepth := shell.state.loopDepth - 1 } }

/-- Leaves scopes from the inside outwards. -/
def leaveAll (scopes : List Scope) (shell : Shell) : Shell :=
  scopes.foldl (fun shell scope => scope.leave shell) shell

def isCall : Scope → Bool
  | call _ => true
  | _ => false

/-- How many of the scopes are calls. -/
def calls (scopes : List Scope) : Nat := scopes.countP isCall

@[simp] theorem leaveAll_nil (shell : Shell) : leaveAll [] shell = shell := rfl

@[simp] theorem leaveAll_append (inner outer : List Scope) (shell : Shell) :
    leaveAll (inner ++ outer) shell = leaveAll outer (leaveAll inner shell) :=
  List.foldl_append

@[simp] theorem calls_nil : calls [] = 0 := rfl

@[simp] theorem calls_append (inner outer : List Scope) :
    calls (inner ++ outer) = calls inner + calls outer := List.countP_append

theorem callDepth_leave (scope : Scope) (shell : Shell) :
    (scope.leave shell).state.callDepth = shell.state.callDepth - calls [scope] := by
  cases scope with
  | call outer => rfl
  | command saved outer => exact (State.restoreAll_frame saved shell.state).callDepth
  | loop => rfl

theorem callDepth_leaveAll (scopes : List Scope) (shell : Shell) :
    (leaveAll scopes shell).state.callDepth = shell.state.callDepth - calls scopes := by
  induction scopes generalizing shell with
  | nil => rfl
  | cons scope scopes ih =>
      have hcalls : calls (scope :: scopes) = calls [scope] + calls scopes :=
        calls_append [scope] scopes
      have hrest := ih (scope.leave shell)
      rw [callDepth_leave] at hrest
      exact hrest.trans (by rw [hcalls, Nat.sub_sub])

/-- The scope keeps a value that the variable had before. -/
def Saves (name : String) : Scope → Prop
  | command saved _ => name ∈ saved.map SavedVariable.name
  | _ => False

/-- Other variables are as they were left. -/
theorem variable_leave {scope : Scope} {name : String} (h : ¬scope.Saves name) (shell : Shell) :
    (scope.leave shell).state.get? name = shell.state.get? name ∧
      (scope.leave shell).state.isExported name = shell.state.isExported name := by
  cases scope with
  | call outer => exact ⟨rfl, rfl⟩
  | loop => exact ⟨rfl, rfl⟩
  | command saved outer =>
      have hrestored : ∀ state : State,
          (saved.foldl State.restore state).get? name = state.get? name ∧
            (saved.foldl State.restore state).isExported name = state.isExported name := by
        intro state
        induction saved generalizing state with
        | nil => exact ⟨rfl, rfl⟩
        | cons entry saved ih =>
            obtain ⟨hname, hrest⟩ : name ≠ entry.name ∧ name ∉ saved.map SavedVariable.name :=
              not_or.mp (mt List.mem_cons.mpr h)
            obtain ⟨hvalue, hmark⟩ := ih hrest (state.restore entry)
            rw [State.get?_restore, if_neg hname] at hvalue
            rw [State.isExported_restore, bne_iff_ne.mpr hname, Bool.true_or, Bool.and_true]
              at hmark
            exact ⟨hvalue, hmark⟩
      exact hrestored shell.state

theorem variable_leaveAll {scopes : List Scope} {name : String}
    (h : ∀ scope ∈ scopes, ¬scope.Saves name) (shell : Shell) :
    (leaveAll scopes shell).state.get? name = shell.state.get? name ∧
      (leaveAll scopes shell).state.isExported name = shell.state.isExported name := by
  induction scopes generalizing shell with
  | nil => exact ⟨rfl, rfl⟩
  | cons scope scopes ih =>
      obtain ⟨hscope, hscopes⟩ := List.forall_mem_cons.mp h
      obtain ⟨hvalue, hmark⟩ := ih hscopes (scope.leave shell)
      obtain ⟨hvalue', hmark'⟩ := variable_leave hscope shell
      exact ⟨hvalue.trans hvalue', hmark.trans hmark'⟩

end Scope

/-! ## Scopes of statements -/

namespace Syntax

/-- The statements that a statement executes in the shell itself and not in a copy. -/
def Node.steps : Node → List Node
  | .group body => body
  | .conditional test body elifs otherwise =>
      test :: body ++ (elifs.flatMap fun | .mk test body => test :: body) ++ otherwise
  | .whileLoop test body => test :: body
  | .forLoop _ _ body => body
  | .choice _ arms => arms.flatMap fun | .mk _ body => body
  | .binary .andAnd left right => [left, right]
  | .binary .orOr left right => [left, right]
  | _ => []

def Node.isLoop : Node → Bool
  | .whileLoop .. | .forLoop .. => true
  | _ => false

/-- The scopes that can be open where a crash strikes in a statement, innermost first.  Scopes in
a copy of the shell are none of the shell. -/
inductive Node.Encloses : Node → List Scope → Prop where
  | here (node : Node) : Encloses node []
  | step {node step : Node} {scopes : List Scope} (hstep : step ∈ node.steps)
      (hplain : node.isLoop = false) (h : step.Encloses scopes) : Encloses node scopes
  | round {node step : Node} {scopes : List Scope} (hstep : step ∈ node.steps)
      (hloop : node.isLoop = true) (h : step.Encloses scopes) : Encloses node (scopes ++ [.loop])
  | command {args : List Node} {saved : List SavedVariable} (background : Bool) (outer : Streams)
      (h : saved.map SavedVariable.name =
        ((CommandParts.ofArgs args).assignments.map Assignment.name).reverse) :
      Encloses (.command args background) [.command saved outer]
  | call {args : List Node} {saved : List SavedVariable} {body : Node} {scopes : List Scope}
      (background : Bool) (outer : Streams) (parameters : List String)
      (h : saved.map SavedVariable.name =
        ((CommandParts.ofArgs args).assignments.map Assignment.name).reverse)
      (hbody : body.Encloses scopes) :
      Encloses (.command args background) (scopes ++ [.call parameters] ++ [.command saved outer])

end Syntax

/-- The scopes within a command: none, or a call and what its body encloses. -/
def Scope.AreInvoked (scopes : List Scope) : Prop :=
  scopes = [] ∨ ∃ body inside parameters, Node.Encloses body inside ∧
    scopes = inside ++ [.call parameters]

/-- What is saved last is the first to be taken back. -/
theorem State.pushAssignments_names (state : State) (values : List (String × String)) :
    (state.pushAssignments [] values).2.map SavedVariable.name =
      (values.map Prod.fst).reverse := by
  induction values generalizing state with
  | nil => rfl
  | cons entry values ih =>
      rw [pushAssignments_cons, List.map_append, ih]
      exact List.reverse_cons.symm

/-! ## Failing instead -/

/-- The commands fail for want of their streams where they would have crashed. -/
def ExternalFault.softened (e : StreamError) : ExternalFault → ExternalFault
  | .crash => .stream e
  | fault => fault

def Executor.softened (executor : Executor) (e : StreamError) : Executor := fun command streams =>
  (executor command streams).bind fun result => .done (result.mapError (·.softened e))

theorem Executor.softened_runs {executor : Executor} (e : StreamError) {command : ExternalCommand}
    {streams : Streams} {log : List Exchange} {result : Except ExternalFault Int}
    (h : (executor command streams).Runs log result) :
    (executor.softened e command streams).Runs log (result.mapError (·.softened e)) :=
  Proc.runs_bind.mpr ⟨result, log, [], (List.append_nil log).symm, h, rfl, rfl⟩

theorem Executor.softened_isSafe (executor : Executor) (e : StreamError) :
    (executor.softened e).IsSafe := by
  intro command streams log hruns
  obtain ⟨result, _, _, _, _, _, hresult⟩ := Proc.runs_bind.mp hruns
  rcases result with (_ | _) | _ <;> cases hresult

theorem acts_ofProc {α : Type} {p : Proc (Except Interruption α)} {shell : Shell}
    {log : List Exchange} {x : Except Interruption α × Shell} :
    Acts (Action.ofProc p) shell log x ↔ ∃ result, p.Runs log result ∧ x = (result, shell) := by
  have hrun : Acts (Action.ofProc p) shell log x ↔
      (p.bind fun result => .done (result, shell)).Runs log x := Iff.rfl
  rw [hrun, Proc.runs_bind]
  constructor
  · rintro ⟨result, first, _, rfl, hruns, rfl, rfl⟩
    exact ⟨result, (List.append_nil first).symm ▸ hruns, rfl⟩
  · rintro ⟨result, hruns, rfl⟩
    exact ⟨result, log, [], (List.append_nil log).symm, hruns, rfl, rfl⟩

/-- What an exchange tells.  Nothing is told when a pipe is closed, and when a task is started,
nothing of what it is going to do. -/
def Exchange.told? : Exchange → Option (TaskId ⊕ (r : Request) × r.Reply)
  | .asked (.closePipe _) _ => none
  | .asked r reply => some (.inr ⟨r, reply⟩)
  | .started _ _ id => some (.inl id)

/-- The same is asked and the same is replied. -/
def Matches (log other : List Exchange) : Prop :=
  other.filterMap Exchange.told? = log.filterMap Exchange.told?

theorem Matches.append {log other rest rest' : List Exchange} (h : Matches log other)
    (hrest : Matches rest rest') : Matches (log ++ rest) (other ++ rest') := by
  rw [Matches, List.filterMap_append, List.filterMap_append, h, hrest]

/-- The ends of two runs: they are the same, or the first one has crashed and the second one has
failed and has left the scopes that were open. -/
inductive Unwound (e : StreamError) (admits : List Scope → Prop) (depth : Nat) {α : Type} :
    Except Interruption α × Shell → Except Interruption α × Shell → Prop where
  | same {x : Except Interruption α × Shell} (hdepth : depth ≤ x.2.state.callDepth) :
      Unwound e admits depth x x
  | crashed {scopes : List Scope} {final : Shell} (hscopes : admits scopes)
      (hdepth : depth + Scope.calls scopes ≤ final.state.callDepth) :
      Unwound e admits depth (.error .crash, final)
        (.error (.stream e), Scope.leaveAll scopes final)

/-- For every run of the first action there is one of the second that fails where the first one
crashes.  The depth is that of the calls before. -/
def UnwindsAt (e : StreamError) (admits : List Scope → Prop) (depth : Nat) (shell : Shell)
    {α : Type} (body other : Action α) : Prop :=
  ∀ log x, Acts body shell log x → ∃ log' x', Acts other shell log' x' ∧ Matches log log' ∧
    Unwound e admits depth x x'

def Unwinds (e : StreamError) (admits : List Scope → Prop) {α : Type} (body other : Action α) :
    Prop :=
  ∀ shell : Shell, UnwindsAt e admits shell.state.callDepth shell body other

section

variable {e : StreamError} {admits inner : List Scope → Prop} {depth : Nat} {shell : Shell}
variable {α β : Type} {body other : Action α}

theorem Unwound.mono {x x' : Except Interruption α × Shell} {deeper : Nat}
    (h : Unwound e inner deeper x x') (hadmits : ∀ scopes, inner scopes → admits scopes)
    (hdepth : depth ≤ deeper) : Unwound e admits depth x x' := by
  cases h with
  | same h => exact .same (Nat.le_trans hdepth h)
  | crashed hscopes h =>
      exact .crashed (hadmits _ hscopes) (Nat.le_trans (Nat.add_le_add_right hdepth _) h)

namespace UnwindsAt

theorem mono (h : UnwindsAt e inner depth shell body other)
    (hadmits : ∀ scopes, inner scopes → admits scopes) :
    UnwindsAt e admits depth shell body other := by
  intro log x hacts
  obtain ⟨log', x', hacts', hmatch, hends⟩ := h log x hacts
  exact ⟨log', x', hacts', hmatch, hends.mono hadmits (Nat.le_refl _)⟩

/-- An action is its own counterpart if no crash can strike in it. -/
theorem same (h : Course.ofCalls.HoldsAt shell body) :
    UnwindsAt e admits shell.state.callDepth shell body body :=
  fun log x hacts => ⟨log, x, hacts, rfl, .same (h log x.1 x.2 hacts).callDepth⟩

theorem get_bind {rest rest' : Shell → Action β}
    (h : UnwindsAt e admits depth shell (rest shell) (rest' shell)) :
    UnwindsAt e admits depth shell (get >>= rest) (get >>= rest') := h

theorem state_bind {rest rest' : State → Action β}
    (h : UnwindsAt e admits depth shell (rest shell.state) (rest' shell.state)) :
    UnwindsAt e admits depth shell (Action.state >>= rest) (Action.state >>= rest') := h

theorem modify_bind {f : Shell → Shell} {rest rest' : PUnit → Action β}
    (h : UnwindsAt e admits depth (f shell) (rest ()) (rest' ())) :
    UnwindsAt e admits depth shell (modify f >>= rest) (modify f >>= rest') := h

theorem bind {rest rest' : α → Action β} (hbody : UnwindsAt e admits depth shell body other)
    (hrest : ∀ a next log, Acts body shell log (.ok a, next) →
      Unwinds e admits (rest a) (rest' a)) :
    UnwindsAt e admits depth shell (body >>= rest) (other >>= rest') := by
  intro log x hacts
  rcases acts_bind.mp hacts with
    ⟨i, next, rfl, hfirst⟩ | ⟨a, next, first, later, rfl, hfirst, hlater⟩
  · obtain ⟨log', x', hother, hmatch, hends⟩ := hbody _ _ hfirst
    cases hends with
    | same h => exact ⟨log', _, acts_bind.mpr (.inl ⟨i, next, rfl, hother⟩), hmatch, .same h⟩
    | crashed hscopes h =>
        exact ⟨log', _, acts_bind.mpr (.inl ⟨_, _, rfl, hother⟩), hmatch, .crashed hscopes h⟩
  · obtain ⟨first', x', hother, hmatch, hends⟩ := hbody _ _ hfirst
    cases hends with
    | same h =>
        obtain ⟨later', y, hother', hmatch', hends⟩ := hrest a next first hfirst next _ _ hlater
        exact ⟨first' ++ later', y, acts_bind.mpr (.inr ⟨a, next, _, _, rfl, hother, hother'⟩),
          hmatch.append hmatch', hends.mono (fun _ => id) h⟩

/-- What follows an interruption has to pass on a crash and a failed stream. -/
theorem attempt_bind {rest rest' : Except Interruption α → Action β}
    (hbody : UnwindsAt e admits depth shell body other)
    (hrest : ∀ result, Unwinds e admits (rest result) (rest' result))
    (hcrash : rest (.error .crash) = throw .crash := by rfl)
    (hfails : rest' (.error (.stream e)) = throw (.stream e) := by rfl) :
    UnwindsAt e admits depth shell (body.attempt >>= rest) (other.attempt >>= rest') := by
  intro log x hacts
  obtain ⟨result, next, first, later, rfl, hfirst, hlater⟩ := acts_attempt_bind.mp hacts
  obtain ⟨first', x', hother, hmatch, hends⟩ := hbody _ _ hfirst
  cases hends with
  | same h =>
      obtain ⟨later', y, hother', hmatch', hends⟩ := hrest result next _ _ hlater
      exact ⟨first' ++ later', y, acts_attempt_bind.mpr ⟨_, _, _, _, rfl, hother, hother'⟩,
        hmatch.append hmatch', hends.mono (fun _ => id) h⟩
  | crashed hscopes h =>
      rw [hcrash] at hlater
      obtain ⟨rfl, rfl⟩ := acts_throw.mp hlater
      refine ⟨first' ++ [], _, acts_attempt_bind.mpr ⟨_, _, _, _, rfl, hother, ?_⟩,
        hmatch.append rfl, .crashed hscopes h⟩
      rw [hfails]
      exact acts_throw.mpr ⟨rfl, rfl⟩

/-- A scope is left by the run that fails. -/
theorem ensuring {scope : Scope}
    (h : UnwindsAt e inner (depth + Scope.calls [scope]) shell body other)
    (hadmits : ∀ scopes, inner scopes → admits (scopes ++ [scope])) :
    UnwindsAt e admits depth shell (Action.ensuring scope.leave body)
      (Action.ensuring scope.leave other) := by
  intro log x hacts
  have hinside : ∃ result inside, Acts body shell log (result, inside) ∧
      (result = .error .crash ∧ x = (.error .crash, inside) ∨
        result ≠ .error .crash ∧ x = (result, scope.leave inside)) := by
    rcases acts_ensuring.mp hacts with ⟨inside, hbody, rfl⟩ | ⟨result, inside, hne, hbody, rfl⟩
    · exact ⟨_, inside, hbody, .inl ⟨rfl, rfl⟩⟩
    · exact ⟨result, inside, hbody, .inr ⟨hne, rfl⟩⟩
  obtain ⟨result, inside, hbody, hx⟩ := hinside
  obtain ⟨log', x', hother, hmatch, hends⟩ := h _ _ hbody
  cases hends with
  | same hdepth =>
      dsimp only at hdepth
      rcases hx with ⟨rfl, rfl⟩ | ⟨hne, rfl⟩
      · exact ⟨log', _, acts_ensuring.mpr (.inl ⟨inside, hother, rfl⟩), hmatch,
          .same (Nat.le_of_add_right_le hdepth)⟩
      · refine ⟨log', _, acts_ensuring.mpr (.inr ⟨result, inside, hne, hother, rfl⟩), hmatch,
          .same ?_⟩
        rw [Scope.callDepth_leave]
        exact Nat.le_sub_of_add_le hdepth
  | @crashed scopes _ hscopes hdepth =>
      rcases hx with ⟨-, rfl⟩ | ⟨hne, -⟩
      · have hleft : Unwound e admits depth ((.error .crash : Except Interruption α), inside)
            (.error (.stream e), Scope.leaveAll (scopes ++ [scope]) inside) :=
          .crashed (hadmits _ hscopes) (by rw [Scope.calls_append]; omega)
        rw [Scope.leaveAll_append] at hleft
        exact ⟨log', _, acts_ensuring.mpr (.inr ⟨_, _, by simp, hother, rfl⟩), hmatch, hleft⟩
      · exact absurd rfl hne

/-- A task is started; what it is going to do may differ. -/
theorem start_bind {isJob : Bool} {task task' : Proc Outcome} {rest rest' : TaskId → Action β}
    (h : ∀ id, UnwindsAt e admits depth shell (rest id) (rest' id)) :
    UnwindsAt e admits depth shell ((liftM (Proc.start isJob task) : Action TaskId) >>= rest)
      ((liftM (Proc.start isJob task') : Action TaskId) >>= rest') := by
  rintro log x ⟨id, later, rfl, hlater⟩
  obtain ⟨later', x', hother, hmatch, hends⟩ := h id later x hlater
  have hstarted : Matches [.started isJob task id] [.started isJob task' id] := rfl
  exact ⟨.started isJob task' id :: later', x', ⟨id, later', rfl, hother⟩,
    hstarted.append hmatch, hends⟩

end UnwindsAt

namespace Unwinds

theorem mono (h : Unwinds e inner body other) (hadmits : ∀ scopes, inner scopes → admits scopes) :
    Unwinds e admits body other := fun shell => (h shell).mono hadmits

/-- In words and copies of the shell no scope of the shell is open. -/
theorem lift (h : Unwinds e (· = []) body other) (hnil : admits []) :
    Unwinds e admits body other := h.mono fun _ hscopes => hscopes ▸ hnil

theorem same (h : Course.ofCalls.Holds body) : Unwinds e admits body body :=
  fun shell => .same (h shell)

/-- What stands after a `throw` makes no difference. -/
theorem throw_bind (interruption : Interruption) (rest rest' : β → Action α) :
    Unwinds e admits (throw interruption >>= rest) (throw interruption >>= rest') := by
  have hthrown : ∀ rest : β → Action α, (throw interruption >>= rest) = throw interruption :=
    fun _ => rfl
  rw [hthrown rest, hthrown rest']
  exact .same (.throw interruption)

theorem get_bind {rest rest' : Shell → Action β}
    (h : ∀ shell, Unwinds e admits (rest shell) (rest' shell)) :
    Unwinds e admits (get >>= rest) (get >>= rest') := fun shell => h shell shell

theorem state_bind {rest rest' : State → Action β}
    (h : ∀ state, Unwinds e admits (rest state) (rest' state)) :
    Unwinds e admits (Action.state >>= rest) (Action.state >>= rest') :=
  fun shell => h shell.state shell

theorem bind {rest rest' : α → Action β} (hbody : Unwinds e admits body other)
    (hrest : ∀ a, Unwinds e admits (rest a) (rest' a)) :
    Unwinds e admits (body >>= rest) (other >>= rest') :=
  fun shell => (hbody shell).bind fun a _ _ _ => hrest a

/-- What comes first is no place where a crash can strike. -/
theorem after {first : Action β} {rest rest' : β → Action α} (hfirst : Course.ofCalls.Holds first)
    (hrest : ∀ b, Unwinds e admits (rest b) (rest' b)) :
    Unwinds e admits (first >>= rest) (first >>= rest') := (same hfirst).bind hrest

/-- What follows is no place where a crash can strike. -/
theorem before {rest : α → Action β} (hbody : Unwinds e admits body other)
    (hrest : ∀ a, Course.ofCalls.Holds (rest a)) :
    Unwinds e admits (body >>= rest) (other >>= rest) := hbody.bind fun a => same (hrest a)

theorem attempt_bind {rest rest' : Except Interruption α → Action β}
    (hbody : Unwinds e admits body other)
    (hrest : ∀ result, Unwinds e admits (rest result) (rest' result))
    (hcrash : rest (.error .crash) = throw .crash := by rfl)
    (hfails : rest' (.error (.stream e)) = throw (.stream e) := by rfl) :
    Unwinds e admits (body.attempt >>= rest) (other.attempt >>= rest') :=
  fun shell => (hbody shell).attempt_bind hrest hcrash hfails

theorem discard (h : Unwinds e admits body other) :
    Unwinds e admits (Functor.discard body : Action PUnit) (Functor.discard other) :=
  h.before fun _ => .pure ()

/-- The scopes of a copy are left with it. -/
theorem onCopy (change : Shell → Shell) (h : Unwinds e inner body other) :
    Unwinds e (· = []) (Action.onCopy change body) (Action.onCopy change other) := by
  intro shell log x hacts
  obtain ⟨result, copy, hbody, rfl⟩ := acts_onCopy.mp hacts
  obtain ⟨log', x', hother, hmatch, hends⟩ := h (change shell) _ _ hbody
  cases hends with
  | same _ =>
      exact ⟨log', _, acts_onCopy.mpr ⟨_, copy, hother, rfl⟩, hmatch, .same (Nat.le_refl _)⟩
  | crashed _ _ =>
      have hclosed : Unwound e (· = []) shell.state.callDepth
          ((.error .crash : Except Interruption α), shell)
          (.error (.stream e), Scope.leaveAll [] shell) := .crashed rfl (Nat.le_refl _)
      exact ⟨log', _, acts_onCopy.mpr ⟨_, _, hother, rfl⟩, hmatch, hclosed⟩

/-! ### Lists -/

theorem foldlM {items : List α} {f g : β → α → Action β}
    (h : ∀ acc, ∀ a ∈ items, Unwinds e admits (f acc a) (g acc a)) (start : β) :
    Unwinds e admits (items.foldlM f start) (items.foldlM g start) := by
  induction items generalizing start with
  | nil => exact same (.pure start)
  | cons a items ih =>
      obtain ⟨ha, hitems⟩ : (∀ acc, Unwinds e admits (f acc a) (g acc a)) ∧
          ∀ acc, ∀ b ∈ items, Unwinds e admits (f acc b) (g acc b) :=
        ⟨fun acc => h acc a List.mem_cons_self, fun acc b hb => h acc b (List.mem_cons_of_mem a hb)⟩
      rw [List.foldlM_cons, List.foldlM_cons]
      exact (ha start).bind (ih hitems)

theorem mapM {f g : α → Action β} (h : ∀ a, Unwinds e admits (f a) (g a)) (items : List α) :
    Unwinds e admits (items.mapM f) (items.mapM g) := by
  induction items with
  | nil => exact same (.pure [])
  | cons a items ih =>
      rw [List.mapM_cons, List.mapM_cons]
      exact (h a).bind fun b => ih.before fun rest => .pure (b :: rest)

theorem flatMapM {f g : α → Action (List β)} (h : ∀ a, Unwinds e admits (f a) (g a))
    (items : List α) : Unwinds e admits (items.flatMapM f) (items.flatMapM g) := by
  induction items with
  | nil => exact same (.pure [])
  | cons a items ih =>
      rw [List.flatMapM_cons, List.flatMapM_cons]
      exact (h a).bind fun b => ih.before fun rest => .pure (b ++ rest)

theorem forM {items : List α} {f g : α → Action PUnit}
    (h : ∀ a ∈ items, Unwinds e admits (f a) (g a)) :
    Unwinds e admits (items.forM f) (items.forM g) := by
  induction items with
  | nil => exact same (.pure ())
  | cons a items ih =>
      obtain ⟨ha, hitems⟩ := List.forall_mem_cons.mp h
      exact ha.bind fun _ => ih hitems

end Unwinds

end

end Conch
