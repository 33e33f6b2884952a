import Conch.Proofs.Agreement.Termination
import Conch.Proofs.Effect.Trees
import Conch.Proofs.Tree.Shape
import Conch.Shell.Script

/-!
# Counting commands

The limit on commands holds for the count of one shell: where the limit is reached, that
shell runs no further simple command (`execute_refused`).  A copy of the shell goes on
counting from there, and what it counted is not added to the count of the shell that it
was copied from.  So a subshell may use up the limit, and the next one again, and a
program can start as many commands as it has subshells times the limit
(`acts_subshells`): there is no bound on the whole run (`commands_unbounded`).
-/

namespace Conch

open Syntax (Node Program)

/-- How many simple commands were started. -/
def started (log : List Exchange) : Nat :=
  log.countP fun
    | .asked .command _ => true
    | _ => false

theorem started_append (first rest : List Exchange) :
    started (first ++ rest) = started first + started rest := List.countP_append

/-- A subshell that does nothing so often. -/
def Syntax.Node.idles (count : Nat) : Node := .subshell (List.replicate count .idle)

/-! ## One command -/

/-- With one more command. -/
def Shell.counted (shell : Shell) : Shell :=
  { shell with state := { shell.state with commands := shell.state.commands + 1 } }

/-- A command is counted, and refused when the count is beyond the limit. -/
theorem acts_countCommand {shell : Shell} {log : List Exchange}
    {x : Except Interruption Unit × Shell} :
    Acts countCommand shell log x ↔ log = [.asked .command ()] ∧
      x = (if shell.limits.commands ≤ shell.state.commands then
          .error (.limit (.commands shell.limits.commands)) else .ok (), shell.counted) := by
  have hrest : ∀ rest, Acts (if shell.limits.commands < shell.state.commands + 1 then
      throw (.limit (.commands shell.limits.commands)) else pure () : Action Unit)
        shell.counted rest x ↔ rest = [] ∧
      x = (if shell.limits.commands ≤ shell.state.commands then
          .error (.limit (.commands shell.limits.commands)) else .ok (), shell.counted) := by
    intro rest
    by_cases hlimit : shell.limits.commands ≤ shell.state.commands
    · rw [if_pos (Nat.lt_succ_of_le hlimit), if_pos hlimit]
      exact acts_throw
    · rw [if_neg (mt Nat.lt_succ_iff.mp hlimit), if_neg hlimit]
      exact acts_pure
  constructor
  · rintro ⟨_, rest, rfl, hacts⟩
    obtain ⟨rfl, hx⟩ := (hrest rest).mp hacts
    exact ⟨rfl, hx⟩
  · rintro ⟨rfl, hx⟩
    exact ⟨(), [], rfl, (hrest []).mpr ⟨rfl, hx⟩⟩

section

variable (executor : Executor)

/-- A command beyond the limit does nothing else. -/
theorem acts_runCommand_refused {executor : Executor} {call : Node → Action Int}
    {parts : Evaluator} {args : List Node} {background : Bool} {shell : Shell}
    (h : shell.limits.commands ≤ shell.state.commands) {log : List Exchange}
    {x : Except Interruption Int × Shell} :
    Acts (runCommand executor call parts args background) shell log x ↔
      log = [.asked .command ()] ∧
        x = (.error (.limit (.commands shell.limits.commands)), shell.counted) := by
  rw [runCommand, acts_bind]
  simp only [acts_countCommand, if_pos h]
  constructor
  · rintro (⟨_, _, rfl, rfl, hx⟩ | ⟨_, _, _, _, _, ⟨_, hx⟩, _⟩)
    · cases hx
      exact ⟨rfl, rfl⟩
    · cases hx
  · rintro ⟨rfl, rfl⟩
    exact .inl ⟨_, _, rfl, rfl, rfl⟩

/-- A shell that has used up its limit runs no simple command. -/
theorem execute_refused (args : List Node) (background : Bool) {shell : Shell}
    (h : shell.limits.commands ≤ shell.state.commands) {log : List Exchange}
    {x : Except Interruption Int × Shell} :
    Acts (execute executor (.command args background)) shell log x ↔
      log = [.asked .command ()] ∧
        x = (.error (.limit (.commands shell.limits.commands)), shell.counted) := by
  rw [execute_eq, executeNode, Action.recording, acts_attempt_bind]
  simp only [acts_runCommand_refused h]
  constructor
  · rintro ⟨_, _, _, later, rfl, ⟨rfl, hx⟩, hlater⟩
    cases hx
    obtain ⟨rfl, rfl⟩ := acts_throw.mp hlater
    exact ⟨rfl, rfl⟩
  · rintro ⟨rfl, rfl⟩
    exact ⟨_, _, _, [], rfl, ⟨rfl, rfl⟩, acts_throw.mpr ⟨rfl, rfl⟩⟩

/-- Whatever functions there are, `:` is the builtin. -/
theorem acts_invoke_colon (call : Node → Action Int) (shell : Shell) :
    Acts (invoke executor call [":"]) shell [] (.ok 0, shell) := by
  have hbuiltin : Builtin.find? shell.dialect ":" = some .colon := by cases shell.dialect <;> rfl
  have hemit : Acts (Action.emit .ok) shell [] (.ok 0, shell) := by
    rw [Completion.ok, emit_silent]
    exact ⟨rfl, rfl⟩
  rw [invoke, acts_get_bind, acts_state_bind, hbuiltin]
  cases shell.state.functions.get? ":" with
  | none => exact hemit
  | some body => exact hemit

theorem acts_invokeUnder_colon (call : Node → Action Int) (parts : Evaluator) (shell : Shell) :
    Acts (invokeUnder executor call parts ⟨[], [.word [.literal ":"]], []⟩ [":"]) shell []
      (.ok 0, shell) := by
  change Acts (Action.ensuring (fun inner => { inner with streams := shell.streams })
    (invoke executor call [":"])) shell [] _
  exact acts_ensuring.mpr (.inr ⟨_, shell, by simp, acts_invoke_colon executor call shell, rfl⟩)

/-- An idle command is counted, and that is all. -/
theorem acts_idle (shell : Shell) (h : shell.state.commands < shell.limits.commands) :
    ∃ final, Acts (execute executor .idle) shell [.asked .command ()] (.ok 0, final) ∧
      final.limits = shell.limits ∧ final.state.commands = shell.state.commands + 1 := by
  have hliteral : ∀ fields, (evaluation executor).expand false (.literal ":") fields =
      pure (fields.addLiteral [] ":".toList) := expand_eq executor (.literal ":") false
  let cleared : Shell := { shell.counted with substitutionStatus := none }
  have hsimple : Acts (runSimple executor (execute executor) (evaluation executor)
      [.word [.literal ":"]]) shell.counted [] (.ok 0, cleared) := by
    have hwords : Acts (expandWords (evaluation executor) [.word [.literal ":"]]) cleared []
        (.ok [":"], cleared) :=
      (acts_expandWords_bare hliteral (by decide +kernel) []).mpr ⟨rfl, rfl⟩
    exact acts_modify_bind.mpr (acts_bind.mpr (.inr ⟨[":"], cleared, [], [], rfl, hwords,
      acts_invokeUnder_colon executor _ _ cleared⟩))
  have hcount : Acts countCommand shell [.asked .command ()] (.ok (), shell.counted) :=
    acts_countCommand.mpr ⟨rfl, by rw [if_neg (Nat.not_le.mpr h)]⟩
  have hbody : Acts (runCommand executor (execute executor) (evaluation executor)
      [.word [.literal ":"]] false) shell [.asked .command ()] (.ok 0, cleared) :=
    acts_bind.mpr (.inr ⟨(), shell.counted, _, [], rfl, hcount, hsimple⟩)
  refine ⟨{ cleared with state := { cleared.state with status := 0 } }, ?_, rfl, rfl⟩
  rw [execute_eq]
  exact acts_attempt_bind.mpr ⟨_, _, _, [], rfl, hbody, ⟨rfl, rfl⟩⟩

/-! ## Many commands -/

/-- So many idle commands are counted, if the limit allows them. -/
theorem acts_idleCommands (count : Nat) (shell : Shell) (status : Int)
    (h : shell.state.commands + count ≤ shell.limits.commands) :
    ∃ log result final, Acts ((List.replicate count Node.idle).foldlM
        (fun _ statement => execute executor statement) status) shell log (.ok result, final) ∧
      started log = count := by
  induction count generalizing shell status with
  | zero => exact ⟨[], status, shell, ⟨rfl, rfl⟩, rfl⟩
  | succ count ih =>
      obtain ⟨next, hfirst, hlimits, hcommands⟩ := acts_idle executor shell (by omega)
      have hleft : next.state.commands + count ≤ next.limits.commands := by
        rw [hlimits, hcommands]
        omega
      obtain ⟨log, result, final, hrest, hstarted⟩ := ih next 0 hleft
      refine ⟨_, result, final, acts_bind.mpr (.inr ⟨0, next, _, log, rfl, hfirst, hrest⟩), ?_⟩
      rw [started_append, hstarted, Nat.add_comm]
      rfl

/-- A subshell may use up what the limit leaves to the shell, and none of it is taken from the
shell. -/
theorem acts_idles {count : Nat} (shell : Shell)
    (h : shell.state.commands + count ≤ shell.limits.commands) :
    ∃ log result, Acts (execute executor (.idles count)) shell log
        (.ok result, { shell with state := { shell.state with status := result } }) ∧
      started log = count := by
  obtain ⟨log, result, copy, hcopy, hstarted⟩ := acts_idleCommands executor count shell.fork 0 h
  have hbody : Acts ((executeAll (evaluation executor) (List.replicate count .idle)).attempt >>=
      Action.endWith) shell.fork log (.ok result, copy) :=
    acts_attempt_bind.mpr ⟨_, _, _, [], (List.append_nil log).symm, hcopy, ⟨rfl, rfl⟩⟩
  have hsubshell : Acts (runSubshell (evaluation executor) (List.replicate count .idle)) shell log
      (.ok result, shell) := acts_onCopy.mpr ⟨_, _, hbody, rfl⟩
  refine ⟨log, result, ?_, hstarted⟩
  rw [execute_eq]
  exact acts_attempt_bind.mpr ⟨_, _, _, [], (List.append_nil log).symm, hsubshell, ⟨rfl, rfl⟩⟩

/-- Every subshell of a program may use up the whole limit. -/
theorem acts_subshells {count : Nat} (times : Nat) (shell : Shell)
    (h : shell.state.commands + count ≤ shell.limits.commands) :
    ∃ log final, Acts (Action.runProgram executor (List.replicate times (.idles count))) shell log
        (.ok (), final) ∧ started log = times * count := by
  induction times generalizing shell with
  | zero => exact ⟨[], shell, ⟨rfl, rfl⟩, (Nat.zero_mul count).symm⟩
  | succ times ih =>
      obtain ⟨log, result, hfirst, hstarted⟩ := acts_idles executor shell h
      obtain ⟨later, final, hlater, hrest⟩ :=
        ih { shell with state := { shell.state with status := result } } h
      refine ⟨_, final, acts_bind.mpr (.inr ⟨(), _, log, later, rfl, ?_, hlater⟩), ?_⟩
      · exact acts_attempt_bind.mpr ⟨_, _, _, [], (List.append_nil log).symm, hfirst, ⟨rfl, rfl⟩⟩
      · rw [started_append, hstarted, hrest, Nat.succ_mul, Nat.add_comm]

end

/-- No limit bounds how many commands one run starts. -/
theorem commands_unbounded (executor : Executor) (directory : String) (pid : Nat) {limits : Limits}
    (hlimits : 0 < limits.commands) (bound : Nat) :
    ∃ program log final, Acts (Action.runProgram executor program)
      (.new (State.initial directory pid) limits) log (.ok (), final) ∧ bound ≤ started log := by
  have hleft : (Shell.new (State.initial directory pid) limits).state.commands + 1 ≤
      limits.commands := hlimits
  obtain ⟨log, final, hacts, hstarted⟩ := acts_subshells executor bound _ hleft
  exact ⟨_, log, final, hacts, by omega⟩

/-- Two subshells one after the other start four commands in a shell that allows three. -/
theorem subshells_beyond_limit : ∃ log final,
    Acts (Action.runProgram (fun _ _ => .done (.ok 0)) [.idles 2, .idles 2])
      (.new (State.initial "/" 1) ⟨9, 3, 9⟩) log (.ok (), final) ∧ started log = 4 :=
  acts_subshells _ 2 _ (by decide)

end Conch
