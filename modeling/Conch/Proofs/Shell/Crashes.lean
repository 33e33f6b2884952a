import Conch.Proofs.Agreement.Programs
import Conch.Proofs.Session.Statuses
import Conch.Proofs.Unwinding.Statements

/-!
# What a crash leaves behind

When an external command crashes, the statements around it are left at once and nothing is
taken back.  A captured script survives this with status 1, and the counts, depths and
streams that are left over are set anew for the next script.  The parameters of the calls
that were open stay, and so do the values of assignments before commands
(`Shell.crash_outlives`).  Nothing else is left over: without an open call the parameters
are the old ones, of which some may have been shifted away, variables without an open
assignment are as if the command had failed, and without both the scripts that follow run as
they do then (`Shell.exec_scoped`).
-/

namespace Conch

open Syntax (Node)

/-! ## Captured scripts -/

namespace Shell

section

variable {executor : Executor} {program : Syntax.Program} {shell final : Shell}
variable {log : List Exchange} {result : Except Interruption Unit}

theorem crashed_status {log : List Exchange} {status : Int}
    (hruns : (runStatus (.error .crash) shell).Runs log (status, final)) : status = 1 := by
  have hreturns : (runStatus (.error .crash) shell).Returns fun x => x.1 = 1 :=
    (Proc.Returns.trivial (complain Interruption.crash.message shell)).bind fun _ _ => rfl
  exact hreturns.of_runs hruns

theorem runProgram_deepens
    (hacts : Acts (Action.runProgram executor program) shell log (result, final)) :
    shell.state.Deepens final.state := by
  have hcalls : Course.ofCalls.Holds (Action.runProgram executor program) :=
    .runProgram executor program
  exact hcalls shell log result final hacts

/-- The calls of a program are closed when it ends, unless it crashes. -/
theorem callDepth_of_runProgram
    (hacts : Acts (Action.runProgram executor program) shell log (result, final))
    (hresult : result ≠ .error .crash) : final.state.callDepth = shell.state.callDepth := by
  have hagree := alike_runProgram (executor.supports_any shell.dialect) program shell
    (shell.meets_any True False)
  have hends := (hagree.free fun _ => trivial).2.of_runs hacts
  exact congrArg Level.callDepth (hends.level hresult)

/-- A run starts without open calls and with the parameters of the shell. -/
theorem acts_runAnew
    (hacts : Acts (do Action.reset; Action.runProgram executor program) shell log (result, final)) :
    ∃ started first later, log = first ++ later ∧ Acts Action.reset shell first (.ok (), started) ∧
      started.state.positional = shell.state.positional ∧ started.state.callDepth = 0 ∧
      Acts (Action.runProgram executor program) started later (result, final) := by
  rcases acts_bind.mp hacts with
    ⟨e, next, hx, hreset⟩ | ⟨_, started, first, later, rfl, hreset, hprogram⟩
  · obtain ⟨_, _, hended, _⟩ := logged_of_reapJobs (acts_modify_bind.mp hreset)
    cases hended
  · obtain ⟨_, _, _, rfl⟩ := logged_of_reapJobs (acts_modify_bind.mp hreset)
    exact ⟨_, first, later, rfl, hreset, rfl, rfl, hprogram⟩

theorem not_isSafe_of_crash
    (hacts : Acts (Action.runProgram executor program) shell log (.error .crash, final)) :
    ¬executor.IsSafe := by
  rcases Contract.Holds.interrupted hacts trivial (Contract.stopping_runProgram executor program)
    with hends | ⟨_, hfaulty⟩
  · cases hends
  · exact hfaulty

/-- If parameters of a call are left over, an external command has crashed in it. -/
theorem runAnew_scoped
    (hacts : Acts (do Action.reset; Action.runProgram executor program) shell log (result, final)) :
    final.state.positional <:+ shell.state.positional ∨
      ¬executor.IsSafe ∧ 0 < final.state.callDepth ∧ result = .error .crash := by
  obtain ⟨started, _, _, rfl, _, hpositional, hdepth, hprogram⟩ := acts_runAnew hacts
  by_cases hclosed : final.state.callDepth = 0
  · have hsuffix := (runProgram_deepens hprogram).positional (hclosed.trans hdepth.symm)
    exact .inl (hpositional ▸ hsuffix)
  · have hcrash : result = .error .crash := by
      by_contra hresult
      exact hclosed ((callDepth_of_runProgram hprogram hresult).trans hdepth)
    exact .inr ⟨not_isSafe_of_crash (hcrash ▸ hprogram), Nat.pos_of_ne_zero hclosed, hcrash⟩

end

/-- Without what a run leaves of its counts, depths and streams. -/
def refreshed (shell : Shell) : Shell :=
  { shell with
    state := { shell.state with loopDepth := 0, callDepth := 0, commands := 0 }
    streams := .silent
    substitutionStatus := none }

/-- All that is set anew before a script. -/
theorem capture_refreshed (executor : Executor) (program : Syntax.Program) (shell : Shell) :
    capture executor program shell.refreshed = capture executor program shell := rfl

theorem exec_refreshed {executor : Executor} {script : String} {program : Syntax.Program}
    (hparse : Syntax.parse script = .ok program) (shell : Shell) :
    exec executor script shell.refreshed = exec executor script shell := by
  unfold exec
  rw [hparse]
  exact capture_refreshed executor program shell

end Shell

/-! ## Compared with a failure -/

/-- Nothing is held that the next script could find: neither parameters nor variables. -/
def Scope.IsPlain : Scope → Prop
  | .call _ => False
  | .command saved _ => saved = []
  | .loop => True

/-- No command that a statement runs in the shell itself has assignments; what the functions do
that it calls is left open. -/
inductive Syntax.Node.AssignsNothing : Node → Prop where
  | intro {node : Node}
      (hcommand : ∀ args background, node = .command args background →
        (CommandParts.ofArgs args).assignments = [])
      (hsteps : ∀ step ∈ node.steps, step.AssignsNothing) : AssignsNothing node

theorem Syntax.Node.Encloses.isPlain {node : Node} {scopes : List Scope}
    (h : node.Encloses scopes) (hnothing : node.AssignsNothing)
    (hcalls : Scope.calls scopes = 0) : ∀ scope ∈ scopes, scope.IsPlain := by
  induction h with
  | here node => exact nofun
  | step hstep _ _ ih =>
      obtain ⟨_, hsteps⟩ := hnothing
      exact ih (hsteps _ hstep) hcalls
  | round hstep _ _ ih =>
      obtain ⟨_, hsteps⟩ := hnothing
      rw [Scope.calls_append] at hcalls
      have hinside := ih (hsteps _ hstep) (Nat.eq_zero_of_add_eq_zero_right hcalls)
      simpa [or_imp, forall_and] using ⟨hinside, trivial⟩
  | @command args saved background outer hsaved =>
      obtain ⟨hcommand, _⟩ := hnothing
      rw [hcommand args background rfl] at hsaved
      simpa [Scope.IsPlain] using hsaved
  | call background outer parameters _ _ _ =>
      rw [Scope.calls_append, Scope.calls_append] at hcalls
      cases Nat.eq_zero_of_add_eq_zero_left (Nat.eq_zero_of_add_eq_zero_right hcalls)

/-- The same is asked and the same is replied, up to the report at the end: that writes at most
once and reads two buffers. -/
def MatchesUpToReport (log other : List Exchange) : Prop :=
  ∃ during report during' report', log = during ++ report ∧ other = during' ++ report' ∧
    Matches during during' ∧ report.length ≤ 3 ∧ report'.length ≤ 3

namespace Shell

theorem refreshed_leaveAll {scopes : List Scope} (h : ∀ scope ∈ scopes, scope.IsPlain)
    (shell : Shell) : (Scope.leaveAll scopes shell).refreshed = shell.refreshed := by
  induction scopes generalizing shell with
  | nil => rfl
  | cons scope scopes ih =>
      obtain ⟨hscope, hscopes⟩ := List.forall_mem_cons.mp h
      have hleave : (scope.leave shell).refreshed = shell.refreshed := by
        cases scope with
        | call outer => exact hscope.elim
        | loop => rfl
        | command saved outer =>
            obtain rfl : saved = [] := hscope
            rfl
      exact (ih hscopes (scope.leave shell)).trans hleave

/-- What is set anew before a script makes no difference to what is taken back. -/
theorem refreshed_leave (scope : Scope) (shell : Shell) :
    (scope.leave shell.refreshed).refreshed = (scope.leave shell).refreshed := by
  cases scope with
  | call outer => rfl
  | loop => rfl
  | command saved outer =>
      simp only [Scope.leave, refreshed, State.restoreAll_eq]

theorem refreshed_leaveAll_congr {shell other : Shell} (scopes : List Scope)
    (h : shell.refreshed = other.refreshed) :
    (Scope.leaveAll scopes shell).refreshed = (Scope.leaveAll scopes other).refreshed := by
  induction scopes generalizing shell other with
  | nil => exact h
  | cons scope scopes ih =>
      refine ih ?_
      rw [← refreshed_leave, h, refreshed_leave]

/-- The shell after a script: the status is recorded, and there are no streams. -/
def recorded (shell : Shell) (status : Int) : Shell :=
  { shell with state := { shell.state with status := status }, streams := .silent }

theorem refreshed_recorded_leaveAll (scopes : List Scope) (shell : Shell) (status : Int) :
    ((Scope.leaveAll scopes shell).recorded status).refreshed =
      (Scope.leaveAll scopes (shell.recorded status)).refreshed := by
  induction scopes generalizing shell with
  | nil => rfl
  | cons scope scopes ih =>
      refine (ih (scope.leave shell)).trans (refreshed_leaveAll_congr scopes ?_)
      cases scope with
      | call outer => rfl
      | loop => rfl
      | command saved outer =>
          simp only [Scope.leave, recorded, refreshed, State.restoreAll_eq]

/-- What a crash leaves, compared with what is left if the command fails instead: the scopes that
were open. -/
structure LeavesOpen (executor : Executor) (program : Syntax.Program) (scopes : List Scope)
    (final failed : Shell) : Prop where
  enclosed : scopes = [] ∨ ∃ statement ∈ program, statement.Encloses scopes
  calls : Scope.calls scopes = final.state.callDepth
  left : failed.refreshed = (Scope.leaveAll scopes final).refreshed
  /-- Assignments that are not open make no difference. -/
  assigned : ∀ name, (∀ scope ∈ scopes, ¬scope.Saves name) →
    failed.state.get? name = final.state.get? name ∧
      failed.state.isExported name = final.state.isExported name
  /-- Without open calls and assignments the scripts that follow find no difference. -/
  later : (∀ scope ∈ scopes, scope.IsPlain) → ∀ next program, Syntax.parse next = .ok program →
    exec executor next failed = exec executor next final

theorem LeavesOpen.ofLeft (executor : Executor) {program : Syntax.Program} {scopes : List Scope}
    {final failed : Shell}
    (henclosed : scopes = [] ∨ ∃ statement ∈ program, statement.Encloses scopes)
    (hcalls : Scope.calls scopes = final.state.callDepth)
    (hleft : failed.refreshed = (Scope.leaveAll scopes final).refreshed) :
    LeavesOpen executor program scopes final failed where
  enclosed := henclosed
  calls := hcalls
  left := hleft
  assigned name hname := by
    obtain ⟨hvalue, hmark⟩ := Scope.variable_leaveAll hname final
    have hvalue' := congrArg (fun shell => shell.state.get? name) hleft
    have hmark' := congrArg (fun shell => shell.state.isExported name) hleft
    exact ⟨hvalue'.trans hvalue, hmark'.trans hmark⟩
  later hplain next program hparse := by
    rw [← exec_refreshed hparse failed, hleft, refreshed_leaveAll hplain,
      exec_refreshed hparse final]

/-- A crash outside of all calls leaves nothing open that could be found. -/
theorem LeavesOpen.isPlain {executor : Executor} {program : Syntax.Program} {scopes : List Scope}
    {final failed : Shell} (h : LeavesOpen executor program scopes final failed)
    (hprogram : ∀ statement ∈ program, statement.AssignsNothing)
    (hdepth : final.state.callDepth = 0) : ∀ scope ∈ scopes, scope.IsPlain := by
  rcases h.enclosed with rfl | ⟨statement, hmem, hencloses⟩
  · exact nofun
  · exact hencloses.isPlain (hprogram statement hmem) (h.calls.trans hdepth)

section

variable {executor : Executor} {program : Syntax.Program} {shell final : Shell}
variable {log : List Exchange}

/-- A complaint is written at once, if at all. -/
theorem complain_short {message : String} {status : Int} {x : Int × Shell}
    (hruns : ((do complain message; return status : StateT Shell Proc Int) shell).Runs log x) :
    log.length ≤ 1 := by
  unfold complain Action.writeErrors Action.writeTo Output.write Output.writeBytes at hruns
  split at hruns
  · obtain ⟨rfl, _⟩ := hruns
    exact Nat.zero_le 1
  · obtain ⟨_, _, rfl, rfl, _⟩ := hruns
    exact Nat.le_refl 1

theorem complain_finishes (message : String) (status : Int) (shell : Shell) :
    ∃ told, ((do complain message; return status : StateT Shell Proc Int) shell).Runs told
      (status, shell) := by
  unfold complain Action.writeErrors Action.writeTo Output.write Output.writeBytes
  split
  · exact ⟨[], rfl, rfl⟩
  · exact ⟨_, Except.ok (), [], rfl, rfl, rfl⟩

theorem runProgram_unwinds {e : StreamError} {result : Except Interruption Unit}
    (hacts : Acts (do Action.reset; Action.runProgram executor program) shell log (result, final)) :
    ∃ log' result' failed,
      Acts (do Action.reset; Action.runProgram (executor.softened e) program) shell log'
        (result', failed) ∧ Matches log log' ∧
      (result' = result ∧ failed = final ∧ final.state.callDepth = 0 ∨
        result = .error .crash ∧ result' = .error (.stream e) ∧ ∃ scopes,
          (∃ statement ∈ program, statement.Encloses scopes) ∧
            Scope.calls scopes = final.state.callDepth ∧
            failed = Scope.leaveAll scopes final) := by
  obtain ⟨started, first, later, rfl, hreset, _, hdepth, hprogram⟩ := acts_runAnew hacts
  obtain ⟨later', ⟨result', failed⟩, hother, hmatch, hends⟩ :=
    Unwinds.runProgram (e := e) executor program started later _ hprogram
  have hsafe : result' ≠ .error .crash := by
    rintro rfl
    exact not_isSafe_of_crash hother (executor.softened_isSafe e)
  have hclosed := (callDepth_of_runProgram hother hsafe).trans hdepth
  refine ⟨first ++ later', result', failed,
    acts_bind.mpr (.inr ⟨(), started, first, later', rfl, hreset, hother⟩), ?_, ?_⟩
  · exact Matches.append rfl hmatch
  cases hends with
  | same _ => exact .inl ⟨rfl, rfl, hclosed⟩
  | @crashed scopes _ hscopes hopen =>
      rw [Scope.callDepth_leaveAll] at hclosed
      exact .inr ⟨rfl, rfl, scopes, hscopes, by omega, rfl⟩

theorem capture_unwinds {e : StreamError} {completion : Completion}
    (hruns : (capture executor program shell).Runs log (completion, final)) :
    ∃ log' completion' failed scopes,
      (capture (executor.softened e) program shell).Runs log' (completion', failed) ∧
      (Matches log log' ∧ completion' = completion ∧ failed = final ∨
        MatchesUpToReport log log' ∧ ¬executor.IsSafe ∧ completion.status = 1 ∧
          completion'.status = 1) ∧
      LeavesOpen executor program scopes final failed := by
  obtain ⟨output, errors, during, told, written, complaints, result, ended, rfl, hacts, hstatus,
    hcompletion, rfl⟩ := runs_capture.mp hruns
  obtain ⟨during', result', failed, hother, hmatch, hends⟩ := runProgram_unwinds (e := e) hacts
  have hbuffers : Matches (.asked .newBuffer output :: .asked .newBuffer errors :: during)
      (.asked .newBuffer output :: .asked .newBuffer errors :: during') := by
    have hfirst : Matches [.asked .newBuffer output, .asked .newBuffer errors]
      [.asked .newBuffer output, .asked .newBuffer errors] := rfl
    exact hfirst.append hmatch
  rcases hends with ⟨rfl, rfl, hclosed⟩ | ⟨rfl, rfl, scopes, hscopes, hcalls, rfl⟩
  · have hcaptured := runs_capture.mpr ⟨output, errors, during', told, written, complaints,
      result', failed, rfl, hother, hstatus, hcompletion, rfl⟩
    exact ⟨_, completion, _, [], hcaptured, .inl ⟨hbuffers.append rfl, rfl, rfl⟩,
      .ofLeft executor (.inl rfl) hclosed.symm rfl⟩
  · have hcrashed : completion.status = 1 := crashed_status hstatus
    obtain ⟨told', hfailed⟩ := complain_finishes e.brief 1 (Scope.leaveAll scopes ended)
    have hcaptured : (capture (executor.softened e) program shell).Runs _
        (⟨Text.decodeLossy written, Text.decodeLossy complaints, 1⟩,
          (Scope.leaveAll scopes ended).recorded 1) :=
      runs_capture.mpr ⟨output, errors, during', told', written, complaints, _, _, rfl, hother,
        hfailed, rfl, rfl⟩
    obtain ⟨_, _, _, _, _, _, _, hprogram⟩ := acts_runAnew hacts
    have hreport := complain_short hstatus
    have hreport' := complain_short hfailed
    refine ⟨_, _, _, scopes, hcaptured, .inr ⟨⟨_, _, _, _, rfl, rfl, hbuffers, ?_, ?_⟩,
      not_isSafe_of_crash hprogram, hcrashed, rfl⟩, .ofLeft executor (.inr hscopes) hcalls ?_⟩
    · simpa using Nat.add_le_add_right hreport 2
    · simpa using Nat.add_le_add_right hreport' 2
    · rw [hcrashed]
      exact refreshed_recorded_leaveAll scopes ended 1

end

/-- After a script the parameters are those from before, of which some may have been shifted away,
unless an external command crashed while a call was open.  What else a crash leaves of the
counts, depths and streams makes no difference to the scripts after it.  The script ends in the
same way if commands fail that would crash, and after a crash the shells differ at most by the
scopes that the crash has left open. -/
theorem exec_scoped {executor : Executor} {script : String} {shell final : Shell}
    {log : List Exchange} {completion : Completion}
    (hruns : (exec executor script shell).Runs log (completion, final)) :
    (final.state.positional <:+ shell.state.positional ∨
      ¬executor.IsSafe ∧ 0 < final.state.callDepth ∧ completion.status = 1) ∧
    (∀ next program, Syntax.parse next = .ok program →
      exec executor next final.refreshed = exec executor next final) ∧
    ∀ e program, Syntax.parse script = .ok program → ∃ log' completion' failed scopes,
      (exec (executor.softened e) script shell).Runs log' (completion', failed) ∧
      (Matches log log' ∧ completion' = completion ∧ failed = final ∨
        MatchesUpToReport log log' ∧ ¬executor.IsSafe ∧ completion.status = 1 ∧
          completion'.status = 1) ∧
      LeavesOpen executor program scopes final failed := by
  refine ⟨?_, fun next program hparse => exec_refreshed hparse final, fun e program hparse => ?_⟩
  · rw [exec] at hruns
    cases hparse : Syntax.parse script with
    | error e =>
        rw [hparse] at hruns
        obtain ⟨rfl, hx⟩ := hruns
        cases hx
        exact .inl List.suffix_rfl
    | ok program =>
        rw [hparse] at hruns
        obtain ⟨_, _, _, _, _, _, result, ended, rfl, hacts, hstatus, _, rfl⟩ :=
          runs_capture.mp hruns
        rcases runAnew_scoped hacts with hsuffix | ⟨hfaulty, hopen, rfl⟩
        · exact .inl hsuffix
        · exact .inr ⟨hfaulty, hopen, crashed_status hstatus⟩
  · rw [exec, hparse] at hruns
    obtain ⟨log', completion', failed, scopes, hother, hends⟩ := capture_unwinds (e := e) hruns
    refine ⟨log', completion', failed, scopes, ?_, hends⟩
    rw [exec, hparse]
    exact hother

/-- Nothing was run yet. -/
def intact : Shell := .new (State.initial "/" 1) ⟨9, 9, 9⟩

end Shell

/-- Every external command crashes. -/
def Executor.crashing : Executor := fun _ _ => .done (.error .crash)

/-- Every external command fails for want of its streams. -/
def Executor.starving : Executor := fun _ _ => .done (.error (.stream (.other "lost")))

namespace Shell

/-- A loop around a command without assignments. -/
def loopsBare : Syntax.Program → Bool
  | [.forLoop _ _ [.command args _]] => (CommandParts.ofArgs args).assignments.isEmpty
  | _ => false

theorem assignsNothing_of_loopsBare {program : Syntax.Program} (h : loopsBare program = true) :
    ∀ statement ∈ program, statement.AssignsNothing := by
  unfold loopsBare at h
  split at h
  · rename_i name words args background
    have hcommand : (Syntax.Node.command args background).AssignsNothing :=
      .intro (by rintro _ _ ⟨⟩; exact List.isEmpty_iff.mp h) nofun
    simp only [List.mem_singleton, forall_eq]
    refine .intro nofun fun step hstep => ?_
    rwa [List.mem_singleton.mp hstep]
  · cases h

/-- A crash outside of all calls and assignments. -/
theorem exec_scoped_outside : ∃ log completion final,
    (exec .crashing "for i in a; do panic; done" intact).Runs log (completion, final) ∧
      completion.status = 1 ∧ final.state.loopDepth = 1 ∧
      final.state.positional <:+ intact.state.positional ∧
      (∀ next program, Syntax.parse next = .ok program →
        exec .crashing next final.refreshed = exec .crashing next final) ∧
      ∃ log' completion' failed,
        (exec .starving "for i in a; do panic; done" intact).Runs log' (completion', failed) ∧
        completion'.status = 1 ∧ ∀ next program, Syntax.parse next = .ok program →
          exec .crashing next failed = exec .crashing next final := by
  obtain ⟨log, ⟨completion, final⟩, hruns, hended⟩ := Proc.exists_runs Session.writtenReply?
    (exec .crashing "for i in a; do panic; done" intact)
    (fun x => x.2.1.status = 1 ∧ x.2.2.state.loopDepth = 1 ∧ x.2.2.state.callDepth = 0)
    (by decide +kernel)
  obtain ⟨hstatus, hloop, hdepth⟩ := of_decide_eq_true hended
  obtain ⟨program, hparse, hprogram⟩ := Syntax.exists_parse "for i in a; do panic; done" loopsBare
    (by decide +kernel)
  obtain ⟨hscopes, hrefreshed, hfails⟩ := exec_scoped hruns
  have hsuffix := hscopes.resolve_right fun ⟨_, hopen, _⟩ => absurd hdepth (Nat.ne_of_gt hopen)
  obtain ⟨log', completion', failed, scopes, hother, hends, hopen⟩ :=
    hfails (.other "lost") program hparse
  have hother' : (exec .starving "for i in a; do panic; done" intact).Runs log'
    (completion', failed) := hother
  have hstatus' : completion'.status = 1 := by
    rcases hends with ⟨_, rfl, _⟩ | ⟨_, _, _, h⟩
    · exact hstatus
    · exact h
  have hplain := hopen.isPlain (assignsNothing_of_loopsBare hprogram) hdepth
  exact ⟨log, completion, final, hruns, hstatus, hloop, hsuffix, hrefreshed, log', completion',
    failed, hother', hstatus', hopen.later hplain⟩

/-- A script that gives parameters to a function and a value to a command in it, and one that tells
how many parameters it finds. -/
def callAndCount (executor : Executor) : Proc (List Completion × Shell) :=
  (["f() { v=tmp panic; }; v=old; f a b", "exit $#"].mapM (exec executor) :
    StateT Shell Proc (List Completion)).run intact

/-- After a crash inside a function the parameters are those of the call, a variable has the value
that only one command was given, and the next script finds them so.  If the command fails
instead, it finds the old ones. -/
theorem crash_outlives :
    (∃ log completions final,
      (callAndCount .crashing).Runs log (completions, final) ∧
      completions.map Completion.status = [1, 2] ∧
      ¬final.state.positional <:+ intact.state.positional ∧
      final.state.get? "v" = some "tmp" ∧ final.state.isExported "v" = true) ∧
    ∃ log completions final,
      (callAndCount .starving).Runs log (completions, final) ∧
      completions.map Completion.status = [1, 0] ∧
      final.state.positional <:+ intact.state.positional ∧
      final.state.get? "v" = some "old" ∧ final.state.isExported "v" = false := by
  constructor
  · obtain ⟨log, ⟨completions, final⟩, hruns, hfinal⟩ := Proc.exists_runs Session.writtenReply?
      (callAndCount .crashing)
      (fun x => x.2.1.map Completion.status = [1, 2] ∧
        ¬x.2.2.state.positional <:+ intact.state.positional ∧
        x.2.2.state.get? "v" = some "tmp" ∧ x.2.2.state.isExported "v" = true)
      (by decide +kernel)
    exact ⟨log, completions, final, hruns, of_decide_eq_true hfinal⟩
  · obtain ⟨log, ⟨completions, final⟩, hruns, hfinal⟩ := Proc.exists_runs Session.writtenReply?
      (callAndCount .starving)
      (fun x => x.2.1.map Completion.status = [1, 0] ∧
        x.2.2.state.positional <:+ intact.state.positional ∧
        x.2.2.state.get? "v" = some "old" ∧ x.2.2.state.isExported "v" = false)
      (by decide +kernel)
    exact ⟨log, completions, final, hruns, of_decide_eq_true hfinal⟩

end Shell

end Conch
