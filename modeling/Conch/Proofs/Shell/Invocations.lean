import Conch.Proofs.Effect.Trees
import Conch.Proofs.Shell.Scopes

/-!
# Invocations give back their scopes

Builtins, functions, external commands and jobs.  Of the builtins only `break` and
`continue` are left with levels, at most as many as there are loops; `return` asks for
a function; and only `shift` and `unset` change what a scope holds.
-/

namespace Conch

open Syntax (Node)

/-! ## Builtins -/

namespace State

theorem set_frame (state : State) (name value : String) : state.Frame (state.set name value) :=
  ⟨rfl, rfl, rfl, rfl⟩

theorem unexportName_frame (state : State) (name : String) :
    state.Frame (state.unexportName name) := ⟨rfl, rfl, rfl, rfl⟩

theorem exportName_frame (state : State) (name : String) :
    state.Frame (state.exportName name) := by
  unfold exportName
  split
  · exact .refl state
  · exact ⟨rfl, rfl, rfl, rfl⟩

end State

namespace Builtin

theorem exportOne_frame (unexport : Bool) (reached : State × String) (arg : String) :
    reached.1.Frame (exportOne unexport reached arg).1 := by
  have hmark : ∀ (state : State) (name : String),
      state.Frame (if unexport then state.unexportName name else state.exportName name) := by
    intro state name
    split
    · exact state.unexportName_frame name
    · exact state.exportName_frame name
  unfold exportOne
  rcases splitAssignment arg with ⟨name, value⟩
  dsimp only
  split
  · exact .refl _
  · cases value with
    | none => exact hmark _ name
    | some value => exact (reached.1.set_frame name value).trans (hmark _ name)

theorem runExport_frame (state : State) (args : List String) :
    state.Frame (runExport state args).2 := by
  have hfold : ∀ (names : List String) (reached : State × String),
      reached.1.Frame (names.foldl (exportOne (args.contains "-n")) reached).1 := by
    intro names
    induction names with
    | nil => exact fun reached => .refl reached.1
    | cons name names ih =>
        exact fun reached => (exportOne_frame _ reached name).trans (ih _)
  unfold runExport
  dsimp only
  split
  · exact .refl state
  · exact hfold _ (state, "")

section

variable {counted : Prop} {functions : List String}

theorem removeFunction_scope (state : State) (name : String) :
    state.Scope counted functions (removeFunction state name) where
  loopDepth := rfl
  callDepth := rfl
  positional := List.suffix_rfl
  orderly horderly hcounted other body hbody := by
    by_cases hname : other = name
    · subst hname
      rw [removeFunction, Bindings.get?_erase_self] at hbody
      cases hbody
    · rw [removeFunction, Bindings.get?_erase_of_ne _ hname] at hbody
      exact horderly hcounted other body hbody

theorem unsetOne_scope (mode : UnsetMode) (state : State) (errors arg : String) :
    state.Scope counted functions (unsetOne mode state errors arg).1 := by
  have hunset : state.Scope counted functions (state.unset arg) := State.Frame.scope ⟨rfl, rfl, rfl, rfl⟩
  unfold unsetOne
  split
  · exact removeFunction_scope state arg
  split
  · exact (State.Frame.refl state).scope
  split
  · exact hunset.trans (removeFunction_scope _ arg)
  · exact hunset

theorem unsetFrom_scope (mode : UnsetMode) (state : State) (errors : String) (args : List String) :
    state.Scope counted functions (unsetFrom mode state errors args).1 := by
  fun_induction unsetFrom mode state errors args with
  | case1 mode state errors => exact (State.Frame.refl state).scope
  | case2 _ _ _ _ ih => exact ih
  | case3 _ _ _ _ ih => exact ih
  | case4 mode state errors arg args _ _ state' errors' hone ih =>
      have hscope : state.Scope counted functions (unsetOne mode state errors arg).1 :=
        unsetOne_scope mode state errors arg
      rw [hone] at hscope
      exact hscope.trans ih

theorem runUnset_scope (state : State) (args : List String) :
    state.Scope counted functions (runUnset state args).2 := unsetFrom_scope ..

theorem runShift_scope (state : State) (args : List String) :
    state.Scope counted functions (runShift state args).2 := by
  have hstays : state.Scope counted functions state := (State.Frame.refl state).scope
  have hdrop : ∀ count, state.Scope counted functions
      { state with positional := state.positional.drop count } :=
    fun count => ⟨rfl, rfl, List.drop_suffix .., fun horderly => horderly⟩
  cases args with
  | nil =>
      dsimp only [runShift]
      split
      · exact hstays
      · exact hdrop 1
  | cons arg rest =>
      dsimp only [runShift]
      cases Text.word64? arg with
      | none => exact hstays
      | some count =>
          dsimp only
          split
          · exact hstays
          · exact hdrop count

end

theorem runCd_returns (state : State) (args : List String) :
    (runCd state args).Returns fun x => state.Frame x.2 := by
  unfold runCd
  generalize directoryOptions false args = options
  obtain ⟨physical, rest⟩ := options
  dsimp only
  split
  · exact .refl state
  · rintro (_ | ⟨_ | _, _⟩)
    · exact .refl state
    · exact .refl state
    · cases physical with
      | false => exact ⟨rfl, rfl, rfl, rfl⟩
      | true => exact fun canonical => ⟨rfl, rfl, rfl, rfl⟩

theorem loopLevels_pos {name : String} {args : List String} {levels : Nat}
    (h : loopLevels name args = .ok levels) : 0 < levels := by
  unfold loopLevels at h
  split at h
  · cases h
    exact Nat.one_pos
  · split at h
    · cases h
      exact Nat.succ_pos _
    · cases h
  · cases h

/-- At most as many levels as there are loops. -/
theorem leaveLoops_eq_error {builtin : Builtin} {interruption : Nat → Interruption} {state : State}
    {args : List String} {raised : Interruption}
    (h : leaveLoops builtin interruption state args = .error raised) :
    ∃ levels, raised = interruption levels ∧ 0 < levels ∧ levels ≤ state.loopDepth := by
  unfold leaveLoops at h
  split at h
  · cases h
  · rename_i hdepth
    split at h
    · rename_i levels hlevels
      cases h
      have := loopLevels_pos hlevels
      exact ⟨_, rfl, by omega, Nat.min_le_right ..⟩
    · cases h

theorem runReturn_eq_error {state : State} {args : List String} {raised : Interruption}
    (h : runReturn state args = .error raised) :
    (∃ status, raised = .leaveFunction status) ∧ 0 < state.callDepth := by
  unfold runReturn at h
  split at h
  · cases h
  · rename_i hdepth
    refine ⟨?_, Nat.pos_of_ne_zero hdepth⟩
    split at h
    · cases h
      exact ⟨_, rfl⟩
    · split at h
      · cases h
        exact ⟨_, rfl⟩
      · cases h

theorem find?_name {dialect : Dialect} {name : String} {builtin : Builtin}
    (h : find? dialect name = some builtin) : builtin.name = name := by
  cases dialect with
  | embedded => simpa using List.find?_some h
  | standalone => simpa using List.find?_some h

theorem runKill_eq_error {state : State} {args : List String} {raised : Interruption}
    (h : runKill state args = .error raised) : ∃ status, raised = .leaveShell status := by
  unfold runKill at h
  split at h
  · cases h
  · split at h
    · cases h
    split at h
    · cases h
    · cases h
      exact ⟨_, rfl⟩

end Builtin

/-- Nothing to say is not written. -/
theorem emit_silent (status : Int) : Action.emit ⟨"", "", status⟩ = pure status := by
  have hempty : (Text.encode "").isEmpty = true := by decide +kernel
  have hwrite : ∀ output : Output, Action.writeTo output "" = pure () := by
    intro output
    rw [Action.writeTo, Output.write, Output.writeBytes, if_pos hempty]
    rfl
  simp only [Action.emit, Action.writeOutput, Action.writeErrors, hwrite]
  rfl

namespace Contract

open Builtin

theorem quiet_emit (completion : Completion) : quiet.Holds (Action.emit completion) :=
  (quiet_writeOutput _).bind fun _ => (quiet_writeErrors _).bind fun _ => .pure _

theorem quiet_countCommand : quiet.Holds countCommand := by
  refine (Holds.request _).bind fun _ => Holds.bind (quiet_modify fun shell => ?_) fun _ => ?_
  · exact ⟨rfl, rfl, rfl, rfl, rfl, rfl⟩
  · refine .get_bind fun shell => ?_
    split
    · exact quiet_fail _ rfl
    · exact .pure _

theorem quiet_joinStatus (task : TaskId) : quiet.Holds (Action.joinStatus task) :=
  (Holds.request _).bind fun _ => .pure _

theorem quiet_jobStates : quiet.Holds Action.jobStates :=
  .get_bind fun _ => .mapM _ fun _ _ => (Holds.request _).bind fun _ => .pure _

theorem quiet_reapJobs : quiet.Holds Action.reapJobs :=
  quiet_jobStates.bind fun _ => quiet_modify fun _ => ⟨rfl, rfl, .refl _⟩

theorem quiet_waitFor (id : Nat) : quiet.Holds (Action.waitFor id) := by
  refine .get_bind fun shell => ?_
  split
  · exact .pure _
  · refine Holds.bind (quiet_modify fun shell => ?_) fun _ =>
      (quiet_joinStatus _).bind fun _ => .pure _
    exact ⟨rfl, rfl, .refl _⟩

theorem quiet_waitForAll : quiet.Holds Action.waitForAll := by
  refine .get_bind fun shell => ?_
  rcases shell.jobs.takeAll with ⟨jobs, table⟩
  refine Holds.bind (quiet_modify fun shell => ?_) fun _ =>
    .forM jobs fun job _ => (quiet_joinStatus job.handle).discard
  exact ⟨rfl, rfl, .refl _⟩

theorem quiet_waitOne (reached : Completion) (arg : String) :
    quiet.Holds (waitOne reached arg) := by
  unfold waitOne
  dsimp only
  split
  · refine (quiet_waitFor _).bind fun status => ?_
    cases status with
    | some status => exact .pure _
    | none => exact .pure _
  · exact .pure _

theorem quiet_runWait (args : List String) : quiet.Holds (runWait args) := by
  unfold runWait
  split
  · exact quiet_waitForAll.bind fun _ => .pure _
  · exact (Holds.foldlM args (fun reached arg _ => quiet_waitOne reached arg) _).bind
      fun _ => quiet_emit _

theorem quiet_runJobs : quiet.Holds runJobs :=
  quiet_jobStates.bind fun _ => quiet_reapJobs.bind fun _ => quiet_emit _

theorem quiet_runRead (args : List String) : quiet.Holds (runRead args) := by
  refine .get_bind fun shell => ?_
  dsimp only
  split
  · exact (Holds.pure []).bind fun bytes => .state_bind fun state =>
      (Holds.forM _ fun _ _ => quiet_set _ _).bind fun _ => .pure _
  · refine (Holds.ofProc fun log interruption hruns _ => ?_).bind fun bytes => .state_bind fun state =>
      (Holds.forM _ fun _ _ => quiet_set _ _).bind fun _ => .pure _
    obtain ⟨result, _, _, _, _, _, hx⟩ := Proc.runs_bind.mp hruns
    cases result with
    | ok bytes => cases hx
    | error e =>
        cases hx
        rfl

theorem quiet_runExternal (executor : Executor) (arguments : List String) :
    quiet.Holds (runExternal executor arguments) := by
  refine .get_bind fun shell => .ofProc fun log interruption hruns _ => ?_
  obtain ⟨result, _, _, _, _, _, hx⟩ := Proc.runs_bind.mp hruns
  cases result with
  | ok status => cases hx
  | error fault =>
      cases fault with
      | stream e =>
          cases hx
          rfl
      | crash =>
          cases hx
          rfl

section

variable {counted : Prop} {functions : List String} {isCalm : Bool}

theorem tidy_of_quiet {α : Type} {inside : Nat} {body : Action α} (h : quiet.Holds body) :
    (tidy counted functions isCalm inside).Holds body := h.weaken quiet_implies

/-- A builtin that works on the state alone. -/
theorem tidy_onState {run : State → Completion × State}
    (h : ∀ state : State, state.Scope counted functions (run state).2) :
    (tidy counted functions isCalm 0).Holds (Action.onState run) := by
  intro shell hready
  refine .state_bind (HoldsAt.modify_bind ?_ ?_)
  · exact ⟨rfl, rfl, h shell.state⟩
  · exact tidy_of_quiet (quiet_emit _) _ ((h shell.state).orderly hready)

theorem tidy_onEffect (effect : State → Builtin.Effect)
    (h : ∀ (state : State) interruption, effect state = .error interruption →
      state.Allows counted isCalm 0 interruption) :
    (tidy counted functions isCalm 0).Holds (do Action.onEffect (effect (← Action.state))) := by
  intro shell hready
  refine .state_bind ?_
  cases heffect : effect shell.state with
  | ok completion => exact tidy_of_quiet (quiet_emit completion) shell hready
  | error interruption => exact .throw (h _ _ heffect)

theorem tidy_runExit (args : List String) :
    (tidy counted functions isCalm 0).Holds (runExit args) := by
  refine .state_bind fun state => (tidy_of_quiet (quiet_writeErrors _)).bind fun _ => ?_
  refine Holds.bind (tidy_of_quiet (quiet_modify fun shell => ?_)) fun _ => .throw fun _ _ => trivial
  exact ⟨rfl, rfl, rfl, rfl, rfl, rfl⟩

/-- Only `break` and `continue` end with levels. -/
theorem tidy_builtin (builtin : Builtin) (args : List String)
    (hcalm : counted → isCalm = true → builtin ≠ .breakLoop ∧ builtin ≠ .continueLoop) :
    (tidy counted functions isCalm 0).Holds (builtin.run args) := by
  cases builtin with
  | colon => exact tidy_of_quiet (quiet_emit _)
  | trueStatus => exact tidy_of_quiet (quiet_emit _)
  | falseStatus => exact tidy_of_quiet (quiet_emit _)
  | echo => exact tidy_of_quiet (quiet_emit _)
  | echoEscaped => exact tidy_of_quiet (quiet_emit _)
  | pwd => exact tidy_of_quiet (.state_bind fun _ => quiet_emit _)
  | cd =>
      intro shell hready
      refine .state_bind (.ofProc_bind fun log x hruns => ?_)
      have hframe := (runCd_returns shell.state args).of_runs hruns
      refine HoldsAt.modify_bind ?_ (tidy_of_quiet (quiet_emit _) _ (hframe.scope.orderly hready))
      exact ⟨rfl, rfl, hframe.scope⟩
  | exportNames => exact tidy_onState fun state => (runExport_frame state args).scope
  | unset =>
      change (tidy counted functions isCalm 0).Holds (Action.onState (runUnset · args))
      exact tidy_onState fun state => runUnset_scope state args
  | shift => exact tidy_onState fun state => runShift_scope state args
  | breakLoop =>
      refine tidy_onEffect (runBreak · args) fun state interruption h => ?_
      obtain ⟨levels, rfl, hpos, hle⟩ := leaveLoops_eq_error h
      exact ⟨hpos, fun hcounted => ⟨Bool.eq_false_iff.mpr fun h => (hcalm hcounted h).1 rfl, hle⟩⟩
  | continueLoop =>
      refine tidy_onEffect (runContinue · args) fun state interruption h => ?_
      obtain ⟨levels, rfl, hpos, hle⟩ := leaveLoops_eq_error h
      exact ⟨hpos, fun hcounted => ⟨Bool.eq_false_iff.mpr fun h => (hcalm hcounted h).2 rfl, hle⟩⟩
  | returnStatus =>
      refine tidy_onEffect (runReturn · args) fun state interruption h => ?_
      obtain ⟨⟨status, rfl⟩, hdepth⟩ := runReturn_eq_error h
      exact hdepth
  | exitShell => exact tidy_runExit args
  | jobs => exact tidy_of_quiet quiet_runJobs
  | wait => exact tidy_of_quiet (quiet_runWait args)
  | kill =>
      refine tidy_onEffect (runKill · args) fun state interruption h => ?_
      obtain ⟨status, rfl⟩ := runKill_eq_error h
      trivial
  | read => exact tidy_of_quiet (quiet_runRead args)

/-! ## Functions -/

/-- A function takes up its `return`. -/
def called (contract : Contract) : Contract :=
  { contract with
    allows := fun shell interruption =>
      contract.allows shell interruption ∨ ∃ status, interruption = .leaveFunction status
    inherits := fun h hallows => hallows.imp_left (contract.inherits h) }

theorem tidy_callFunction {call : Node → Action Int} (name : String) {body : Node}
    (args : List String) (hcall : (tidy counted functions isCalm 0).Holds (call body)) :
    (tidy counted functions isCalm 0).Holds (callFunction call name body args) := by
  intro shell hready
  refine .get_bind ?_
  split
  · exact .throw trivial
  intro log result final hacts
  obtain ⟨result, next, first, later, rfl, hfirst, hlater⟩ :=
    acts_attempt_bind.mp (acts_modify_bind.mp hacts)
  have houtcome : (tidy counted functions isCalm 0).called.Meets shell result next := by
    refine .bracket hfirst (hcall _ hready) (fun inside h => ?_) (fun interruption h => ?_)
    · obtain ⟨hstreams, hlimits, hstate⟩ := h
      refine ⟨hstreams, hlimits, hstate.loopDepth, ?_, List.suffix_rfl, hstate.orderly⟩
      rw [hstate.callDepth]
      rfl
    · cases interruption with
      | leaveFunction status => exact .inr ⟨status, rfl⟩
      | _ => exact .inl h
  split at hlater
  · obtain ⟨_, hx⟩ := acts_pure.mp hlater
    cases hx
    refine .ok ?_ _
    exact houtcome.keeps_ok
  · obtain ⟨_, hx⟩ := acts_pure.mp hlater
    cases hx
    refine .ok ?_ _
    exact houtcome.kept (by simp)
  · rename_i interruption hreturn
    refine houtcome.rethrow id id ?_ hlater
    rcases houtcome.allowed _ rfl with h | ⟨status, rfl⟩
    · exact h
    · exact absurd rfl (hreturn status)

/-! ## Simple commands -/

/-! ## Invocation -/

/-- The name leaves no loop and calls none of the functions. -/
def IsSafe (functions : List String) (name : String) : Prop :=
  name ∉ functions ∧ name ≠ "break" ∧ name ≠ "continue"

theorem tidy_invoke {executor : Executor} {call : Node → Action Int} {arguments : List String}
    (hsafe : counted → isCalm = true → ∀ name ∈ arguments.head?, IsSafe functions name)
    (hcall : ∀ body, (counted → body.isOrderly functions isCalm = true) →
      (tidy counted functions isCalm 0).Holds (call body)) :
    (tidy counted functions isCalm 0).Holds (invoke executor call arguments) := by
  intro shell hready
  cases arguments with
  | nil => exact Holds.pure 0 shell hready
  | cons name args =>
      have hbuiltin : ∀ builtin, Builtin.find? shell.dialect name = some builtin →
          (tidy counted functions isCalm 0).HoldsAt shell (builtin.run args) := by
        intro builtin hfind
        refine tidy_builtin builtin args (fun hcounted hcalm => ?_) shell hready
        obtain ⟨_, hbreak, hcontinue⟩ := hsafe hcounted hcalm name rfl
        rw [← find?_name hfind] at hbreak hcontinue
        exact ⟨fun h => hbreak (h ▸ rfl), fun h => hcontinue (h ▸ rfl)⟩
      have hfunction : ∀ body, shell.state.functions.get? name = some body →
          (tidy counted functions isCalm 0).HoldsAt shell (callFunction call name body args) := by
        intro body hbody
        refine tidy_callFunction name args (hcall body fun hcounted => ?_) shell hready
        obtain ⟨hname, horderly⟩ := hready hcounted name body hbody
        cases isCalm with
        | false => exact horderly
        | true => exact absurd hname (hsafe hcounted rfl name rfl).1
      refine .get_bind (.state_bind ?_)
      dsimp only
      split
      · rename_i builtin body hfind hget
        split
        · exact hbuiltin builtin hfind
        · exact hfunction body hget
      · rename_i builtin hfind _
        exact hbuiltin builtin hfind
      · rename_i body _ hget
        exact hfunction body hget
      · exact tidy_of_quiet (quiet_runExternal executor _) shell hready

end

end Contract

end Conch
