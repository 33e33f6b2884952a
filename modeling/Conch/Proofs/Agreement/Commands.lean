import Conch.Proofs.Agreement.Builtins
import Conch.Proofs.Shell.Loops

/-!
# Commands run alike

Builtins, external commands, functions and simple commands.  A function is called one
level deeper, and only where the limit on nested calls allows it.
-/

namespace Conch

open Syntax (Node)

/-- One call deeper. -/
def Level.deeper (level : Level) : Level := { level with callDepth := level.callDepth + 1 }

/-- What is known of the external commands.  No builtin of the dialect waits for the end of its
input or makes statuses of its own, unless that is reckoned with. -/
structure Executor.Supports (terms : Terms) (executor : Executor) : Prop where
  keeps : ∀ command streams, (executor command streams).Keeps terms.promise
    fun result => ∀ status, result = .ok status → terms.statuses status
  crash : ∀ command streams log, (executor command streams).Runs log (.error .crash) →
    terms.crashes
  terminates : terms.ends → ∀ command streams, (executor command streams).Terminates
  embedded : terms.dialect = .embedded ∨ ¬terms.ends ∧ ∀ status, terms.statuses status

theorem Executor.Supports.accord {terms : Terms} {executor : Executor}
    (h : executor.Supports terms) (command : ExternalCommand) (streams : Streams) :
    (executor command streams).Accord terms
      (fun result => ∀ status, result = .ok status → terms.statuses status)
      (executor command streams) where
  mirrors := h.keeps command streams
  free hall := ⟨rfl, (Proc.Returns.trivial _).mono fun _ _ status _ => hall status⟩
  ends hends := h.terminates hends command streams

theorem Executor.Supports.of_any {executor : Executor} {dialect : Dialect} {crashes ends : Prop}
    (hcrash : ∀ command streams log, (executor command streams).Runs log (.error .crash) → crashes)
    (hterminates : ends → ∀ command streams, (executor command streams).Terminates)
    (hembedded : ends → dialect = .embedded) :
    executor.Supports (.any dialect crashes ends) where
  keeps command streams := by
    have hall : ∀ outcome, (Terms.any dialect crashes ends).promise outcome :=
      Outcome.keeps_of_all fun _ => trivial
    exact Proc.Returns.keeps hall ((Proc.Returns.trivial _).mono fun _ _ _ _ => trivial)
  crash := hcrash
  terminates := hterminates
  embedded := (Classical.em ends).imp hembedded fun h => ⟨h, fun _ => trivial⟩

theorem Executor.Supports.settled {terms : Terms} {executor : Executor}
    (h : executor.Supports terms) : executor.Supports terms.settled :=
  ⟨h.keeps, h.crash, h.terminates, h.embedded⟩

theorem Executor.supports_any (executor : Executor) (dialect : Dialect) :
    executor.Supports (.any dialect True False) :=
  .of_any (fun _ _ _ _ => trivial) False.elim False.elim

section

variable {terms : Terms} {level : Level}

/-! ## Invocation -/

section

variable {executor : Executor} (hexecutor : executor.Supports terms)

include hexecutor

theorem alike_runExternal (arguments : List String) :
    Alike terms level terms.statuses (runExternal executor arguments)
      (runExternal executor arguments) := by
  refine .get_bind fun shell _ => .ofProc ?_ fun log hruns => ?_
  · refine (hexecutor.accord _ _).bind fun result hresult => .done ?_
    cases result with
    | ok status => exact hresult status rfl
    | error fault => cases fault <;> exact fun status hnone => nomatch hnone
  · obtain ⟨result, first, _, _, hfirst, _, hx⟩ := Proc.runs_bind.mp hruns
    cases result with
    | ok status => cases hx
    | error fault =>
        cases fault with
        | stream e => cases hx
        | crash => exact hexecutor.crash _ _ _ hfirst

variable {call call' : Node → Action Int}
  (hcall : level.callDepth < level.limits.callDepth → ∀ body,
    Alike terms level.deeper terms.statuses (call body) (call' body))

include hcall

omit hexecutor in
theorem alike_callFunction (name : String) (body : Node) (args : List String) :
    Alike terms level terms.statuses (callFunction call name body args)
      (callFunction call' name body args) := by
  refine .get_bind fun shell hshell => ?_
  split
  · exact .fail (by simp) rfl
  · rename_i hlimit
    intro entered hentered
    have hdepth : level.callDepth < level.limits.callDepth := by
      rw [← hshell.level]
      exact Nat.lt_of_not_le hlimit
    refine Agree.attempt_bind (.ensuring (hcall hdepth body _ ⟨?_, hentered.holds.congr rfl⟩)
        fun final hfinal => ⟨?_, hfinal.holds.congr rfl⟩)
      (fun result final hresult hcarries (hfinal : final.Meets terms.toHolding level) => ?_)
      fun final hfinal => .crashed hfinal
    · exact congrArg Level.deeper hentered.level
    · exact congrArg (fun inner : Level => { inner with callDepth := inner.callDepth - 1 })
        hfinal.level
    · cases result with
      | ok status => exact .ok hcarries hfinal
      | error interruption =>
          cases interruption with
          | crash => exact absurd rfl hresult
          | leaveFunction status => exact .ok (hcarries status rfl) hfinal
          | _ => exact .done (by simp) hcarries hfinal

theorem alike_invoke (arguments : List String) :
    Alike terms level terms.statuses (invoke executor call arguments)
      (invoke executor call' arguments) := by
  cases arguments with
  | nil => exact .pure (terms.status_of_nat (by decide))
  | cons name args =>
      refine .get_bind fun shell hshell => .state_bind fun state _ => ?_
      have hbuiltin : ∀ builtin, Builtin.find? shell.dialect name = some builtin →
          Alike terms level terms.statuses (builtin.run args) (builtin.run args) := by
        intro builtin hfind
        have hdialect := hshell.holds.dialect
        rcases hexecutor.embedded with hembedded | ⟨hends, hall⟩
        · rw [hdialect, hembedded] at hfind
          have hmem := List.mem_of_find?_eq_some hfind
          refine alike_builtin builtin args (fun _ hread => ?_) fun hkill => ?_
          · subst hread
            exact absurd hmem (by decide)
          · subst hkill
            exact absurd hmem (by decide)
        · exact alike_builtin builtin args (fun h => absurd h hends) fun _ => hall
      have hfunction := alike_callFunction hcall name
      dsimp only
      split
      · rename_i builtin body hfind _
        exact .ite (hbuiltin builtin hfind) (hfunction body args)
      · rename_i builtin hfind _
        exact hbuiltin builtin hfind
      · rename_i body _ _
        exact hfunction body args
      · exact alike_runExternal hexecutor _

end

/-! ## Simple commands -/

theorem alike_countCommand : Alike terms level anything countCommand countCommand :=
  .request_bind _ fun _ => Alike.andThen (.modifyState (fun _ => rfl) fun _ h => h) fun _ =>
    .get_bind fun shell _ => .ite (.fail (by simp) rfl) (.pure trivial)

/-- The words of a command are no higher than its arguments. -/
structure CommandParts.Low (height : Nat) (command : CommandParts) : Prop where
  assignments : ∀ a ∈ command.assignments, Node.heights a.value.fragments ≤ height
  words : Node.heights command.words ≤ height
  redirections : ∀ r ∈ command.redirections, r.target.height ≤ height

theorem Assignment.heights_value {word : Node} {a : Assignment} (h : ofWord? word = some a) :
    Node.heights a.value.fragments ≤ word.height := by
  unfold ofWord? at h
  split at h
  · rename_i text rest
    split at h
    · split at h
      · cases h
        simp only [Node.fragments, Node.height, Node.heights]
        split
        · omega
        · rw [Node.heights, Node.height]
          omega
      · cases h
    · cases h
  · cases h

theorem CommandParts.splitAssignments_low {height : Nat} {words : List Node}
    (h : ∀ word ∈ words, word.height ≤ height) :
    (∀ a ∈ (splitAssignments words).1, Node.heights a.value.fragments ≤ height) ∧
      Node.heights (splitAssignments words).2 ≤ height := by
  induction words with
  | nil => exact ⟨by simp [splitAssignments], Nat.zero_le _⟩
  | cons word rest ih =>
      obtain ⟨hword, hrest⟩ := List.forall_mem_cons.mp h
      rw [splitAssignments]
      split
      · rename_i assignment hassignment
        refine ⟨List.forall_mem_cons.mpr ⟨?_, (ih hrest).1⟩, (ih hrest).2⟩
        exact Nat.le_trans (Assignment.heights_value hassignment) hword
      · exact ⟨by simp, Node.heights_le h⟩

theorem CommandParts.low_ofArgs {height : Nat} {args : List Node}
    (h : Node.heights args ≤ height) : (ofArgs args).Low height := by
  have hargs : ∀ arg ∈ args, arg.height ≤ height := fun arg harg =>
    Nat.le_trans (Node.height_le harg) h
  obtain ⟨hassignments, hwords⟩ := splitAssignments_low fun word hword =>
    hargs word (List.mem_filter.mp hword).1
  refine ⟨hassignments, hwords, fun r hr => ?_⟩
  obtain ⟨arg, harg, hr⟩ := List.mem_filterMap.mp hr
  unfold Redirection.ofNode? at hr
  split at hr
  · cases hr
    have hheight := hargs _ harg
    rw [Node.height] at hheight
    exact Nat.le_of_succ_le hheight
  · cases hr

theorem State.pushAssignments_status (values : List (String × String)) (state : State)
    (saved : List SavedVariable) :
    (state.pushAssignments saved values).1.status = state.status := by
  induction values generalizing state saved with
  | nil => rfl
  | cons entry values ih => exact (ih _ _).trans (by simp)

theorem State.restoreAll_status (saved : List SavedVariable) (state : State) :
    (saved.foldl State.restore state).status = state.status := by
  induction saved generalizing state with
  | nil => rfl
  | cons first saved ih =>
      refine (ih _).trans ?_
      unfold restore
      dsimp only
      split <;> rfl

section

variable {height : Nat} {parts others : Evaluator}
  (hparts : parts.Agrees terms level height others)

include hparts

theorem alike_assignOnly (hsettled : ¬terms.leftover) {command : CommandParts}
    (h : command.Low height) :
    Alike terms level terms.statuses (assignOnly parts command) (assignOnly others command) := by
  refine (Alike.forM _ fun assignment hassignment => ?_).andThen fun _ => ?_
  · exact (alike_expandSingle hparts (h.assignments assignment hassignment)).andThen
      fun _ => .set _ _
  · refine (alike_redirectAll hparts h.redirections).discard.andThen
      fun _ => .get_bind fun shell hshell => .pure ?_
    cases hstatus : shell.substitutionStatus with
    | none => exact terms.status_of_nat (by decide)
    | some status => exact hshell.holds.substitution hsettled status hstatus

variable {executor : Executor} (hexecutor : executor.Supports terms)
variable {call call' : Node → Action Int}
  (hcall : level.callDepth < level.limits.callDepth → ∀ body,
    Alike terms level.deeper terms.statuses (call body) (call' body))

include hexecutor hcall

theorem alike_invokeUnder {command : CommandParts} (h : command.Low height)
    (arguments : List String) :
    Alike terms level terms.statuses (invokeUnder executor call parts command arguments)
      (invokeUnder executor call' others command arguments) := by
  refine (Alike.mapM _ fun assignment hassignment => ?_).andThen fun values => ?_
  · exact (alike_expandSingle hparts (h.assignments assignment hassignment)).andThen
      fun _ => .pure trivial
  refine (alike_redirectAll hparts h.redirections).andThen fun streams => ?_
  refine .get_bind fun shell hshell => ?_
  intro entered hentered
  have hpush := State.pushAssignments_frame values entered.state []
  have hstatus := State.pushAssignments_status values entered.state []
  refine .state_bind ?_
  generalize entered.state.pushAssignments [] values = pushed at hpush hstatus ⊢
  obtain ⟨state, saved⟩ := pushed
  refine .bracket (alike_invoke hexecutor hcall arguments) ⟨?_, ?_⟩ fun final hfinal => ⟨?_, ?_⟩
  · rw [← hentered.level, Shell.level, Shell.level, hpush.callDepth]
  · exact hentered.holds.congr (by rw [← hstatus])
  · rw [← hfinal.level, Shell.level, Shell.level,
      (State.restoreAll_frame saved final.state).callDepth]
  · have hrestored := State.restoreAll_status saved final.state
    exact hfinal.holds.congr (by simp only [hrestored])

end

/-- A command forgets the substitutions before it, so within it all is settled. -/
theorem alike_runSimple {height : Nat} {parts others : Evaluator}
    (hparts : parts.Agrees terms.settled level height others) {executor : Executor}
    (hexecutor : executor.Supports terms) {call call' : Node → Action Int}
    (hcall : level.callDepth < level.limits.callDepth → ∀ body,
      Alike terms.settled level.deeper terms.statuses (call body) (call' body))
    {args : List Node} (h : Node.heights args ≤ height) :
    Alike terms level terms.statuses (runSimple executor call parts args)
      (runSimple executor call' others args) := by
  have hcommand := CommandParts.low_ofArgs h
  intro shell hshell
  have hforgotten : Shell.Meets terms.settled.toHolding level
      { shell with substitutionStatus := none } :=
    ⟨hshell.level, hshell.holds.dialect, hshell.holds.status, fun _ _ hnone => nomatch hnone⟩
  refine Agree.of_settled ((alike_expandWords hparts hcommand.words).andThen (fun arguments => ?_)
    { shell with substitutionStatus := none } hforgotten)
  exact .ite (alike_assignOnly hparts not_false hcommand)
    (alike_invokeUnder hparts hexecutor.settled hcall hcommand arguments)

end

end Conch
