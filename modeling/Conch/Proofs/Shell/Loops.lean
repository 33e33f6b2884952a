import Conch.Proofs.Effect.Trees
import Conch.Proofs.Shell.Invocations

/-!
# Loops

Statements give back their scopes, and what leaves a statement by `break` or `continue`
is meant for a loop around it, as long as the tests of loops are calm
(`execute_leaves_loops`).  What leaves a test has lost no level on the way out of its loop,
so it also leaves what stands around that loop (`break_in_test`).
-/

namespace Conch

open Syntax (Node Branch Arm)

/-! ## Names that are written out -/

theorem Fields.addLiteral_plain {text : List Char} (h : ∀ c ∈ text, c ≠ '\'' ∧ c ≠ '\\')
    (fields : Fields) (run : List Char) :
    fields.addLiteral run text = fields.addUnquoted (String.ofList (run.reverse ++ text)) := by
  induction text generalizing run with
  | nil => rw [addLiteral, List.append_nil]
  | cons c text ih =>
      obtain ⟨⟨hquote, hescape⟩, hrest⟩ := List.forall_mem_cons.mp h
      rw [addLiteral, ih hrest, List.reverse_cons, List.append_assoc]
      · rfl
      all_goals simp [hquote, hescape]

section

variable {text : String}

theorem isBare_iff : isBare text = true ↔
    text ≠ "" ∧ ∀ c ∈ text.toList, c ≠ '\'' ∧ c ≠ '\\' ∧ c ≠ '~' ∧ c ≠ '*' ∧ c ≠ '?' ∧ c ≠ '[' := by
  simp [isBare]

theorem homeOf_bare (h : isBare text = true) (state : State) : homeOf state text.toList = none := by
  have hall := (isBare_iff.mp h).2
  cases hchars : text.toList with
  | nil => rfl
  | cons c rest =>
      have hc := (hall c (by simp [hchars])).2.2.1
      rw [homeOf]
      simpa using hc

theorem hasWildcard_bare (h : isBare text = true) : Pattern.hasWildcard text = false := by
  rw [Pattern.hasWildcard, List.any_eq_false]
  intro c hc
  obtain ⟨_, _, _, hstar, hany, hclass⟩ := (isBare_iff.mp h).2 c hc
  simp [hstar, hany, hclass]

/-- A bare text makes one field. -/
theorem Fields.toList_bare (h : isBare text = true) (separators : String) :
    ((Fields.new true separators).addUnquoted text).toList = [⟨text, text, false⟩] := by
  simp [addUnquoted, new, toList, finish, Field.empty, (isBare_iff.mp h).1, hasWildcard_bare h]

section

variable {parts : Evaluator}
  (hliteral : ∀ fields, parts.expand false (.literal text) fields =
    pure (fields.addLiteral [] text.toList))

include hliteral

theorem expandWord_bare (h : isBare text = true) (shell : Shell) :
    expandWord parts true (.word [.literal text]) shell =
      .done (.ok ((Fields.new true ((shell.state.get? "IFS").getD standardSeparators)).addUnquoted
        text), shell) := by
  have hplain : ∀ c ∈ text.toList, c ≠ '\'' ∧ c ≠ '\\' := fun c hc =>
    ⟨((isBare_iff.mp h).2 c hc).1, ((isBare_iff.mp h).2 c hc).2.1⟩
  have hstate : ∀ next : State → Action Fields,
      (Action.state >>= next) shell = next shell.state shell := fun _ => rfl
  rw [expandWord, hstate]
  dsimp only [Node.fragments]
  rw [homeOf_bare h]
  dsimp only
  rw [expandAll, List.foldlM_cons, hliteral, Fields.addLiteral_plain hplain, pure_bind,
    List.foldlM_nil, List.reverse_nil, List.nil_append, String.ofList_toList]
  rfl

/-- A bare word is one field, its text. -/
theorem acts_expandWord_bare (h : isBare text = true) (shell : Shell) :
    ∃ fields : Fields, fields.toList = [⟨text, text, false⟩] ∧ ∀ log x,
      Acts (expandWord parts true (.word [.literal text])) shell log x ↔
        log = [] ∧ x = (.ok fields, shell) := by
  refine ⟨_, Fields.toList_bare h ((shell.state.get? "IFS").getD standardSeparators),
    fun log x => ?_⟩
  change (expandWord parts true (.word [.literal text]) shell).Runs log x ↔ _
  rw [expandWord_bare hliteral h]
  rfl

/-- A bare word at the head of some words is their first argument. -/
theorem acts_expandWords_bare (h : isBare text = true) (rest : List Node) {shell : Shell}
    {log : List Exchange} {x : Except Interruption (List String) × Shell} :
    Acts (expandWords parts (.word [.literal text] :: rest)) shell log x ↔
      Acts (do return text :: (← expandWords parts rest)) shell log x := by
  obtain ⟨fields, hfields, hacts⟩ := acts_expandWord_bare hliteral h shell
  have hfirst : ∀ first y, Acts (do
        (← expandWord parts true (.word [.literal text])).toList.flatMapM fieldNames)
        shell first y ↔ first = [] ∧ y = (.ok [text], shell) := by
    intro first y
    rw [acts_bind]
    constructor
    · rintro (⟨e, s', rfl, hword⟩ | ⟨found, s', before, after, rfl, hword, hnames⟩)
      · cases ((hacts _ _).mp hword).2
      · obtain ⟨rfl, hx⟩ := (hacts _ _).mp hword
        cases hx
        rw [hfields] at hnames
        exact hnames
    · rintro ⟨rfl, rfl⟩
      refine .inr ⟨fields, shell, [], [], rfl, (hacts _ _).mpr ⟨rfl, rfl⟩, ?_⟩
      rw [hfields]
      exact ⟨rfl, rfl⟩
  rw [expandWords, List.flatMapM_cons, acts_bind]
  constructor
  · rintro (⟨e, s', rfl, hword⟩ | ⟨found, s', before, after, rfl, hword, hrest⟩)
    · cases ((hfirst _ _).mp hword).2
    · obtain ⟨rfl, hx⟩ := (hfirst _ _).mp hword
      cases hx
      exact hrest
  · intro hrest
    exact .inr ⟨[text], shell, [], log, rfl, (hfirst _ _).mpr ⟨rfl, rfl⟩, hrest⟩

end

end

/-! ## Simple commands -/

theorem CommandParts.splitAssignments_suffix (words : List Node) :
    (splitAssignments words).2 <:+ words := by
  induction words with
  | nil => exact List.suffix_rfl
  | cons word rest ih =>
      rw [splitAssignments]
      split
      · exact ih.trans (List.suffix_cons ..)
      · exact List.suffix_rfl

theorem CommandParts.mem_args {args : List Node} {word : Node}
    (h : word ∈ (ofArgs args).words) : word ∈ args :=
  (List.mem_filter.mp ((splitAssignments_suffix _).subset h)).1

theorem State.pushAssignments_frame (values : List (String × String)) (state : State)
    (saved : List SavedVariable) : state.Frame (state.pushAssignments saved values).1 := by
  induction values generalizing state saved with
  | nil => exact .refl state
  | cons entry values ih =>
      have hpush : state.Frame (state.pushAssignment entry.1 entry.2).1 :=
        (state.set_frame _ _).trans (State.exportName_frame _ _)
      exact hpush.trans (ih _ _)

theorem State.restore_frame (state : State) (saved : SavedVariable) :
    state.Frame (state.restore saved) := by
  unfold restore
  dsimp only
  split
  · exact ⟨rfl, rfl, rfl, rfl⟩
  · exact ⟨rfl, rfl, rfl, rfl⟩

theorem State.restoreAll_frame (saved : List SavedVariable) (state : State) :
    state.Frame (saved.foldl State.restore state) := by
  induction saved generalizing state with
  | nil => exact .refl state
  | cons first saved ih => exact (state.restore_frame first).trans (ih _)

theorem leftInterruption_isControl {outcome : Outcome} {interruption : Interruption}
    (h : leftInterruption outcome = some interruption) : interruption.isControl = false := by
  unfold leftInterruption at h
  split at h
  · cases h
    rfl
  · split at h
    · cases h
    · cases h
      rfl
  · cases h
    rfl
  · cases h

namespace Contract

theorem quiet_startJob (executor : Executor) (call : Node → Action Int) (parts : Evaluator)
    (args : List Node) : quiet.Holds (startJob executor call parts args) := by
  refine .get_bind fun shell => (Holds.lift _).bind fun task => ?_
  rcases shell.jobs.spawn (Node.command args false).render task with ⟨id, jobs⟩
  refine Holds.bind (quiet_modify fun shell => ?_) fun _ => .pure _
  exact ⟨rfl, rfl, rfl, rfl, rfl, rfl⟩

section

variable {parts : Evaluator}
  (hparts : ∀ isQuoted node fields, quiet.Holds (parts.expand isQuoted node fields))

include hparts

theorem quiet_assignOnly (command : CommandParts) : quiet.Holds (assignOnly parts command) := by
  refine (Holds.forM _ fun assignment _ =>
    (quiet_expandSingle hparts _).bind fun _ => quiet_set _ _).bind fun _ => ?_
  exact (quiet_redirectAll hparts _).discard.bind fun _ => .get_bind fun _ => .pure _

variable {counted : Prop} {functions : List String} {isCalm : Bool}
variable {executor : Executor} {call : Node → Action Int}
  (hcall : ∀ body, (counted → body.isOrderly functions isCalm = true) →
    (tidy counted functions isCalm 0).Holds (call body))

include hcall

theorem tidy_invokeUnder (command : CommandParts) {arguments : List String}
    (hsafe : counted → isCalm = true → ∀ name ∈ arguments.head?, IsSafe functions name) :
    (tidy counted functions isCalm 0).Holds (invokeUnder executor call parts command arguments) := by
  have hvalues : quiet.Holds (command.assignments.mapM fun assignment => do
      return (assignment.name, ← expandSingle parts assignment.value)) :=
    .mapM _ fun _ _ => (quiet_expandSingle hparts _).bind fun _ => .pure _
  refine (tidy_of_quiet hvalues).bind fun values =>
    (tidy_of_quiet (quiet_redirectAll hparts _)).bind fun streams shell hready => ?_
  refine .get_bind (.state_bind ?_)
  have hpush := State.pushAssignments_frame values shell.state []
  generalize shell.state.pushAssignments [] values = pushed at hpush ⊢
  obtain ⟨state, saved⟩ := pushed
  have hscope : shell.state.Scope counted functions state := hpush.scope
  intro log result final hacts
  refine .bracket (acts_modify_bind.mp hacts)
    (tidy_invoke hsafe hcall _ (hscope.orderly hready)) (fun inside h => ?_) (fun i h => ?_)
  · obtain ⟨_, hlimits, hstate⟩ := h
    exact ⟨rfl, hlimits, hscope.trans (hstate.trans (State.restoreAll_frame saved _).scope)⟩
  · exact hscope.allows h

theorem tidy_runSimple {args : List Node}
    (hliteral : ∀ text, .word [.literal text] ∈ args → ∀ fields,
      parts.expand false (.literal text) fields = pure (fields.addLiteral [] text.toList))
    (hcalm : counted → isCalm = true → (CommandParts.ofArgs args).isCalm functions = true) :
    (tidy counted functions isCalm 0).Holds (runSimple executor call parts args) := by
  refine Holds.bind (tidy_of_quiet (quiet_modify fun shell => ?_)) fun _ shell hready => ?_
  · exact ⟨rfl, rfl, .refl _⟩
  refine (tidy_of_quiet (quiet_expandWords hparts _) shell hready).bind
    fun log arguments next hacts hkeeps => ?_
  have hnext := Contract.stays _ hkeeps hready
  split
  · exact tidy_of_quiet (quiet_assignOnly hparts _) _ hnext
  · rename_i hempty
    refine tidy_invokeUnder hparts hcall _ (fun hcounted hmust => ?_) _ hnext
    have hcommand := hcalm hcounted hmust
    unfold CommandParts.isCalm at hcommand
    split at hcommand
    · rename_i hwords
      rw [hwords] at hacts
      obtain ⟨_, hx⟩ := acts_pure.mp hacts
      cases hx
      exact absurd rfl hempty
    · rename_i text rest hwords
      simp only [Bool.and_eq_true, bne_iff_ne, Bool.not_eq_true', ne_eq] at hcommand
      obtain ⟨⟨⟨hbare, hfunction⟩, hbreak⟩, hcontinue⟩ := hcommand
      have hmem : .word [.literal text] ∈ args :=
        CommandParts.mem_args (by rw [hwords]; exact List.mem_cons_self ..)
      rw [hwords, acts_expandWords_bare (hliteral text hmem) hbare] at hacts
      rcases acts_bind.mp hacts with ⟨_, _, hx, _⟩ | ⟨more, _, _, _, _, _, _, hx⟩
      · cases hx
      · cases hx
        intro name hname
        obtain rfl := Option.some.inj hname
        exact ⟨fun hmem => by simp [hmem] at hfunction, hbreak, hcontinue⟩
    · cases hcommand

end

/-! ## Pipelines -/

/-- Control flow ends with the stages. -/
theorem quiet_runPipe (parts : Evaluator) (left right : Node) :
    quiet.Holds (runPipe parts left right) := by
  refine (Holds.request _).bind fun pipe => (Holds.request _).bind fun input => ?_
  refine .get_bind fun shell => (Holds.lift _).bind fun task => Holds.bind ?_ fun x => ?_
  · refine .onCopy fun shell log interruption final hacts => ?_
    obtain ⟨result, next, _, later, _, _, hend⟩ := acts_attempt_bind.mp hacts
    have hallows : quiet.allows next interruption := by
      split at hend
      · exact Holds.interrupted hend trivial
          ((Holds.request _).discard.bind fun _ => quiet_fail _ rfl)
      · exact Holds.interrupted hend trivial ((Holds.request _).bind fun _ =>
          (Holds.request _).bind fun _ => (quiet_endWith result).bind fun _ => .pure _)
    exact hallows
  · obtain ⟨status, outcome⟩ := x
    dsimp only
    split
    · rename_i interruption h
      exact quiet_fail _ (leftInterruption_isControl h)
    · exact .pure _

/-! ## Constructs -/

section

variable {counted : Prop} {functions : List String} {isCalm : Bool} {inside : Nat}

/-- What is never left with levels may stand anywhere. -/
theorem calm_implies :
    (tidy counted functions true 0).Implies (tidy counted functions isCalm inside) where
  ready _ h := h
  keeps _ _ h := h
  allows shell interruption h := by
    cases interruption with
    | breakLoops levels => exact ⟨h.1, fun hcounted => by cases (h.2 hcounted).1⟩
    | continueLoop levels => exact ⟨h.1, fun hcounted => by cases (h.2 hcounted).1⟩
    | _ => exact h

/-- A statement reports the failures of its command. -/
theorem reported_recording {body : Action Int}
    (h : (tidy counted functions isCalm 0).Holds body) :
    (tidy counted functions isCalm 0).reported.Holds (Action.recording body) := by
  have hrecord : ∀ status, (tidy counted functions isCalm 0).reported.Holds
      (Action.modifyState fun state => { state with status := status }) := fun status =>
    .modifyState fun shell _ => ⟨rfl, rfl, State.Frame.scope ⟨rfl, rfl, rfl, rfl⟩⟩
  intro shell hready
  refine .attempt_bind (h shell hready) fun result next log last final hmeets hacts => ?_
  cases result with
  | ok status =>
      have hkeeps := hmeets.keeps_ok
      exact ((hrecord status).bind (fun _ => .pure status) next (Contract.stays _ hkeeps hready)
        _ _ _ hacts).after hkeeps
  | error interruption =>
      dsimp only at hacts
      split at hacts
      · rename_i hlocal
        have hkeeps := hmeets.kept fun heq => by
          cases heq
          cases hlocal
        have hstream : ∀ shell e,
            (tidy counted functions isCalm 0).reported.allows shell (.stream e) :=
          fun _ _ => ⟨trivial, rfl⟩
        exact (((Holds.report hstream interruption).bind fun status => (hrecord status).bind fun _ => .pure status) next
          (Contract.stays _ hkeeps hready) _ _ _ hacts).after hkeeps
      · rename_i hlocal
        have hallowed := hmeets.allowed _ rfl
        exact hmeets.rethrow id id ⟨hallowed, Bool.eq_false_iff.mpr hlocal⟩ hacts

end

end Contract

/-- An evaluator for trees of a height keeps the contracts of their statements and words. -/
structure Evaluator.Tidy (counted : Prop) (functions : List String) (height : Nat)
    (parts : Evaluator) : Prop where
  execute : ∀ isCalm node, Syntax.Suits counted functions height isCalm node →
    (Contract.tidy counted functions isCalm 0).reported.Holds (parts.execute node)
  expand : ∀ isQuoted node fields, Contract.quiet.Holds (parts.expand isQuoted node fields)
  literal : 0 < height → ∀ text fields,
    parts.expand false (.literal text) fields = pure (fields.addLiteral [] text.toList)

namespace Contract

section

variable {counted : Prop} {functions : List String} {height : Nat} {isCalm : Bool}
variable {parts : Evaluator} (hparts : parts.Tidy counted functions height)

include hparts

theorem tidy_execute {node : Node} (h : Syntax.Suits counted functions height isCalm node) :
    (tidy counted functions isCalm 0).Holds (parts.execute node) :=
  (hparts.execute isCalm node h).weaken (reported_implies _)

theorem tidy_executeAll {nodes : List Node}
    (h : ∀ n ∈ nodes, Syntax.Suits counted functions height isCalm n) :
    (tidy counted functions isCalm 0).Holds (executeAll parts nodes) :=
  .foldlM nodes (fun _ n hn => tidy_execute hparts (h n hn)) 0

theorem tidy_runBranches {otherwise : List Node} {branches : List Branch}
    (hbranches : ∀ t b, Branch.mk t b ∈ branches →
      Syntax.Suits counted functions height isCalm t ∧
        ∀ n ∈ b, Syntax.Suits counted functions height isCalm n)
    (hotherwise : ∀ n ∈ otherwise, Syntax.Suits counted functions height isCalm n)
    (status : Int) :
    (tidy counted functions isCalm 0).Holds (runBranches parts otherwise status branches) := by
  induction branches generalizing status with
  | nil =>
      rw [runBranches]
      split
      · exact .pure status
      · exact tidy_executeAll hparts hotherwise
  | cons branch branches ih =>
      obtain ⟨test, body⟩ := branch
      obtain ⟨⟨htest, hbody⟩, hrest⟩ := Branch.forall_mem_cons.mp hbranches
      refine (tidy_execute hparts htest).bind fun status => ?_
      split
      · exact tidy_executeAll hparts hbody
      · exact ih hrest status

theorem tidy_runArms {subject : String} {arms : List Arm}
    (harms : ∀ ps b, Arm.mk ps b ∈ arms →
      ∀ n ∈ b, Syntax.Suits counted functions height isCalm n) :
    (tidy counted functions isCalm 0).Holds (runArms parts subject arms) := by
  induction arms with
  | nil => exact .pure 0
  | cons arm arms ih =>
      obtain ⟨patterns, body⟩ := arm
      obtain ⟨hbody, hrest⟩ := Arm.forall_mem_cons.mp harms
      refine (tidy_of_quiet (quiet_anyMatches hparts.expand _ _)).bind fun found => ?_
      split
      · exact tidy_executeAll hparts hbody
      · exact ih hrest

theorem tidy_runBinary {op : Syntax.Token} {left right : Node}
    (h : op ≠ .pipe → Syntax.Suits counted functions height isCalm left ∧
      Syntax.Suits counted functions height isCalm right) :
    (tidy counted functions isCalm 0).Holds (runBinary parts op left right) := by
  unfold runBinary
  split
  · obtain ⟨hleft, hright⟩ := h (by simp)
    refine (tidy_execute hparts hleft).bind fun status => ?_
    split
    · exact .pure _
    · exact tidy_execute hparts hright
  · obtain ⟨hleft, hright⟩ := h (by simp)
    refine (tidy_execute hparts hleft).bind fun status => ?_
    split
    · exact .pure _
    · exact tidy_execute hparts hright
  · exact tidy_of_quiet (quiet_runPipe _ _ _)
  · exact .throw fun _ _ => trivial

/-! ### Loops -/

omit hparts in
/-- A loop takes a level off what leaves its body. -/
theorem allows_of_loopAction {state : State} {interruption raised : Interruption}
    (h : loopAction interruption = .pass raised)
    (hallows : state.Allows counted isCalm 0 interruption) :
    state.Allows counted isCalm 1 raised := by
  cases interruption with
  | breakLoops levels =>
      rw [loopAction] at h
      split at h
      · cases h
      · cases h
        obtain ⟨hpos, hcounted⟩ := hallows
        exact ⟨by omega, fun hc => ⟨(hcounted hc).1, by have := (hcounted hc).2; omega⟩⟩
  | continueLoop levels =>
      rw [loopAction] at h
      split at h
      · cases h
      · cases h
        obtain ⟨hpos, hcounted⟩ := hallows
        exact ⟨by omega, fun hc => ⟨(hcounted hc).1, by have := (hcounted hc).2; omega⟩⟩
  | _ =>
      cases h
      exact hallows

omit hparts in
/-- A round of a loop: after its body the loop ends, goes on, or is left itself. -/
theorem tidy_round {shell : Shell} {body : Action Int}
    {after : Except Interruption Int → Action Int}
    (hbody : (tidy counted functions isCalm 0).HoldsAt shell body)
    (hready : (tidy counted functions isCalm 1).ready shell)
    (hok : ∀ status, (tidy counted functions isCalm 1).Holds (after (.ok status)))
    (hleave : ∀ i, loopAction i = .leave → (tidy counted functions isCalm 1).Holds (after (.error i)))
    (hnext : ∀ i, loopAction i = .next → (tidy counted functions isCalm 1).Holds (after (.error i)))
    (hpass : ∀ i raised, loopAction i = .pass raised → after (.error i) = throw raised) :
    (tidy counted functions isCalm 1).HoldsAt shell (body.attempt >>= after) := by
  refine .attempt_bind hbody fun result next log last final hmeets hacts => ?_
  have hgoes : result ≠ .error .crash → (tidy counted functions isCalm 1).Holds (after result) →
      (tidy counted functions isCalm 1).Meets shell last final := by
    intro hcrash hholds
    have hkeeps := hmeets.kept hcrash
    exact (hholds next (Contract.stays _ hkeeps hready) _ _ _ hacts).after hkeeps
  cases result with
  | ok status => exact hgoes (by simp) (hok status)
  | error interruption =>
      cases haction : loopAction interruption with
      | leave => exact hgoes (by rintro ⟨⟩; cases haction) (hleave _ haction)
      | next => exact hgoes (by rintro ⟨⟩; cases haction) (hnext _ haction)
      | pass raised =>
          rw [hpass _ _ haction] at hacts
          refine hmeets.rethrow (fun hcrash => ?_) id
            (allows_of_loopAction haction (hmeets.allowed _ rfl)) hacts
          subst hcrash
          cases haction
          rfl

theorem tidy_whileRounds {test : Node} {body : List Node}
    (htest : Syntax.Suits counted functions height true test)
    (hbody : ∀ n ∈ body, Syntax.Suits counted functions height isCalm n) (limit rounds : Nat)
    (last : Int) :
    (tidy counted functions isCalm 1).Holds (whileRounds parts test body limit rounds last) := by
  have hcondition : (tidy counted functions isCalm 1).Holds (parts.execute test) :=
    (tidy_execute hparts htest).weaken calm_implies
  induction rounds generalizing last with
  | zero =>
      refine hcondition.bind fun status => ?_
      split
      · exact .get_bind fun _ => .pure _
      · exact .throw fun _ _ => trivial
  | succ rounds ih =>
      refine hcondition.bind fun status => ?_
      split
      · exact .get_bind fun _ => .pure _
      intro shell hready
      refine tidy_round (tidy_executeAll hparts hbody shell hready) hready (fun status => ih status)
        (fun i hi => ?_) (fun i hi => ?_) (fun i raised hi => ?_)
      · dsimp only
        rw [hi]
        exact .pure 0
      · dsimp only
        rw [hi]
        exact ih _
      · dsimp only
        rw [hi]

theorem tidy_forRounds {name : String} {body : List Node}
    (hbody : ∀ n ∈ body, Syntax.Suits counted functions height isCalm n) (limit rounds : Nat)
    (status : Int) (values : List String) :
    (tidy counted functions isCalm 1).Holds
      (forRounds parts name body limit rounds status values) := by
  induction values generalizing rounds status with
  | nil =>
      rw [forRounds]
      exact .pure status
  | cons value values ih =>
      cases rounds with
      | zero => exact .throw fun _ _ => trivial
      | succ rounds =>
          refine Holds.bind (tidy_of_quiet (quiet_set name value)) fun _ shell hready => ?_
          refine tidy_round (tidy_executeAll hparts hbody shell hready) hready
            (fun status => ih _ status) (fun i hi => ?_) (fun i hi => ?_) (fun i raised hi => ?_)
          · dsimp only
            rw [hi]
            exact .pure 0
          · dsimp only
            rw [hi]
            exact .state_bind fun state => ih _ _
          · dsimp only
            rw [hi]

omit hparts in
/-- Inside a loop there is one level more. -/
theorem tidy_inLoop {body : Action Int} (h : (tidy counted functions isCalm 1).Holds body) :
    (tidy counted functions isCalm 0).Holds (inLoop body) := by
  intro shell hready log result final hacts
  refine .bracket (acts_modify_bind.mp hacts) (h _ hready) (fun inside hkeeps => ?_)
    (fun interruption hallows => ?_)
  · obtain ⟨hstreams, hlimits, hstate⟩ := hkeeps
    refine ⟨hstreams, hlimits, ?_, hstate.callDepth, hstate.positional, hstate.orderly⟩
    rw [hstate.loopDepth]
    rfl
  · cases interruption with
    | breakLoops levels =>
        exact ⟨hallows.1, fun hc => ⟨(hallows.2 hc).1, Nat.le_of_succ_le_succ (hallows.2 hc).2⟩⟩
    | continueLoop levels =>
        exact ⟨hallows.1, fun hc => ⟨(hallows.2 hc).1, Nat.le_of_succ_le_succ (hallows.2 hc).2⟩⟩
    | _ => exact hallows

/-! ## Statements -/

variable {executor : Executor} {call : Node → Action Int}
  (hcall : ∀ isCalm body, (counted → body.isOrderly functions isCalm = true) →
    (tidy counted functions isCalm 0).Holds (call body))

include hcall

theorem tidy_runCommand {args : List Node} {background : Bool}
    (h : Syntax.Suits counted functions (height + 1) isCalm (.command args background)) :
    (tidy counted functions isCalm 0).Holds (runCommand executor call parts args background) := by
  obtain ⟨hheight, hcalm⟩ := h.command
  refine (tidy_of_quiet quiet_countCommand).bind fun _ => ?_
  cases background with
  | true => exact tidy_of_quiet (quiet_startJob executor call parts args)
  | false =>
      refine tidy_runSimple hparts.expand (hcall isCalm) (fun text hmem => ?_)
        fun hcounted hmust => hcalm hcounted hmust rfl
      have hword := Syntax.Node.height_le hmem
      simp only [Syntax.Node.height] at hword
      exact hparts.literal (by omega) text

theorem reported_executeNode {node : Node}
    (h : Syntax.Suits counted functions (height + 1) isCalm node) :
    (tidy counted functions isCalm 0).reported.Holds (executeNode executor call parts node) := by
  refine reported_recording ?_
  cases node with
  | command args background => exact tidy_runCommand hparts hcall h
  | subshell body => exact tidy_of_quiet (quiet_inSubshell _ _)
  | group body => exact tidy_executeAll hparts h.group
  | conditional test body elifs otherwise =>
      exact tidy_runBranches hparts h.conditional.1 h.conditional.2 0
  | whileLoop test body =>
      exact tidy_inLoop (.get_bind fun shell =>
        tidy_whileRounds hparts h.whileLoop.1 h.whileLoop.2 _ _ 0)
  | forLoop name words body =>
      have hrounds : ∀ values, (tidy counted functions isCalm 0).Holds (inLoop do
          let limit := (← get).limits.iterations
          forRounds parts name body limit limit 0 values) := fun values =>
        tidy_inLoop (.get_bind fun shell => tidy_forRounds hparts h.forLoop _ _ 0 values)
      have hwords := (tidy_of_quiet (quiet_expandWords hparts.expand words)).bind hrounds
      dsimp only [runFor]
      split
      · exact .throw fun _ _ => trivial
      · exact hwords
  | choice subject arms =>
      exact (tidy_of_quiet (quiet_expandSingle hparts.expand subject)).bind fun text =>
        tidy_runArms hparts h.choice
  | binary op left right => exact tidy_runBinary hparts h.binary
  | function name body =>
      refine Holds.bind (.modifyState fun shell hready => ⟨rfl, rfl, rfl, rfl, List.suffix_rfl,
        fun horderly hcounted other found hfound => ?_⟩) fun _ => .pure 0
      by_cases hname : other = name
      · subst hname
        rw [Bindings.get?_insert_self] at hfound
        cases hfound
        exact h.function hcounted
      · rw [Bindings.get?_insert_of_ne _ _ hname] at hfound
        exact horderly hcounted other found hfound
  | _ => exact .throw fun _ _ => trivial

end

end Contract

section

variable (counted : Prop) (functions : List String) (executor : Executor)

theorem evaluator_tidy {call : Node → Action Int}
    (hcall : ∀ isCalm body, (counted → body.isOrderly functions isCalm = true) →
      (Contract.tidy counted functions isCalm 0).Holds (call body)) (height : Nat) :
    (evaluator executor call height).Tidy counted functions height := by
  induction height with
  | zero =>
      exact ⟨fun _ _ _ => .pure 0, fun _ _ fields => .pure fields, fun h => absurd h (by simp)⟩
  | succ height ih =>
      exact ⟨fun _ _ h => Contract.reported_executeNode ih hcall h,
        fun isQuoted node fields => Contract.quiet_expandFragment ih.expand isQuoted node fields,
        fun _ _ _ => rfl⟩

theorem executeWithin_tidy (calls : Nat) (isCalm : Bool) {node : Node}
    (h : counted → node.isOrderly functions isCalm = true) :
    (Contract.tidy counted functions isCalm 0).reported.Holds (executeWithin executor calls node) := by
  induction calls generalizing isCalm node with
  | zero => exact .pure 0
  | succ calls ih =>
      have hcall : ∀ isCalm body, (counted → body.isOrderly functions isCalm = true) →
          (Contract.tidy counted functions isCalm 0).Holds (executeWithin executor calls body) :=
        fun isCalm body hbody => (ih isCalm hbody).weaken (Contract.reported_implies _)
      exact (evaluator_tidy counted functions executor hcall node.height).execute isCalm node
        ⟨Nat.le_refl _, h⟩

theorem execute_tidy (isCalm : Bool) {node : Node}
    (h : counted → node.isOrderly functions isCalm = true) :
    (Contract.tidy counted functions isCalm 0).reported.Holds (execute executor node) :=
  .get_bind fun _ => executeWithin_tidy counted functions executor _ isCalm h

end

/-! ## Leaving loops -/

/-- The interruption leaves so many loops. -/
def Interruption.Leaves (levels : Nat) (interruption : Interruption) : Prop :=
  interruption = .breakLoops levels ∨ interruption = .continueLoop levels

/-- No orderly statement is left for more loops than there are around it. -/
theorem execute_leaves_loops (executor : Executor) {functions : List String} {node : Node}
    (hnode : node.isOrderly functions false = true) {shell : Shell}
    (hshell : shell.state.Orderly functions) :
    ∀ log interruption final levels,
      Acts (execute executor node) shell log (.error interruption, final) →
      interruption.Leaves levels → 1 ≤ levels ∧ levels ≤ shell.state.loopDepth := by
  intro log interruption final levels hacts hleaves
  have hmeets := execute_tidy True functions executor false (fun _ => hnode) shell (fun _ => hshell)
    log _ final hacts
  obtain ⟨hallows, _⟩ := hmeets.allowed interruption rfl
  rcases hleaves with rfl | rfl
  · exact ⟨hallows.1, (hallows.2 trivial).2⟩
  · exact ⟨hallows.1, (hallows.2 trivial).2⟩

/-- A loop with a test and a body of one command each. -/
def Syntax.Node.loop (test body : List String) : Node :=
  let command (words : List String) : Node :=
    .command (words.map fun text => .word [.literal text]) false
  .whileLoop (command test) [command body]

/-- Inside another loop. -/
def Shell.looping : Shell := .new { State.initial "/" 1 with loopDepth := 1 } .standard

theorem break_outer : ∃ log final,
    Acts (execute (fun _ _ => .done (.ok 0)) (.loop [":"] ["break", "2"])) .looping log
      (.error (.breakLoops 1), final) ∧ 1 ≤ 1 ∧ 1 ≤ Shell.looping.state.loopDepth := by
  obtain ⟨log, final, hacts⟩ := exists_interrupted
    (show isInterrupted (execute (fun _ _ => .done (.ok 0)) (.loop [":"] ["break", "2"])) .looping
      (.breakLoops 1) = true by decide +kernel)
  have horderly : Shell.looping.state.Orderly [] := fun name body hbody => by cases hbody
  exact ⟨log, final, hacts, execute_leaves_loops _ (by decide +kernel) horderly log _ final 1
    hacts (.inl rfl)⟩

/-- The test of a loop that stands in no other loop is left, and so is that loop. -/
theorem break_in_test : ∃ shell log final, shell.state.loopDepth = 0 ∧
    Acts (execute (fun _ _ => .done (.ok 0)) (.loop ["break"] [":"])) shell log
      (.error (.breakLoops 1), final) := by
  obtain ⟨log, final, hacts⟩ := exists_interrupted
    (show isInterrupted (execute (fun _ _ => .done (.ok 0)) (.loop ["break"] [":"]))
      (Shell.new (State.initial "/" 1) .standard) (.breakLoops 1) = true by decide +kernel)
  exact ⟨_, log, final, rfl, hacts⟩

end Conch
