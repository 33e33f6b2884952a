import Conch.Proofs.Shell.Interruptions

/-!
# Prefix assignments

The assignments before a command are pushed onto the state one by one, each with what the
name stood for, and are taken back in the opposite order.  A name that is assigned twice
is saved twice, and what counts is what was saved first, for the second time it was
exported already.  So values come back exactly (`invokeUnder_scoped`), but an export mark
that the command has removed is not set again (`mark_lost`).
-/

namespace Conch

open Syntax (Node)

/-! ## Values and export marks -/

namespace State

variable (state : State) {name other : String}

theorem get?_set_self (name value : String) : (state.set name value).get? name = some value :=
  state.bindings.get?_insert_self name value

theorem get?_set_of_ne (value : String) (h : other ≠ name) :
    (state.set name value).get? other = state.get? other :=
  state.bindings.get?_insert_of_ne value h

@[simp] theorem get?_exportName (name other : String) :
    (state.exportName name).get? other = state.get? other := by
  unfold exportName
  split <;> rfl

theorem isExported_exportName (name other : String) :
    (state.exportName name).isExported other = (state.isExported other || other == name) := by
  rw [Bool.eq_iff_iff]
  unfold exportName
  split
  · rename_i hmarked
    by_cases h : other = name
    · simp [h, hmarked]
    · simp [h]
  · simp [isExported]

theorem isExported_unexportName (name other : String) :
    (state.unexportName name).isExported other = (state.isExported other && other != name) := by
  rw [Bool.eq_iff_iff]
  simp [unexportName, isExported, bne_iff_ne]

/-- Values and marks are taken back independently of each other and of everything else. -/
theorem restore_eq (saved : SavedVariable) : state.restore saved = { state with
    bindings := state.bindings.set saved.name saved.value
    exported := if saved.isExported then state.exported
      else state.exported.filter (· ≠ saved.name) } := by
  obtain ⟨name, value, marked⟩ := saved
  cases marked <;> rfl

theorem restoreAll_eq (saved : List SavedVariable) : saved.foldl restore state = { state with
    bindings := saved.foldl (fun bindings entry => bindings.set entry.name entry.value)
      state.bindings
    exported := saved.foldl (fun exported entry =>
      if entry.isExported then exported else exported.filter (· ≠ entry.name)) state.exported } := by
  induction saved generalizing state with
  | nil => rfl
  | cons entry saved ih =>
      rw [List.foldl_cons, ih, restore_eq]
      rfl

theorem get?_restore (saved : SavedVariable) (other : String) :
    (state.restore saved).get? other =
      if other = saved.name then saved.value else state.get? other := by
  have hbindings : (state.restore saved).bindings = state.bindings.set saved.name saved.value := by
    rw [restore_eq]
  rw [get?, hbindings]
  split
  · rename_i h
    rw [h, Bindings.get?_set_self]
  · rename_i h
    exact Bindings.get?_set_of_ne _ _ h

theorem isExported_restore (saved : SavedVariable) (other : String) :
    (state.restore saved).isExported other =
      (state.isExported other && (other != saved.name || saved.isExported)) := by
  unfold restore
  dsimp only
  split
  · rename_i hmarked
    rw [hmarked, Bool.or_true, Bool.and_true]
    rfl
  · rename_i hmarked
    rw [isExported_unexportName, Bool.eq_false_iff.mpr hmarked, Bool.or_false]
    rfl

/-- At most the variables and their export marks differ. -/
def Revalued (before after : State) : Prop :=
  ∃ bindings exported, after = { before with bindings := bindings, exported := exported }

namespace Revalued

variable {first second third : State}

theorem refl (state : State) : state.Revalued state := ⟨_, _, rfl⟩

theorem trans (h : first.Revalued second) (h' : second.Revalued third) : first.Revalued third := by
  obtain ⟨_, _, rfl⟩ := h
  obtain ⟨bindings, exported, rfl⟩ := h'
  exact ⟨bindings, exported, rfl⟩

theorem exportName (state : State) (name : String) : state.Revalued (state.exportName name) := by
  unfold State.exportName
  split
  · exact refl state
  · exact ⟨_, _, rfl⟩

theorem pushAssignment (state : State) (name value : String) :
    state.Revalued (state.pushAssignment name value).1 :=
  trans ⟨_, _, rfl⟩ (exportName (state.set name value) name)

end Revalued

end State

/-! ## Assigning and taking back -/

/-- The assignments hold, and everything else is as it was. -/
structure State.Assigned (values : List (String × String)) (before entered : State) : Prop where
  /-- Of the values given for a name the last one counts. -/
  value : ∀ name ∈ values.map Prod.fst, entered.get? name = values.reverse.lookup name
  mark : ∀ name ∈ values.map Prod.fst, entered.isExported name = true
  others : ∀ name ∉ values.map Prod.fst, entered.get? name = before.get? name ∧
    entered.isExported name = before.isExported name
  rest : before.Revalued entered

/--
The names stand for what they stood for before; everything else is as it was left.  A name
is exported if it was before and has been left so.
-/
structure State.TakenBack (names : List String) (before left after : State) : Prop where
  value : ∀ name ∈ names, after.get? name = before.get? name
  mark : ∀ name ∈ names, after.isExported name = (before.isExported name && left.isExported name)
  others : ∀ name ∉ names, after.get? name = left.get? name ∧
    after.isExported name = left.isExported name
  rest : left.Revalued after

namespace State

variable (state : State)

/-- What is saved later is put before what is there. -/
theorem pushAssignments_saved (values : List (String × String)) (saved : List SavedVariable) :
    state.pushAssignments saved values =
      ((state.pushAssignments [] values).1, (state.pushAssignments [] values).2 ++ saved) := by
  induction values generalizing state saved with
  | nil => rfl
  | cons entry values ih =>
      simp only [pushAssignments]
      rw [ih _ (_ :: saved), ih _ [_], List.append_assoc]
      rfl

theorem pushAssignments_cons (name value : String) (values : List (String × String)) :
    state.pushAssignments [] ((name, value) :: values) =
      (((state.pushAssignment name value).1.pushAssignments [] values).1,
        ((state.pushAssignment name value).1.pushAssignments [] values).2 ++
          [⟨name, state.get? name, state.isExported name⟩]) := by
  simp only [pushAssignments]
  rw [pushAssignments_saved]
  rfl

theorem get?_pushAssignment (name value other : String) :
    (state.pushAssignment name value).1.get? other =
      if other = name then some value else state.get? other := by
  rw [pushAssignment, get?_exportName]
  split
  · rename_i h
    rw [h, get?_set_self]
  · rename_i h
    exact state.get?_set_of_ne value h

theorem isExported_pushAssignment (name value other : String) :
    (state.pushAssignment name value).1.isExported other =
      (state.isExported other || other == name) :=
  isExported_exportName (state.set name value) name other

theorem get?_pushAssignments (values : List (String × String)) (other : String) :
    (state.pushAssignments [] values).1.get? other =
      (values.reverse.lookup other).or (state.get? other) := by
  induction values generalizing state with
  | nil => rfl
  | cons entry values ih =>
      obtain ⟨name, value⟩ := entry
      rw [pushAssignments_cons, ih, get?_pushAssignment, List.reverse_cons, List.lookup_append,
        Option.or_assoc]
      by_cases h : other = name
      · simp [h]
      · have hname : (other == name) = false := beq_eq_false_iff_ne.mpr h
        simp [List.lookup_cons, h, hname]

theorem isExported_pushAssignments (values : List (String × String)) (other : String) :
    (state.pushAssignments [] values).1.isExported other =
      (state.isExported other || (values.map Prod.fst).contains other) := by
  induction values generalizing state with
  | nil => exact (Bool.or_false _).symm
  | cons entry values ih =>
      rw [pushAssignments_cons, ih, isExported_pushAssignment, List.map_cons, List.contains_cons,
        Bool.or_assoc]

theorem pushAssignments_revalued (values : List (String × String)) :
    state.Revalued (state.pushAssignments [] values).1 := by
  induction values generalizing state with
  | nil => exact .refl state
  | cons entry values ih =>
      rw [pushAssignments_cons]
      exact (Revalued.pushAssignment state entry.1 entry.2).trans (ih _)

theorem pushAssignments_assigned (values : List (String × String)) :
    Assigned values state (state.pushAssignments [] values).1 where
  value name hname := by
    have hgiven : (values.reverse.lookup name).isSome = true := by
      rw [List.lookup_isSome_iff]
      simpa using hname
    rw [get?_pushAssignments, Option.or_of_isSome hgiven]
  mark name hname := by
    rw [isExported_pushAssignments, List.contains_iff_mem.mpr hname, Bool.or_true]
  others name hname := by
    have hnone : values.reverse.lookup name = none := by
      rw [List.lookup_eq_none_iff]
      intro entry hentry
      simp only [bne_iff_ne]
      rintro rfl
      exact hname (List.mem_map_of_mem (List.mem_reverse.mp hentry))
    have hunnamed : (values.map Prod.fst).contains name = false := by simpa using hname
    rw [get?_pushAssignments, isExported_pushAssignments, hnone, hunnamed]
    exact ⟨rfl, Bool.or_false _⟩
  rest := state.pushAssignments_revalued values

/-- A name stands for what was saved for it first. -/
theorem get?_restoreAll (values : List (String × String)) (left : State) (other : String) :
    ((state.pushAssignments [] values).2.foldl restore left).get? other =
      if other ∈ values.map Prod.fst then state.get? other else left.get? other := by
  induction values generalizing state with
  | nil => rfl
  | cons entry values ih =>
      obtain ⟨name, value⟩ := entry
      rw [pushAssignments_cons, List.foldl_append, List.foldl_cons, List.foldl_nil, get?_restore,
        ih, get?_pushAssignment]
      by_cases h : other = name
      · simp [h]
      · simp only [h, List.map_cons, List.mem_cons, false_or, if_false]

/-- The second time a name is saved it is exported. -/
theorem isExported_restoreAll (values : List (String × String)) (left : State) (other : String) :
    ((state.pushAssignments [] values).2.foldl restore left).isExported other =
      (left.isExported other &&
        (!(values.map Prod.fst).contains other || state.isExported other)) := by
  induction values generalizing state with
  | nil => exact (Bool.and_true _).symm
  | cons entry values ih =>
      obtain ⟨name, value⟩ := entry
      rw [pushAssignments_cons, List.foldl_append, List.foldl_cons, List.foldl_nil,
        isExported_restore, ih, isExported_pushAssignment, List.map_cons, List.contains_cons]
      by_cases h : other = name
      · simp [h]
      · simp [h, beq_eq_false_iff_ne.mpr h]

theorem restoreAll_revalued (saved : List SavedVariable) (left : State) :
    left.Revalued (saved.foldl restore left) := ⟨_, _, left.restoreAll_eq saved⟩

theorem restoreAll_takenBack (values : List (String × String)) (left : State) :
    TakenBack (values.map Prod.fst) state left
      ((state.pushAssignments [] values).2.foldl restore left) where
  value name hname := by rw [get?_restoreAll, if_pos hname]
  mark name hname := by
    rw [isExported_restoreAll, List.contains_iff_mem.mpr hname, Bool.not_true, Bool.false_or,
      Bool.and_comm]
  others name hname := by
    have hunnamed : (values.map Prod.fst).contains name = false := by simpa using hname
    rw [get?_restoreAll, if_neg hname, isExported_restoreAll, hunnamed, Bool.not_false,
      Bool.true_or, Bool.and_true]
    exact ⟨rfl, rfl⟩
  rest := restoreAll_revalued _ left

end State

/-! ## Commands under assignments -/

section

variable (executor : Executor) (call : Node → Action Int) (parts : Evaluator)

/-- The names that a command assigns to, with the values for this command. -/
def assignedValues (assignments : List Assignment) : Action (List (String × String)) :=
  assignments.mapM fun assignment => do
    return (assignment.name, ← expandSingle parts assignment.value)

variable {executor call parts}

theorem assignedValues_names {assignments : List Assignment} {shell next : Shell}
    {log : List Exchange} {values : List (String × String)}
    (hacts : Acts (assignedValues parts assignments) shell log (.ok values, next)) :
    values.map Prod.fst = assignments.map Assignment.name := by
  induction assignments generalizing shell log values next with
  | nil =>
      obtain ⟨_, hx⟩ := acts_pure.mp hacts
      cases hx
      rfl
  | cons assignment assignments ih =>
      rw [assignedValues, List.mapM_cons] at hacts
      rcases acts_bind.mp hacts with ⟨_, _, hx, _⟩ | ⟨entry, middle, _, _, _, hentry, hrest⟩
      · cases hx
      rcases acts_bind.mp hentry with ⟨_, _, hx, _⟩ | ⟨value, _, _, _, _, _, hname⟩
      · cases hx
      obtain ⟨_, hx⟩ := acts_pure.mp hname
      cases hx
      rcases acts_bind.mp hrest with ⟨_, _, hx, _⟩ | ⟨others, _, _, _, _, hothers, hdone⟩
      · cases hx
      obtain ⟨_, hx⟩ := acts_pure.mp hdone
      cases hx
      rw [List.map_cons, List.map_cons, ih hothers]

/--
How a command comes to be invoked under its assignments: their values are expanded, its
redirections are opened, and it starts in a shell where the assignments hold.
-/
structure Entered (parts : Evaluator) (command : CommandParts) (shell : Shell)
    (log : List Exchange) (values : List (String × String)) (before entered : Shell) : Prop where
  prepared : ∃ expanded streams first second, log = first ++ second ∧
    Acts (assignedValues parts command.assignments) shell first (.ok values, expanded) ∧
    Acts (redirectAll parts command.redirections) expanded second (.ok streams, before) ∧
    entered = { before with state := entered.state, streams := streams }
  names : values.map Prod.fst = command.assignments.map Assignment.name
  assigned : State.Assigned values before.state entered.state

/-- The command is not invoked: a value cannot be expanded or a redirection not be opened. -/
def Hindered (parts : Evaluator) (command : CommandParts) (shell : Shell) (log : List Exchange)
    (interruption : Interruption) (final : Shell) : Prop :=
  Acts (assignedValues parts command.assignments) shell log (.error interruption, final) ∨
    ∃ values expanded first second, log = first ++ second ∧
      Acts (assignedValues parts command.assignments) shell first (.ok values, expanded) ∧
      Acts (redirectAll parts command.redirections) expanded second (.error interruption, final)

/--
A command with assignments, if it comes to be invoked at all, starts with each of their
names exported under the value given last, and however it ends, each name then stands for
what it did before and all else is as the command left it, but for the streams.  Only an
export mark that the command has removed from one of the names stays away.  After a crash
nothing is taken back.
-/
theorem invokeUnder_scoped {command : CommandParts} {arguments : List String} {shell final : Shell}
    {log : List Exchange} {result : Except Interruption Int}
    (hacts : Acts (invokeUnder executor call parts command arguments) shell log (result, final)) :
    (∃ interruption, result = .error interruption ∧
      Hindered parts command shell log interruption final) ∨
    ∃ values before entered left first second, log = first ++ second ∧
      Entered parts command shell first values before entered ∧
      Acts (invoke executor call arguments) entered second (result, left) ∧
      (result = .error .crash ∧ final = left ∨
        State.TakenBack (command.assignments.map Assignment.name) before.state left.state
            final.state ∧
          final = { left with state := final.state, streams := before.streams }) := by
  rcases acts_bind.mp hacts with ⟨e, s, hx, hfailed⟩ |
    ⟨values, expanded, first, later, rfl, hvalues, hlater⟩
  · cases hx
    exact .inl ⟨e, rfl, .inl hfailed⟩
  rcases acts_bind.mp hlater with ⟨e, s, hx, hfailed⟩ |
    ⟨streams, before, second, third, rfl, hstreams, hinvoked⟩
  · cases hx
    exact .inl ⟨e, rfl, .inr ⟨values, expanded, first, later, rfl, hvalues, hfailed⟩⟩
  have hnames := assignedValues_names hvalues
  let entered : Shell :=
    { before with state := (before.state.pushAssignments [] values).1, streams := streams }
  have hentered : Entered parts command shell (first ++ second) values before entered :=
    ⟨⟨expanded, streams, first, second, rfl, hvalues, hstreams, rfl⟩, hnames,
      before.state.pushAssignments_assigned values⟩
  have hscope := acts_state_bind.mp (acts_get_bind.mp hinvoked)
  rcases acts_ensuring.mp (acts_modify_bind.mp hscope) with ⟨left, hcrash, hx⟩ | ⟨ending, left, hending, hleft, hx⟩
  · cases hx
    exact .inr ⟨values, before, entered, final, first ++ second, third,
      (List.append_assoc ..).symm, hentered, hcrash, .inl ⟨rfl, rfl⟩⟩
  · cases hx
    refine .inr ⟨values, before, entered, left, first ++ second, third,
      (List.append_assoc ..).symm, hentered, hleft, .inr ⟨?_, rfl⟩⟩
    rw [← hnames]
    exact before.state.restoreAll_takenBack values left.state

end

/-! ## An export mark that stays away -/

/-- A variable is exported. -/
def Shell.marked : Shell :=
  .new (((State.initial "/" 1).set "x" "1").exportName "x") ⟨9, 9, 9⟩

/-- A command with two assignments to one name. -/
def CommandParts.twice : CommandParts :=
  ⟨[⟨"x", .word [.literal "2"]⟩, ⟨"x", .word [.literal "3"]⟩], [], []⟩

theorem twice_scoped : ∃ log final,
    Acts (invokeUnder .idle (execute .idle) (evaluator .idle (execute .idle) 2) .twice [":"])
      .marked log (.ok 0, final) ∧
    ∃ values before entered left first second, log = first ++ second ∧
      Entered (evaluator .idle (execute .idle) 2) .twice .marked first values before entered ∧
      Acts (invoke .idle (execute .idle) [":"]) entered second (.ok 0, left) ∧
      State.TakenBack ["x", "x"] before.state left.state final.state ∧
      final = { left with state := final.state, streams := before.streams } := by
  obtain ⟨log, ⟨result, final⟩, hruns, hzero⟩ := Proc.exists_runs Request.commandReply?
    ((invokeUnder .idle (execute .idle) (evaluator .idle (execute .idle) 2) .twice [":"]).run.run
      .marked)
    (fun x => x.2.1.toOption = some 0) (by decide +kernel)
  cases result with
  | error _ => cases of_decide_eq_true hzero
  | ok status =>
      obtain rfl : status = 0 := by simpa [Except.toOption] using hzero
      refine ⟨log, final, hruns, ?_⟩
      rcases invokeUnder_scoped hruns with ⟨_, hfailed, _⟩ |
        ⟨values, before, entered, left, first, second, hlog, hentered, hleft, hending⟩
      · cases hfailed
      · rcases hending with ⟨hcrash, _⟩ | ⟨htaken, hrest⟩
        · cases hcrash
        · exact ⟨values, before, entered, left, first, second, hlog, hentered, hleft, htaken, hrest⟩

/-- A variable that is unset under an assignment to it comes back, but is no longer exported. -/
theorem mark_lost : Shell.marked.state.isExported "x" = true ∧
    Shell.marked.state.get? "x" = some "1" ∧
    ∃ log final,
      Acts (execute .idle (.calling ["x=2", "unset", "x"])) .marked log (.ok 0, final) ∧
      final.state.get? "x" = some "1" ∧ final.state.isExported "x" = false := by
  obtain ⟨log, ⟨result, final⟩, hruns, hfinal⟩ := Proc.exists_runs Request.commandReply?
    ((execute .idle (.calling ["x=2", "unset", "x"])).run.run .marked)
    (fun x => x.2.1.toOption = some 0 ∧ x.2.2.state.get? "x" = some "1" ∧
      x.2.2.state.isExported "x" = false) (by decide +kernel)
  obtain ⟨hzero, hvalue, hmark⟩ := of_decide_eq_true hfinal
  refine ⟨by decide +kernel, by decide +kernel, log, final, ?_, hvalue, hmark⟩
  cases result with
  | error _ => cases hzero
  | ok status =>
      obtain rfl : status = 0 := by simpa [Except.toOption] using hzero
      exact hruns

end Conch
