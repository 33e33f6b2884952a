import Conch.Proofs.Quoting

/-!
# Forwarded parameters

The list of all positional parameters in double quotes stands for the parameters as they
are, one field for each and no field if there are none.  So a function whose body is a
command with this list calls the command with its own arguments (`arguments_forwarded`).
A quoted text before the list is put before the first parameter; where there is none it is
a field of its own, but only if it is not empty (`expandWords_prefixed`): whether the list
leaves a field is decided by the text before it, and so the quotes of an empty text are
lost (`empty_prefix_lost`).
-/

namespace Conch

open Syntax

/-- The list of all positional parameters in double quotes. -/
def Syntax.Node.allParameters : Node := .quoted [.parameter true "@"]

/-! ## Fields -/

/-- The field of a quoted text. -/
def Field.quoted (text : String) : Field := ⟨text, Pattern.escape text, false⟩

/-- A text before the first of some parameters, or alone. -/
def prefixed (text : String) : List String → List String
  | [] => [text]
  | first :: rest => (text ++ first) :: rest

/-- What a quoted text with the list of all parameters after it comes to. -/
def forwarded (text : String) (positional : List String) : List String :=
  if text = "" ∧ positional = [] then [] else prefixed text positional

theorem forwarded_empty (positional : List String) : forwarded "" positional = positional := by
  cases positional with
  | nil => rfl
  | cons first rest =>
      rw [forwarded, if_neg (by simp), prefixed, String.empty_append]

namespace Fields

/-- Each parameter after the first ends the field before it. -/
theorem toList_addRest (fields : Fields) (first : String) (rest : List String) :
    (rest.foldl (fun fields text => fields.finish.addQuoted text)
        (fields.addQuoted first)).toList =
      fields.finished.reverse ++
        ⟨fields.current.text ++ first, fields.current.pattern ++ Pattern.escape first,
          fields.current.isWild⟩ :: rest.map Field.quoted := by
  induction rest generalizing fields first with
  | nil => simp [addQuoted, toList, finish]
  | cons next rest ih =>
      rw [List.foldl_cons, ih]
      simp [addQuoted, finish, Field.empty, Field.quoted]

/-- The fields of a quoted text with the list of all parameters after it. -/
theorem toList_forwarded (shell : Shell) (splits : Bool) (text : String)
    (positional : List String) :
    ((((shell.noFields splits).addQuoted text).startQuoted [.parameter true "@"]
        positional).addEach positional).toList =
      (forwarded text positional).map Field.quoted := by
  have hall : isAllParameters [.parameter true "@"] = true := by decide
  rw [startQuoted, addQuoted_append, String.append_empty, hall, Bool.true_and]
  cases positional with
  | nil =>
      by_cases htext : text = ""
      · subst htext
        rfl
      · simp [forwarded, prefixed, htext, addEach, Shell.noFields, new, addQuoted, toList, finish,
          Field.empty, Field.quoted]
  | cons first rest =>
      rw [forwarded, if_neg (by simp), prefixed]
      refine (toList_addRest _ first rest).trans ?_
      simp [Shell.noFields, new, addQuoted, Field.empty, Field.quoted, Pattern.escape]

end Fields

/-! ## Expansion -/

section

variable (executor : Executor)

/-- In double quotes the list of all parameters adds each of them. -/
theorem expandAll_allParameters (fields : Fields) (shell : Shell) :
    expandAll (evaluation executor) false [.allParameters] fields shell =
      .done (.ok ((fields.startQuoted [.parameter true "@"] shell.state.positional).addEach
        shell.state.positional), shell) := by
  rw [Node.allParameters, expandAll_quoted, expandAll_singleton, evaluation_expand]
  rfl

/-- Fields of quoted texts are arguments as they are. -/
theorem expandWords_forwarded {word : Node} {shell : Shell} {fields : Fields} {texts : List String}
    (hword : expandWord (evaluation executor) true word shell = .done (.ok fields, shell))
    (hfields : fields.toList = texts.map Field.quoted) :
    expandWords (evaluation executor) [word] shell = .done (.ok texts, shell) := by
  have hwild : ∀ field ∈ fields.toList, field.isWild = false := by
    rw [hfields]
    exact List.forall_mem_map.mpr fun _ _ => rfl
  have hrest : expandWords (evaluation executor) [] shell = .done (.ok [], shell) := rfl
  have htexts : (texts.map Field.quoted).map Field.text = texts := by
    rw [List.map_map]
    exact List.map_id _
  have hwords := expandWords_fields hword hwild hrest
  rwa [hfields, htexts, List.append_nil] at hwords

/-- The list of all parameters in double quotes is the parameters. -/
theorem expandWords_allParameters (shell : Shell) :
    expandWords (evaluation executor) [.word [.allParameters]] shell =
      .done (.ok shell.state.positional, shell) := by
  have hempty : ∀ (fields : Fields) inside positional,
      (fields.addQuoted "").startQuoted inside positional =
        fields.startQuoted inside positional := by
    intro fields inside positional
    rw [Fields.startQuoted, Fields.addQuoted_append, String.append_empty, Fields.startQuoted]
  have hfields := Fields.toList_forwarded shell true "" shell.state.positional
  rw [hempty, forwarded_empty] at hfields
  have hword := (expandWord_quoted (evaluation executor) true _ [] shell).trans
    (expandAll_allParameters executor (shell.noFields true) shell)
  exact expandWords_forwarded executor hword hfields

/-- A text in single quotes with the list of all parameters after it. -/
def Syntax.Node.afterPrefix (text : String) : List Node :=
  [.literal ("'" ++ text ++ "'"), .allParameters]

theorem expandWord_afterPrefix {text : String} (htext : '\'' ∉ text.toList) (splits : Bool)
    (shell : Shell) :
    expandWord (evaluation executor) splits (.word (Node.afterPrefix text)) shell =
      .done (.ok ((((shell.noFields splits).addQuoted text).startQuoted [.parameter true "@"]
        shell.state.positional).addEach shell.state.positional), shell) := by
  have hchars : ("'" ++ text ++ "'").toList = '\'' :: (text.toList ++ '\'' :: []) := by simp
  have hhome : homeOf shell.state ("'" ++ text ++ "'").toList = none := by
    rw [hchars]
    rfl
  have hliteral : ∀ fields, (evaluation executor).expand false (.literal ("'" ++ text ++ "'"))
      fields = pure (fields.addQuoted text) := by
    intro fields
    rw [evaluation_expand, expandFragment, if_neg Bool.false_ne_true, hchars,
      Fields.addLiteral_quote _ _ _ (List.forall_mem_ne'.mpr htext), Fields.addLiteral_nil,
      String.ofList_toList]
  rw [Node.afterPrefix, expandWord_literal _ _ _ hhome, expandAll, List.foldlM_cons, hliteral,
    pure_bind]
  exact expandAll_allParameters executor _ shell

theorem expandWords_afterPrefix {text : String} (htext : '\'' ∉ text.toList) (shell : Shell) :
    expandWords (evaluation executor) [.word (Node.afterPrefix text)] shell =
      .done (.ok (forwarded text shell.state.positional), shell) :=
  expandWords_forwarded executor (expandWord_afterPrefix executor htext true shell)
    (Fields.toList_forwarded shell true text shell.state.positional)

end

/-! ## Reading -/

section

variable {program : Word.ProgramParser} {place : List Char → Position} {letters : List Char}
  {found : List Node}

theorem fragments_allParameters :
    Word.fragments program place letters found "\"$@\"".toList =
      .ok (Node.allParameters :: Word.flush letters found).reverse := by
  have hexpansion :
      Word.expansion program place ['@', '"'] = .ok (some (.parameter true "@", ['"'])) := rfl
  change Word.fragments _ _ _ _ ['"', '$', '@', '"'] = _
  rw [Word.fragments_quotes, Word.quotedFragments_dollar, hexpansion]
  simp only [Word.quotedFragments_end]
  exact Word.fragments_nil

theorem parseWord_allParameters (position : Position) (depth : Nat) :
    parseWord "\"$@\"" position depth = .ok [.allParameters] :=
  fragments_allParameters

theorem parseWord_afterPrefix {text : String} (htext : '\'' ∉ text.toList) (position : Position)
    (depth : Nat) :
    parseWord ("'" ++ text ++ "'\"$@\"") position depth = .ok (Node.afterPrefix text) := by
  have hchars : ("'" ++ text ++ "'\"$@\"").toList =
      '\'' :: (text.toList ++ '\'' :: "\"$@\"".toList) := by simp
  rw [parseWord, Word.parse, hchars,
    Word.fragments_quote _ _ (List.forall_mem_ne'.mpr htext), fragments_allParameters]
  simp [Word.flush, Node.afterPrefix, List.reverseAux_eq, String.append_assoc]

end

/-! ## Commands -/

/-- A command name with the list of all parameters for its arguments. -/
def Syntax.Node.onAll (name : String) : List Node :=
  [.word [.literal name], .word [.allParameters]]

/-- Runs a command with given arguments as a statement: it is counted, it leaves the streams as
they were, and its status is recorded. -/
def Action.calling (executor : Executor) (arguments : List String) : Action Int :=
  Action.recording do
    countCommand
    modify fun shell => { shell with substitutionStatus := none }
    let streams := (← get).streams
    Action.ensuring (fun shell => { shell with streams := streams })
      (invoke executor (execute executor) arguments)

theorem recording_congr {body other : Action Int} {shell : Shell} (h : body shell = other shell) :
    Action.recording body shell = Action.recording other shell := by
  change ((body shell).bind _).bind _ = ((other shell).bind _).bind _
  rw [h]

/-- What follows the count of a command starts with the command counted. -/
theorem countCommand_bind_congr {α : Type} {next other : Unit → Action α} {shell : Shell}
    (h : next () shell.counted = other () shell.counted) :
    (countCommand >>= next) shell = (countCommand >>= other) shell := by
  change (countCommand shell).bind _ = (countCommand shell).bind _
  rw [countCommand_eq]
  refine congrArg (Proc.ask .command) (funext fun _ => ?_)
  by_cases hwithin : shell.state.commands < shell.limits.commands
  · rw [if_pos hwithin]
    exact h
  · rw [if_neg hwithin]
    rfl

/-- A special builtin is run even where there is a function of its name. -/
theorem invoke_special {executor : Executor} {call : Node → Action Int} {builtin : Builtin}
    {name : String} {shell : Shell} (hfind : Builtin.find? shell.dialect name = some builtin)
    (hspecial : builtin.isSpecial = true) (args : List String) :
    invoke executor call (name :: args) shell = builtin.run args shell := by
  refine (bind_of_done rfl).trans ((bind_of_done rfl).trans ?_)
  rw [hfind]
  cases shell.state.functions.get? name with
  | none => rfl
  | some body => exact congrFun (if_pos hspecial) shell

/-- A call that asks nothing itself asks for its count alone. -/
theorem calling_of_done {executor : Executor} {arguments : List String} {shell called : Shell}
    {status : Int} (h : shell.state.commands < shell.limits.commands)
    (hcall : invoke executor (execute executor) arguments
      { shell.counted with substitutionStatus := none } = .done (.ok status, called)) :
    Action.calling executor arguments shell = .ask .command fun _ => .done (.ok status,
      { called with
        streams := shell.streams
        state := { called.state with status := status } }) := by
  have hbody : (do
      countCommand
      modify fun shell => { shell with substitutionStatus := none }
      let streams := (← get).streams
      Action.ensuring (fun shell => { shell with streams := streams })
        (invoke executor (execute executor) arguments) : Action Int) shell =
      .ask .command fun _ => .done (.ok status, { called with streams := shell.streams }) := by
    refine (bind_of_ask (countCommand_within h)).trans
      (congrArg (Proc.ask .command) (funext fun _ => ?_))
    change Proc.bind (invoke executor (execute executor) arguments
      { shell.counted with substitutionStatus := none }) _ = _
    rw [hcall]
    rfl
  exact bind_of_ask (attempt_of_ask hbody)

/-- A call is the same on bodies that agree where its arguments are the parameters. -/
theorem callFunction_congr {call other : Node → Action Int} (function : String) {body : Node}
    {args : List String}
    (h : ∀ shell : Shell, shell.state.positional = args → call body shell = other body shell) :
    callFunction call function body args = callFunction other function body args := by
  funext shell
  change (if shell.limits.callDepth ≤ shell.state.callDepth then _ else _ : Action Int) shell =
    (if shell.limits.callDepth ≤ shell.state.callDepth then _ else _ : Action Int) shell
  split
  · rfl
  · change Proc.bind (Proc.bind (Proc.bind (call body _) _) _) _ =
      Proc.bind (Proc.bind (Proc.bind (other body _) _) _) _
    rw [h _ rfl]

section

variable (executor : Executor)

/-- A group of one statement is the statement, whose status is recorded once more. -/
theorem execute_group_singleton (statement : Node) :
    execute executor (.group [statement]) = Action.recording (execute executor statement) := by
  rw [execute_eq]
  change Action.recording (executeAll (evaluation executor) [statement]) = _
  rw [executeAll, List.foldlM_cons]
  simp only [List.foldlM_nil, bind_pure]
  rfl

section

variable {args : List Node} {name : String} {arguments : List String} {shell : Shell}
  (hargs : CommandParts.ofArgs args = ⟨[], args, []⟩)

include hargs

/-- A command of words alone is called with what its words expand to. -/
theorem runSimple_words
    (hwords : expandWords (evaluation executor) args { shell with substitutionStatus := none } =
      .done (.ok (name :: arguments), { shell with substitutionStatus := none })) :
    runSimple executor (execute executor) (evaluation executor) args shell =
      Action.ensuring (fun after => { after with streams := shell.streams })
        (invoke executor (execute executor) (name :: arguments))
        { shell with substitutionStatus := none } := by
  let cleared : Shell := { shell with substitutionStatus := none }
  have hclear : (modify fun shell => { shell with substitutionStatus := none } : Action Unit)
      shell = .done (.ok (), cleared) := rfl
  rw [runSimple, hargs]
  refine (bind_of_done hclear).trans ((bind_of_done hwords).trans ?_)
  -- without assignments and redirections only the streams are put back
  rfl

theorem execute_words
    (hwords : ∀ counted : Shell, counted.state.positional = shell.state.positional →
      expandWords (evaluation executor) args counted = .done (.ok (name :: arguments), counted)) :
    execute executor (.command args false) shell =
      Action.calling executor (name :: arguments) shell := by
  rw [execute_eq]
  refine recording_congr (countCommand_bind_congr ?_)
  rw [if_neg Bool.false_ne_true]
  exact runSimple_words executor hargs
    (hwords { shell.counted with substitutionStatus := none } rfl)

end

variable {name : String} (hname : isBare name = true)
  (hcommand : Assignment.ofWord? (.word [.literal name]) = none)

section

include hname

theorem expandWords_onAll (shell : Shell) :
    expandWords (evaluation executor) (Node.onAll name) shell =
      .done (.ok (name :: shell.state.positional), shell) :=
  expandWords_cons (expandWord_bare (expand_eq executor (.literal name) false) hname shell)
    (Fields.toList_bare hname _) rfl (expandWords_allParameters executor shell)

end

section

include hcommand

theorem ofArgs_onAll : CommandParts.ofArgs (Node.onAll name) = ⟨[], Node.onAll name, []⟩ := by
  have hwords : CommandParts.splitAssignments (Node.onAll name) = ([], Node.onAll name) := by
    rw [Node.onAll, CommandParts.splitAssignments, hcommand]
  have hargs : CommandParts.ofArgs (Node.onAll name) =
      ⟨(CommandParts.splitAssignments (Node.onAll name)).1,
        (CommandParts.splitAssignments (Node.onAll name)).2, []⟩ := rfl
  rw [hargs, hwords]

end

include hname hcommand

/-- The command is called with the parameters. -/
theorem execute_onAll (shell : Shell) :
    execute executor (.command (Node.onAll name) false) shell =
      Action.calling executor (name :: shell.state.positional) shell := by
  refine execute_words executor (ofArgs_onAll hcommand) fun counted hcounted => ?_
  rw [expandWords_onAll executor hname, hcounted]

end

/-- The list of all parameters in double quotes is read as such and expands to the parameters of the
shell, whatever they are.  So a command with this list is called with the parameters, and
in the body of a function with the arguments of the function. -/
theorem arguments_forwarded (executor : Executor) :
    (∀ position depth, parseWord "\"$@\"" position depth = .ok [.allParameters]) ∧
    (∀ shell, expandWords (evaluation executor) [.word [.allParameters]] shell =
      .done (.ok shell.state.positional, shell)) ∧
    ∀ name, isBare name = true → Assignment.ofWord? (.word [.literal name]) = none →
      (∀ shell, execute executor (.command (Node.onAll name) false) shell =
        Action.calling executor (name :: shell.state.positional) shell) ∧
      ∀ function args,
        callFunction (execute executor) function (.group [.command (Node.onAll name) false]) args =
          callFunction (fun _ => Action.recording (Action.calling executor (name :: args)))
            function (.group [.command (Node.onAll name) false]) args := by
  refine ⟨parseWord_allParameters, expandWords_allParameters executor,
    fun name hname hcommand => ?_⟩
  have hexecute := execute_onAll executor hname hcommand
  refine ⟨hexecute, fun function args => callFunction_congr function fun shell hpositional => ?_⟩
  rw [execute_group_singleton]
  refine recording_congr ?_
  rw [hexecute, hpositional]

/-- The command `g` with parameters that are empty, blank, a pattern and two lines. -/
theorem arguments_forwarded_unlike :
    isBare "g" = true ∧ Assignment.ofWord? (.word [.literal "g"]) = none ∧
    (∀ shell : Shell, shell.state.positional = ["", " ", "*", "a\nb"] →
      expandWords (evaluation .idle) [.word [.allParameters]] shell =
        .done (.ok ["", " ", "*", "a\nb"], shell)) ∧
    callFunction (execute .idle) "f" (.group [.command (Node.onAll "g") false])
        ["", " ", "*", "a\nb"] =
      callFunction
        (fun _ => Action.recording (Action.calling .idle ["g", "", " ", "*", "a\nb"])) "f"
        (.group [.command (Node.onAll "g") false]) ["", " ", "*", "a\nb"] := by
  obtain ⟨-, hwords, hcalls⟩ := arguments_forwarded .idle
  have hname : isBare "g" = true := by decide
  have hcommand : Assignment.ofWord? (.word [.literal "g"]) = none := by rfl
  refine ⟨hname, hcommand, fun shell hshell => ?_, (hcalls "g" hname hcommand).2 "f" _⟩
  rw [hwords, hshell]

/-! ## A text before the parameters -/

/-- A text in single quotes with the list of all parameters after it is the parameters with the text
before the first of them.  Without parameters it is the text, unless that is empty. -/
theorem expandWords_prefixed (executor : Executor) {text : String} (htext : '\'' ∉ text.toList) :
    ∃ parts, (∀ position depth,
        parseWord ("'" ++ text ++ "'\"$@\"") position depth = .ok parts) ∧
      ∀ shell, expandWords (evaluation executor) [.word parts] shell =
        .done (.ok (if text = "" ∧ shell.state.positional = [] then []
          else prefixed text shell.state.positional), shell) :=
  ⟨_, parseWord_afterPrefix htext, expandWords_afterPrefix executor htext⟩

/-- Two parameters after a text with a blank. -/
theorem expandWords_prefixed_blank : '\'' ∉ "a ".toList ∧
    ∃ parts, parseWord "'a '\"$@\"" ⟨1, 1⟩ 0 = .ok parts ∧
      ∀ shell : Shell, shell.state.positional = ["b", ""] →
        expandWords (evaluation .idle) [.word parts] shell = .done (.ok ["a b", ""], shell) := by
  have htext : '\'' ∉ "a ".toList := by decide
  obtain ⟨parts, hparse, hwords⟩ := expandWords_prefixed .idle htext
  refine ⟨htext, parts, hparse _ _, fun shell hshell => ?_⟩
  rw [hwords, hshell]
  rfl

/-- A shell without parameters leaves no field of an empty text in quotes. -/
theorem empty_prefix_lost :
    parseWord "''\"$@\"" ⟨1, 1⟩ 0 = .ok (Node.afterPrefix "") ∧
    expandWords (evaluation .idle) [.word (Node.afterPrefix "")]
        (.new (State.initial "/" 1) ⟨9, 9, 9⟩) =
      .done (.ok [], .new (State.initial "/" 1) ⟨9, 9, 9⟩) ∧
    prefixed "" (State.initial "/" 1).positional = [""] := by
  have hempty : '\'' ∉ "".toList := by decide
  exact ⟨parseWord_afterPrefix hempty _ _, expandWords_afterPrefix .idle hempty _, rfl⟩

end Conch
