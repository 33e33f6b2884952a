import Conch.Proofs.Canonical
import Conch.Proofs.Shell.Counting
import Conch.Proofs.Words.Quotes

/-!
# Quoting

Text in quotes is kept exactly: as an argument (`parse_argument`, `expandWords_quoted`), and as
the value of an assignment, from which a parameter in double quotes gives it back
(`runProgram_assignment`, `quoting_exact`).  An assignment is a simple command, so a shell
that has used up its limit on commands does not run it (`assignment_refused`).
-/

namespace Conch

open Syntax

namespace Quote

/-- The word of some letters with a quoted text after them. -/
def word (quote : Quote) (letters text : String) : Node :=
  .word (quote.parts letters.toList text.toList)

/-! ## Reading -/

section Reading

variable (quote : Quote)

theorem programs_parts (letters text : List Char) :
    (quote.parts letters text).flatMap Node.programs = [] := by
  cases quote with
  | single => rfl
  | double => exact Word.programs_inQuotes letters (double.escaped text)

theorem nestings_parts (letters text : List Char) :
    Node.nestings (quote.parts letters text) = 0 := by
  cases quote with
  | single => rfl
  | double => exact Word.nestings_inQuotes letters (double.escaped text)

variable {letters : String} (hletters : ∀ c ∈ letters.toList, isPlain c = true) (text : String)

include hletters

theorem render_word : (quote.word letters text).render = letters ++ quote.write text := by
  let parse : Word.ProgramParser := fun _ => .ok []
  have hparse : Word.parse parse .start _ = .ok _ := quote.parse_written hletters text.toList .start
  have hrender := Word.parse_render hparse (quote.programs_parts _ _)
  refine String.toList_inj.mp (hrender.trans ?_)
  simp [write]

theorem render_word_toList :
    (quote.word letters text).render.toList = letters.toList ++ quote.written text.toList := by
  rw [quote.render_word hletters]
  simp [write]

/-- A quoted text is read as itself, with letters before it too. -/
theorem isKept_word (hcomment : letters.toList.head? ≠ some '#') :
    Node.IsKept false (quote.word letters text) := by
  have hrender := quote.render_word_toList hletters text
  have hfirst : ∃ c ∈ (quote.word letters text).render.toList.head?,
      isWordBoundary c = false ∧ c ≠ '#' := by
    rw [hrender]
    cases hchars : letters.toList with
    | nil => cases quote <;> exact ⟨_, rfl, by decide, by decide⟩
    | cons c rest =>
        rw [hchars] at hcomment
        exact ⟨c, rfl, isWordBoundary_of_isPlain (hletters c (by simp [hchars])),
          fun hc => hcomment (congrArg some hc)⟩
  refine ⟨?_, ⟨fun room _ => ⟨_, rfl, fun position => ?_⟩, fun h => absurd h (by decide)⟩,
    fun more hmore => Piece.lexed_word hfirst (fun position => ?_) hmore⟩
  · obtain ⟨c, hc, hboundary, -⟩ := hfirst
    obtain ⟨rest, hrest⟩ := List.head?_eq_some_iff.mp hc
    exact ⟨c, rest, hrest, hboundary⟩
  · rw [hrender]
    exact quote.parse_written hletters text.toList position
  · have hboundary : more.head?.all isWordBoundary = true := by
      cases hnext : more.head? with
      | none => rfl
      | some c => rcases hmore c hnext with rfl | rfl | rfl <;> rfl
    rw [hrender]
    exact quote.readWord_written hletters hboundary text.toList [] position

end Reading

/-- A command of words that are kept is read from the text of its words. -/
theorem parse_command {args : List Node} (hargs : Node.Arguments args)
    (hwords : ∀ n ∈ args,
      ∃ parts, n = .word parts ∧ Node.nestings parts = 0 ∧ Node.IsKept false n)
    (hsize : byteSize (Program.render [.command args false]).toList ≤ maxInputSize) :
    parse (Program.render [.command args false]) = .ok [.command args false] := by
  have hfits : Node.AllFit [.command args false] := ⟨⟨by simp, hargs⟩, trivial⟩
  refine parse_eq_ok.mpr (programOf_kept hfits ?_ ?_ hsize)
  · refine (Piece.forWords_list _).mpr (List.forall_mem_singleton.mpr ?_)
    refine (Piece.forWords_command args false).mpr fun n hn => ?_
    obtain ⟨parts, rfl, -, hkept⟩ := hwords n hn
    exact (Piece.forWords_word _ _ _).mpr ⟨hkept, Piece.forWords_nil⟩
  · refine Node.nestings_le_iff.mpr (List.forall_mem_singleton.mpr ?_)
    refine Node.nestings_le_iff.mpr fun n hn => ?_
    obtain ⟨parts, rfl, hnesting, -⟩ := hwords n hn
    exact (Nat.le_of_eq hnesting).trans (Nat.zero_le _)

section

variable (quote : Quote) (text : String)

/-- The arguments of a command with a quoted text for its only argument. -/
def argument : List Node := [.plain "x", quote.word "" text]

/-- The assignment of a quoted text to a variable. -/
def assignment : List Node := [quote.word "v=" text]

theorem parse_argument (hsize : byteSize ("x " ++ quote.write text).toList ≤ maxInputSize) :
    parse ("x " ++ quote.write text) = .ok [.command (quote.argument text) false] := by
  have hrender :
      Program.render [.command (quote.argument text) false] = "x " ++ quote.write text := by
    have hword : (quote.word "" text).render = "" ++ quote.write text :=
      quote.render_word (by simp) text
    have hargument : ∀ n : Node,
        Program.render [.command [.plain "x", n] false] = "x " ++ n.render := by
      simp [Program.render, Node.renderList, Node.renderMore, Node.render, Node.plain]
    rw [argument, hargument, hword, String.empty_append]
  rw [← hrender] at hsize ⊢
  refine parse_command ⟨by simp [argument], ?_, ?_⟩ ?_ hsize
  · simp [argument, Node.plain, Node.IsArgument, word]
  · rintro parts hparts
    cases hparts
    decide
  · have hx : (Node.plain "x").IsSimpleWord := Node.isSimpleWord_plain (by decide) (by decide)
    refine List.forall_mem_cons.mpr ⟨⟨_, rfl, rfl, hx.isKept (by simp)⟩,
      List.forall_mem_singleton.mpr ⟨_, rfl, quote.nestings_parts _ _, ?_⟩⟩
    exact quote.isKept_word (by simp) text (by simp)

theorem parse_assignment (hsize : byteSize ("v=" ++ quote.write text).toList ≤ maxInputSize) :
    parse ("v=" ++ quote.write text) = .ok [.command (quote.assignment text) false] := by
  have hplain : ∀ c ∈ "v=".toList, isPlain c = true := List.all_eq_true.mp (by decide)
  have hword := quote.render_word hplain text
  have hrender :
      Program.render [.command (quote.assignment text) false] = "v=" ++ quote.write text := by
    rw [← hword]
    simp [Program.render, assignment, Node.renderList, Node.renderMore, Node.render]
  rw [← hrender] at hsize ⊢
  refine parse_command ⟨by simp [assignment], ?_, ?_⟩ ?_ hsize
  · simp [assignment, Node.IsArgument, word]
  · rintro parts hparts
    have hparts : quote.word "v=" text = .word parts := Option.some.inj hparts
    have hnone : Token.reserved? ("v=" ++ quote.write text) = none := by
      cases hreserved : Token.reserved? ("v=" ++ quote.write text) with
      | none => rfl
      | some token =>
          have hfirst : token.text.toList.head? = some 'v' := by
            rw [Token.reserved?_text hreserved, String.toList_append]
            rfl
          exact absurd hfirst (by cases token <;> decide)
    rw [← hparts, hword, mayStart, hnone]
    rfl
  · exact List.forall_mem_singleton.mpr ⟨_, rfl, quote.nestings_parts _ _,
      quote.isKept_word hplain text (by decide)⟩

end

end Quote

/-! ## Actions that ask nothing or once -/

theorem bind_of_done {α β : Type} {body : Action α} {next : α → Action β} {shell shell' : Shell}
    {a : α} (h : body shell = .done (.ok a, shell')) : (body >>= next) shell = next a shell' := by
  change (body shell).bind _ = _
  rw [h]
  rfl

theorem bind_of_ask {α β : Type} {r : Request} {body : Action α} {next : α → Action β}
    {shell shell' : Shell} {a : α} (h : body shell = .ask r fun _ => .done (.ok a, shell')) :
    (body >>= next) shell = .ask r fun _ => next a shell' := by
  change (body shell).bind _ = _
  rw [h]
  rfl

theorem attempt_of_ask {α : Type} {r : Request} {body : Action α} {shell shell' : Shell}
    {result : Except Interruption α} (h : body shell = .ask r fun _ => .done (result, shell')) :
    body.attempt shell = .ask r fun _ => .done (.ok result, shell') := by
  change (body shell).bind _ = _
  rw [h]
  rfl

/-! ## Expansion -/

/-- No fields yet, of a word in this shell. -/
def Shell.noFields (shell : Shell) (splits : Bool) : Fields :=
  .new splits ((shell.state.get? "IFS").getD standardSeparators)

theorem Shell.toList_addQuoted (shell : Shell) (splits : Bool) (text : String) :
    ((shell.noFields splits).addQuoted text).toList = [⟨text, Pattern.escape text, false⟩] := by
  simp [noFields, Fields.new, Fields.addQuoted, Fields.toList, Fields.finish, Field.empty]

theorem expandAll_singleton (parts : Evaluator) (isQuoted : Bool) (n : Node) (fields : Fields) :
    expandAll parts isQuoted [n] fields = parts.expand isQuoted n fields := by
  rw [expandAll, List.foldlM_cons]
  simp only [List.foldlM_nil, bind_pure]

theorem expandWord_quoted (parts : Evaluator) (splits : Bool) (inside rest : List Node)
    (shell : Shell) :
    expandWord parts splits (.word (.quoted inside :: rest)) shell =
      expandAll parts false (.quoted inside :: rest) (shell.noFields splits) shell := rfl

/-- Without a tilde a literal at the front is like any other. -/
theorem expandWord_literal (parts : Evaluator) (splits : Bool) {text : String} (rest : List Node)
    {shell : Shell} (hhome : homeOf shell.state text.toList = none) :
    expandWord parts splits (.word (.literal text :: rest)) shell =
      expandAll parts false (.literal text :: rest) (shell.noFields splits) shell := by
  rw [expandWord]
  refine (bind_of_done (rfl : Action.state shell = .done (.ok shell.state, shell))).trans ?_
  simp only [Node.fragments, hhome]
  rfl

/-- Fields without wildcards are arguments. -/
theorem expandWords_fields {parts : Evaluator} {first : Node} {rest : List Node}
    {shell final : Shell} {fields : Fields} {more : List String}
    (hfirst : expandWord parts true first shell = .done (.ok fields, shell))
    (hwild : ∀ field ∈ fields.toList, field.isWild = false)
    (hrest : expandWords parts rest shell = .done (.ok more, final)) :
    expandWords parts (first :: rest) shell =
      .done (.ok (fields.toList.map Field.text ++ more), final) := by
  have hfields : ∀ found : List Field, (∀ field ∈ found, field.isWild = false) →
      found.flatMapM fieldNames = (pure (found.map Field.text) : Action (List String)) := by
    intro found hfound
    induction found with
    | nil => rfl
    | cons field found ih =>
        obtain ⟨hfield, hfound⟩ := List.forall_mem_cons.mp hfound
        rw [List.flatMapM_cons, fieldNames, hfield, ih hfound]
        rfl
  have hnames : (do (← expandWord parts true first).toList.flatMapM fieldNames) shell =
      .done (.ok (fields.toList.map Field.text), shell) := by
    refine (bind_of_done hfirst).trans ?_
    rw [hfields _ hwild]
    rfl
  rw [expandWords, List.flatMapM_cons]
  exact (bind_of_done hnames).trans ((bind_of_done hrest).trans rfl)

/-- A word that expands to one field without a wildcard is one argument. -/
theorem expandWords_cons {parts : Evaluator} {first : Node} {rest : List Node}
    {shell final : Shell} {fields : Fields} {field : Field} {more : List String}
    (hfirst : expandWord parts true first shell = .done (.ok fields, shell))
    (hfield : fields.toList = [field]) (hwild : field.isWild = false)
    (hrest : expandWords parts rest shell = .done (.ok more, final)) :
    expandWords parts (first :: rest) shell = .done (.ok (field.text :: more), final) := by
  have hall : ∀ found ∈ fields.toList, found.isWild = false := by
    rw [hfield]
    exact List.forall_mem_singleton.mpr hwild
  have hwords := expandWords_fields hfirst hall hrest
  rwa [hfield] at hwords

section

variable (executor : Executor)

theorem evaluation_expand :
    (evaluation executor).expand = expandFragment (evaluation executor) :=
  funext fun isQuoted => funext fun n => funext fun fields =>
    expand_eq executor n isQuoted fields

theorem expandAll_quoted (inside : List Node) (fields : Fields) (shell : Shell) :
    expandAll (evaluation executor) false [.quoted inside] fields shell =
      expandAll (evaluation executor) true inside
        (fields.startQuoted inside shell.state.positional) shell := by
  rw [expandAll_singleton, evaluation_expand]
  rfl

end

/-- What stands between double quotes adds the text it spells. -/
theorem Spells.expandAll_literal (executor : Executor) {written : List Char} {text : String}
    (h : Spells written text.toList) (fields : Fields) :
    expandAll (evaluation executor) false [.quoted (Word.flush written.reverse [])] fields =
      pure (fields.addQuoted text) := by
  funext shell
  have hstart : ∀ positional,
      fields.startQuoted (Word.flush written.reverse []) positional = fields.addQuoted "" := by
    intro positional
    unfold Word.flush
    split <;> rfl
  have hunescape : unescapeQuoted (String.ofList written) = text := by
    rw [unescapeQuoted, String.toList_ofList, h.unescapeOnto]
    simp
  refine (expandAll_quoted executor _ fields shell).trans ?_
  rw [hstart]
  unfold Word.flush
  split
  · rename_i hempty
    have hnone : written = [] := by simpa using hempty
    have htext : text = "" := by
      rw [← hunescape, hnone]
      rfl
    rw [htext]
    rfl
  · rw [expandAll_singleton, List.reverse_reverse, evaluation_expand, expandFragment, if_pos rfl,
      hunescape, Fields.addQuoted_append, String.empty_append]

namespace Quote

section

variable (executor : Executor) (quote : Quote) (text : String)

/-- The fragments of a quoted text add the text to the fields, and nothing else. -/
theorem expandAll_parts (fields : Fields) :
    expandAll (evaluation executor) false (quote.parts [] text.toList) fields =
      pure (fields.addQuoted text) := by
  cases quote with
  | single =>
      have hliteral :
          fields.addLiteral [] (single.written text.toList) = fields.addQuoted text := by
        have hsingle := addLiteral_single fields text.toList [] (by simp)
        rwa [List.nil_append, List.nil_append, String.ofList_toList] at hsingle
      rw [parts, expandAll_singleton, evaluation_expand, expandFragment, List.nil_append,
        String.toList_ofList, hliteral]
      rfl
  | double => exact (spells_double text.toList).expandAll_literal executor fields

theorem expandWord_word (splits : Bool) (shell : Shell) :
    expandWord (evaluation executor) splits (quote.word "" text) shell =
      .done (.ok ((shell.noFields splits).addQuoted text), shell) := by
  have hword : expandWord (evaluation executor) splits (quote.word "" text) shell =
      expandAll (evaluation executor) false (quote.parts [] text.toList) (shell.noFields splits)
        shell := by
    cases quote with
    | single =>
        -- the literal starts with its quote, so there is no tilde
        have hhome : homeOf shell.state
            (String.ofList ("".toList ++ single.written text.toList)).toList = none := by
          rw [String.toList_ofList]
          rfl
        exact expandWord_literal _ splits [] hhome
    | double => rfl
  rw [hword, expandAll_parts]
  rfl

theorem expandSingle_word :
    expandSingle (evaluation executor) (quote.word "" text) = pure text := by
  funext shell
  refine (bind_of_done (expandWord_word executor quote text false shell)).trans ?_
  rw [Fields.joined, Shell.toList_addQuoted]
  simp

/-- The arguments of the command are its name and the text. -/
theorem expandWords_argument :
    expandWords (evaluation executor) (quote.argument text) = pure ["x", text] := by
  funext shell
  have hname : isBare "x" = true := by decide
  have hliteral : ∀ fields, (evaluation executor).expand false (.literal "x") fields =
      pure (fields.addLiteral [] "x".toList) := expand_eq executor (.literal "x") false
  exact expandWords_cons (expandWord_bare hliteral hname shell) (Fields.toList_bare hname _) rfl
    (expandWords_cons (expandWord_word executor quote text true shell)
      (shell.toList_addQuoted true text) rfl rfl)

theorem parse_parameter (position : Position) (depth : Nat) :
    parseWord "\"$v\"" position depth = .ok [.quoted [.parameter true "v"]] := by
  have hexpansion : ∀ (program : Word.ProgramParser) (place : List Char → Position),
      Word.expansion program place ['v', '"'] = .ok (some (.parameter true "v", ['"'])) := by
    intro program place
    rfl
  rw [parseWord, Word.parse]
  change Word.fragments _ _ [] [] ['"', '$', 'v', '"'] = _
  rw [Word.fragments_quotes, Word.quotedFragments_dollar, hexpansion]
  simp only [Word.quotedFragments_end]
  exact Word.fragments_nil

/-- A parameter in double quotes gives back its value. -/
theorem expandWords_parameter {shell : Shell} (h : shell.state.get? "v" = some text) :
    expandWords (evaluation executor) [.word [.quoted [.parameter true "v"]]] shell =
      .done (.ok [text], shell) := by
  have hvalue : (shell.state.parameter? "v").getD "" = text := by simp [State.parameter?, h]
  have hread : parameterValue (evaluation executor) true "v" shell = .done (.ok text, shell) := by
    rw [parameterValue]
    simp only [if_true]
    exact congrArg (fun value => Proc.done (Except.ok value, shell)) hvalue
  have hparameter : ∀ fields,
      (evaluation executor).expand true (.parameter true "v") fields shell =
        Proc.done (Except.ok (fields.addQuoted text), shell) := by
    intro fields
    have hlist : (true && decide ("v" = "@")) = false := by decide
    rw [evaluation_expand, expandFragment, hlist, if_neg Bool.false_ne_true]
    exact bind_of_done hread
  have hword : expandWord (evaluation executor) true (.word [.quoted [.parameter true "v"]]) shell =
      .done (.ok ((shell.noFields true).addQuoted text), shell) := by
    have hstart : ∀ (fields : Fields) positional,
        fields.startQuoted [.parameter true "v"] positional = fields.addQuoted "" := by
      intro fields positional
      have hall : isAllParameters [.parameter true "v"] = false := by decide
      rw [Fields.startQuoted, hall]
      rfl
    rw [expandWord_quoted, expandAll_quoted, hstart, expandAll_singleton, hparameter,
      Fields.addQuoted_append, String.empty_append]
  exact expandWords_cons hword (shell.toList_addQuoted true text) rfl rfl

end

end Quote

/-! ## Assignments -/

/-- A command was counted and assigned a value. -/
def Shell.assigned (shell : Shell) (name value : String) : Shell :=
  { shell with
    state := { shell.counted.state.set name value with status := 0 }
    substitutionStatus := none }

theorem Shell.get?_assigned (shell : Shell) (name value : String) :
    (shell.assigned name value).state.get? name = some value :=
  Bindings.get?_insert_self _ _ _

/-- A command is counted first, and then refused if the count is beyond the limit. -/
theorem countCommand_eq (shell : Shell) :
    countCommand shell = .ask .command fun _ =>
      .done (if shell.state.commands < shell.limits.commands then .ok ()
        else .error (.limit (.commands shell.limits.commands)), shell.counted) := by
  change Proc.ask .command (fun _ => (if shell.limits.commands < shell.state.commands + 1 then
    throw (.limit (.commands shell.limits.commands)) else pure () : Action Unit) shell.counted) = _
  by_cases hwithin : shell.state.commands < shell.limits.commands
  · rw [if_neg (Nat.not_lt.mpr hwithin), if_pos hwithin]
    rfl
  · rw [if_pos (Nat.lt_succ_of_le (Nat.not_lt.mp hwithin)), if_neg hwithin]
    rfl

theorem countCommand_within {shell : Shell} (h : shell.state.commands < shell.limits.commands) :
    countCommand shell = .ask .command fun _ => .done (.ok (), shell.counted) := by
  rw [countCommand_eq, if_pos h]

theorem Assignment.ofWord?_literal {text name value : String} {rest : List Node}
    (hsplit : Builtin.splitAssignment text = (name, some value)) (hname : isName name = true) :
    Assignment.ofWord? (.word (.literal text :: rest)) =
      some ⟨name, .word (if value.isEmpty then rest else .literal value :: rest)⟩ := by
  simp only [ofWord?, hsplit, hname, if_true]

namespace Quote

section

variable (executor : Executor) (quote : Quote) (text : String)

theorem ofArgs_argument : CommandParts.ofArgs (quote.argument text) =
    ⟨[], quote.argument text, []⟩ := rfl

theorem ofWord?_word :
    Assignment.ofWord? (quote.word "v=" text) = some ⟨"v", quote.word "" text⟩ := by
  cases quote with
  | single =>
      have hsplit : Builtin.splitAssignment
          (String.ofList ("v=".toList ++ single.written text.toList)) =
            ("v", some (String.ofList (single.written text.toList))) := by
        rw [Builtin.splitAssignment, String.toList_ofList]
        rfl
      have hne : (String.ofList (single.written text.toList)).isEmpty = false := by
        simp [written]
      refine (Assignment.ofWord?_literal hsplit (by decide)).trans ?_
      rw [hne]
      rfl
  | double =>
      have hsplit : Builtin.splitAssignment "v=" = ("v", some "") := by decide
      exact Assignment.ofWord?_literal hsplit (by decide)

theorem ofArgs_assignment : CommandParts.ofArgs (quote.assignment text) =
    ⟨[⟨"v", quote.word "" text⟩], [], []⟩ := by
  have hwords : CommandParts.splitAssignments (quote.assignment text) =
      ([⟨"v", quote.word "" text⟩], []) := by
    rw [assignment, CommandParts.splitAssignments, ofWord?_word]
    rfl
  have hargs : CommandParts.ofArgs (quote.assignment text) =
      ⟨(CommandParts.splitAssignments (quote.assignment text)).1,
        (CommandParts.splitAssignments (quote.assignment text)).2, []⟩ := rfl
  rw [hargs, hwords]

theorem runSimple_assignment (shell : Shell) :
    runSimple executor (execute executor) (evaluation executor) (quote.assignment text) shell =
      .done (.ok 0, { shell with
        state := shell.state.set "v" text
        substitutionStatus := none }) := by
  have hassign : ∀ shell,
      assignOnly (evaluation executor) ⟨[⟨"v", quote.word "" text⟩], [], []⟩ shell =
        .done (.ok (shell.substitutionStatus.getD 0),
          { shell with state := shell.state.set "v" text }) := by
    intro shell
    rw [assignOnly]
    simp only [List.forM_eq_forM, List.forM_cons, List.forM_nil, expandSingle_word]
    rfl
  have hrun : runSimple executor (execute executor) (evaluation executor) (quote.assignment text)
      shell = assignOnly (evaluation executor) ⟨[⟨"v", quote.word "" text⟩], [], []⟩
        { shell with substitutionStatus := none } := by
    rw [runSimple, ofArgs_assignment]
    rfl
  rw [hrun, hassign]
  rfl

/-- The value is assigned, and that is all. -/
theorem runProgram_assignment {shell : Shell} (h : shell.state.commands < shell.limits.commands) :
    Action.runProgram executor [.command (quote.assignment text) false] shell =
      .ask .command fun _ => .done (.ok (), shell.assigned "v" text) := by
  have hcommand : runCommand executor (execute executor) (evaluation executor)
      (quote.assignment text) false shell =
        .ask .command fun _ => .done (.ok 0, { shell.counted with
          state := shell.counted.state.set "v" text
          substitutionStatus := none }) :=
    (bind_of_ask (countCommand_within h)).trans
      (congrArg (Proc.ask .command) (funext fun _ => runSimple_assignment executor quote text _))
  have hexecute : execute executor (.command (quote.assignment text) false) shell =
      .ask .command fun _ => .done (.ok 0, shell.assigned "v" text) := by
    rw [execute_eq]
    exact bind_of_ask (attempt_of_ask hcommand)
  rw [Action.runProgram]
  simp only [List.forM_eq_forM, List.forM_cons, List.forM_nil]
  exact bind_of_ask (bind_of_ask (attempt_of_ask hexecute))

end

end Quote

/-- Quoted text is kept exactly, from the source to the argument and through a variable: whatever
the shell, the expanded arguments are the name and the text; and a shell that may still run
a command assigns the text, which the parameter in double quotes then gives back. -/
theorem quoting_exact (executor : Executor) (quote : Quote) (text : String)
    (hsize : byteSize ("x " ++ quote.write text).toList ≤ maxInputSize) :
    (∃ args, parse ("x " ++ quote.write text) = .ok [.command args false] ∧
      CommandParts.ofArgs args = ⟨[], args, []⟩ ∧
      expandWords (evaluation executor) args = pure ["x", text]) ∧
    ∃ program parts, parse ("v=" ++ quote.write text) = .ok program ∧
      (∀ position depth, parseWord "\"$v\"" position depth = .ok parts) ∧
      ∀ shell : Shell, shell.state.commands < shell.limits.commands →
        Action.runProgram executor program shell =
          .ask .command (fun _ => .done (.ok (), shell.assigned "v" text)) ∧
        (shell.assigned "v" text).state.get? "v" = some text ∧
        expandWords (evaluation executor) [.word parts] (shell.assigned "v" text) =
          .done (.ok [text], shell.assigned "v" text) := by
  have hvalue : byteSize ("v=" ++ quote.write text).toList ≤ maxInputSize := by
    simp only [String.toList_append, byteSize_append] at hsize ⊢
    exact hsize
  refine ⟨⟨_, quote.parse_argument text hsize, quote.ofArgs_argument text,
    quote.expandWords_argument executor text⟩,
    _, _, quote.parse_assignment text hvalue, Quote.parse_parameter, fun shell hwithin => ?_⟩
  have hget := shell.get?_assigned "v" text
  exact ⟨quote.runProgram_assignment executor text hwithin, hget,
    Quote.expandWords_parameter executor text hget⟩

/-- A shell in which commands may run. -/
def Shell.ready : Shell := .new (State.initial "/" 1) ⟨9, 9, 9⟩

/-- Quotes of both kinds, a pattern, a parameter and a backslash before the end of a line. -/
theorem quoting_exact_marks :
    byteSize ("x " ++ Quote.double.write "it's \"*\" $v \\\n").toList ≤ maxInputSize ∧
    (∃ args, parse ("x " ++ Quote.double.write "it's \"*\" $v \\\n") =
        .ok [.command args false] ∧
      CommandParts.ofArgs args = ⟨[], args, []⟩ ∧
      expandWords (evaluation .idle) args = pure ["x", "it's \"*\" $v \\\n"]) ∧
    ∃ program parts, parse ("v=" ++ Quote.double.write "it's \"*\" $v \\\n") = .ok program ∧
      parseWord "\"$v\"" .start 0 = .ok parts ∧
      Action.runProgram .idle program Shell.ready =
        .ask .command (fun _ => .done (.ok (), Shell.ready.assigned "v" "it's \"*\" $v \\\n")) ∧
      (Shell.ready.assigned "v" "it's \"*\" $v \\\n").state.get? "v" =
        some "it's \"*\" $v \\\n" ∧
      expandWords (evaluation .idle) [.word parts]
          (Shell.ready.assigned "v" "it's \"*\" $v \\\n") =
        .done (.ok ["it's \"*\" $v \\\n"],
          Shell.ready.assigned "v" "it's \"*\" $v \\\n") := by
  have hsize : byteSize ("x " ++ Quote.double.write "it's \"*\" $v \\\n").toList ≤
      maxInputSize := by decide +kernel
  obtain ⟨hargument, program, parts, hprogram, hparts, hruns⟩ :=
    quoting_exact .idle .double "it's \"*\" $v \\\n" hsize
  obtain ⟨hrun, hget, hexpand⟩ := hruns Shell.ready (by decide)
  exact ⟨hsize, hargument, program, parts, hprogram, hparts .start 0, hrun, hget, hexpand⟩

/-- A program that starts with a simple command ends where no command may run. -/
theorem runProgram_refused (executor : Executor) (args : List Node) (background : Bool)
    (rest : Program) {shell : Shell} (h : shell.limits.commands ≤ shell.state.commands)
    {log : List Exchange} {x : Except Interruption Unit × Shell} :
    Acts (Action.runProgram executor (.command args background :: rest)) shell log x ↔
      log = [.asked .command ()] ∧
        x = (.error (.limit (.commands shell.limits.commands)), shell.counted) := by
  rw [Action.runProgram]
  simp only [List.forM_eq_forM, List.forM_cons]
  rw [acts_bind]
  simp only [acts_attempt_bind, execute_refused executor args background h]
  constructor
  · rintro (⟨_, _, rfl, ⟨_, _, first, later, rfl, ⟨rfl, hx⟩, hlater⟩⟩ |
      ⟨_, _, _, _, _, ⟨_, _, first, later, rfl, ⟨rfl, hx⟩, hlater⟩, _⟩)
    · cases hx
      obtain ⟨rfl, hx⟩ := acts_throw.mp hlater
      cases hx
      exact ⟨rfl, rfl⟩
    · cases hx
      cases (acts_throw.mp hlater).2
  · rintro ⟨rfl, rfl⟩
    exact .inl ⟨_, _, rfl, _, _, _, [], rfl, ⟨rfl, rfl⟩, acts_throw.mpr ⟨rfl, rfl⟩⟩

/-- A shell that has used up its limit leaves the variable unset. -/
theorem assignment_refused : ∃ program, parse ("v=" ++ Quote.single.write "a") = .ok program ∧
    (∀ log x, Acts (Action.runProgram .idle program)
      (.new (State.initial "/" 1) ⟨9, 0, 9⟩) log x ↔
        log = [.asked .command ()] ∧ x = (.error (.limit (.commands 0)),
          (Shell.new (State.initial "/" 1) ⟨9, 0, 9⟩).counted)) ∧
    (Shell.new (State.initial "/" 1) ⟨9, 0, 9⟩).counted.state.get? "v" = none :=
  ⟨_, Quote.single.parse_assignment "a" (by decide +kernel),
    fun _ _ => runProgram_refused .idle _ false [] (by decide), by decide⟩

end Conch
