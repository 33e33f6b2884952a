import Conch.Proofs.Appending
import Conch.Proofs.Arithmetic.Stored
import Conch.Proofs.Shell.Forwarding
import Conch.Proofs.Shell.Invocations
import Conch.Proofs.Shell.Prefixes
import Mathlib.Data.List.Sort
import Mathlib.Data.String.Basic

/-!
# The listing of exported variables

`export -p` lists each exported variable in a line of its own, with the value between double
quotes.  Only backslashes and quotes get a backslash there, and so the value is spelled if
none of its dollar signs starts an expansion (`spells_escapeListed`).  Such lines are parsed
one by one (`parse_lines`), each sets and exports its variable and asks nothing but its count
(`execute_line`), and a listing of them leaves a new shell with the environment that was
listed (`listing_read_back`).
-/

namespace Conch

open Syntax

/-!
## The environment of commands

Commands are given the exported variables that have a value, sorted by name.  A name has one
value, and is exported once; so the entries decide the environment (`environment_ext`), and
setting and exporting a variable puts one entry in the place of another one of its name
(`mem_environment_export`).
-/

namespace State

variable {state other : State} {entry : String × String} {name value : String}

theorem mem_environment : entry ∈ state.environment ↔
    state.isExported entry.1 = true ∧ state.get? entry.1 = some entry.2 := by
  obtain ⟨name, value⟩ := entry
  simp [environment, isExported, and_comm]

/-- Names have one value each. -/
theorem environment_injective {a b : String × String} (ha : a ∈ state.environment)
    (hb : b ∈ state.environment) (h : a.1 = b.1) : a = b := by
  have hget := (mem_environment.mp ha).2
  rw [h, (mem_environment.mp hb).2] at hget
  exact Prod.ext h (Option.some.inj hget).symm

theorem environment_of_sorted (h : state.exported.Pairwise (· ≤ ·)) :
    state.environment =
      state.exported.filterMap fun name => (state.get? name).map fun value => (name, value) := by
  rw [environment, List.mergeSort_of_pairwise (h.imp fun hab => decide_eq_true hab)]

theorem environment_pairwise (h : state.exported.Nodup) :
    state.environment.Pairwise fun a b => a.1 < b.1 := by
  have hsorted := state.exported.pairwise_mergeSort' (· ≤ ·)
  have hnodup := (List.mergeSort_perm state.exported (· ≤ ·)).nodup_iff.mpr h
  have hstrict := (hsorted.and hnodup).imp fun hab => lt_of_le_of_ne hab.1 hab.2
  refine hstrict.filterMap _ fun first second hlt a ha b hb => ?_
  obtain ⟨_, -, rfl⟩ := Option.map_eq_some_iff.mp ha
  obtain ⟨_, -, rfl⟩ := Option.map_eq_some_iff.mp hb
  exact hlt

/-- Environments with the same entries are the same. -/
theorem environment_ext (hstate : state.exported.Nodup) (hother : other.exported.Nodup)
    (h : ∀ entry, entry ∈ state.environment ↔ entry ∈ other.environment) :
    state.environment = other.environment := by
  have hnodup : ∀ {entries : List (String × String)},
      entries.Pairwise (fun a b => a.1 < b.1) → entries.Nodup := by
    refine fun hsorted => hsorted.imp fun hlt => ?_
    rintro rfl
    exact String.lt_irrefl _ hlt
  have hsorted := environment_pairwise hstate
  have hsorted' := environment_pairwise hother
  have hperm := (List.perm_ext_iff_of_nodup (hnodup hsorted) (hnodup hsorted')).mpr h
  exact hperm.eq_of_pairwise (fun a b _ _ hab hba => absurd hba (String.lt_asymm hab)) hsorted
    hsorted'

theorem nodup_exportName (h : state.exported.Nodup) (name : String) :
    (state.exportName name).exported.Nodup := by
  unfold exportName
  split
  · exact h
  · rename_i hnew
    have hnew : name ∉ state.exported := by simpa [isExported] using hnew
    exact h.append (List.nodup_singleton name) (by simpa using hnew)

/-- A variable that is set and exported has an entry, in the place of one of its name. -/
theorem mem_environment_export :
    entry ∈ ((state.set name value).exportName name).environment ↔
      entry = (name, value) ∨ entry ∈ state.environment ∧ entry.1 ≠ name := by
  have hset : (state.set name value).isExported entry.1 = state.isExported entry.1 := rfl
  rw [mem_environment, mem_environment, isExported_exportName, get?_exportName, hset]
  obtain ⟨key, held⟩ := entry
  by_cases h : key = name
  · subst h
    simpa [get?_set_self] using eq_comm
  · simp [get?_set_of_ne state value h, h]

end State

/-! ## The lines of the listing -/

/-- No dollar sign stands directly before a character with which it starts an expansion. -/
def isInert : List Char → Bool
  | [] => true
  | c :: rest => !(c == '$' && rest.head?.any startsExpansion) && isInert rest

namespace Builtin

/-- What the listing has for one variable. -/
def listedLine (name value : String) : String :=
  "export " ++ name ++ "=\"" ++ escapeListed value ++ "\"\n"

theorem toList_escapeListed (value : String) :
    (escapeListed value).toList =
      value.toList.flatMap fun c => if c = '\\' || c = '"' then ['\\', c] else [c] := by
  rw [escapeListed, String.toList_ofList]

/-- An inert value is spelled by what is listed for it. -/
theorem spells_escapeListed {value : String} (h : isInert value.toList = true) :
    Spells (escapeListed value).toList value.toList := by
  rw [toList_escapeListed]
  generalize value.toList = text at h
  induction text with
  | nil => exact .nil
  | cons c rest ih =>
      simp only [isInert, Bool.and_eq_true, Bool.not_eq_true', Bool.and_eq_false_iff] at h
      obtain ⟨hdollar, hrest⟩ := h
      rw [List.flatMap_cons]
      by_cases hc : c = '\\' ∨ c = '"'
      · rw [if_pos (by simpa using hc)]
        exact .escaped (ih hrest) (by tauto)
      · rw [if_neg (by simpa using hc)]
        refine .plain (ih hrest) (fun hquote => hc (.inr hquote)) (fun hslash => hc (.inl hslash))
          fun hlive => ?_
        have hnext : rest.head?.any startsExpansion = false := by
          rcases hdollar with hne | hnext
          · exact absurd hlive (ne_of_beq_false hne)
          · exact hnext
        cases rest with
        | nil => rfl
        | cons d rest =>
            -- a backslash starts no expansion either
            rw [List.flatMap_cons]
            split
            · rfl
            · exact hnext

end Builtin

/-! ## Parsing a line -/

/-- The word of an assignment as it is listed. -/
def Syntax.Node.listed (name value : String) : Node :=
  .word (Word.inQuotes (name ++ "=").toList (Builtin.escapeListed value).toList)

/-- The arguments of a line of the listing. -/
def exportArgs (name value : String) : List Node := [.plain "export", .listed name value]

/-- What a line of the listing is parsed to. -/
def exportNode (name value : String) : Node := .command (exportArgs name value) false

section

variable {name value : String} (hname : isName name = true)

include hname

theorem mem_assigned {c : Char} (h : c ∈ (name ++ "=").toList) : isNameChar c = true ∨ c = '=' := by
  rw [String.toList_append, List.mem_append] at h
  exact h.imp (isNameChar_of_isName hname c) List.mem_singleton.mp

theorem isPlain_assigned : ∀ c ∈ (name ++ "=").toList, isPlain c = true := by
  intro c hc
  rcases mem_assigned hname hc with hchar | rfl
  · exact isPlain_of_isNameChar hchar
  · decide

theorem isBare_assigned : isBare (name ++ "=") = true := by
  refine isBare_iff.mpr ⟨by simp, fun c hc => ?_⟩
  rcases mem_assigned hname hc with hchar | rfl
  · and_intros <;> exact ne_of_isNameChar hchar (by decide)
  · decide

theorem splitAssignment_assigned :
    Builtin.splitAssignment (name ++ "=" ++ value) = (name, some value) := by
  have hall : ∀ c ∈ name.toList, (c ≠ '=' : Bool) = true := fun c hc => by
    simpa using ne_of_isNameChar (isNameChar_of_isName hname c hc) (by decide)
  have htext : (name ++ "=" ++ value).toList = name.toList ++ '=' :: value.toList := by simp
  rw [Builtin.splitAssignment, htext, List.dropWhile_append_of_pos hall,
    List.takeWhile_append_of_pos hall]
  simp

variable (hinert : isInert value.toList = true)

include hinert

theorem render_listed : (Node.listed name value).render.toList =
    (name ++ "=").toList ++ '"' :: ((Builtin.escapeListed value).toList ++ ['"']) := by
  let parse : Word.ProgramParser := fun _ => .ok []
  have hparse : Word.parse parse .start _ = .ok _ :=
    (Builtin.spells_escapeListed hinert).parse_inQuotes (isPlain_assigned hname) .start
  exact Word.parse_render hparse (Word.programs_inQuotes _ _)

theorem rereads_listed : Node.Rereads id false (.listed name value) := by
  refine ⟨fun room _ => ⟨_, rfl, fun position => ?_⟩, fun h => absurd h (by decide)⟩
  rw [render_listed hname hinert]
  exact (Builtin.spells_escapeListed hinert).parse_inQuotes (isPlain_assigned hname) position

/-- At the end of a line the word is read as itself. -/
theorem lexed_listed : (Piece.word false (.listed name value)).Lexed ['\n'] := by
  have hrender := render_listed hname hinert
  refine Piece.lexed_word_before ?_ (fun position => ?_) (by simp)
  · obtain ⟨c, rest, htext, hc, -⟩ := Arithmetic.exists_of_isName hname
    have hchar := Syntax.isNameChar_of_isNameStart hc
    refine ⟨c, ?_, isWordBoundary_of_isPlain (isPlain_of_isNameChar hchar),
      ne_of_isNameChar hchar (by decide)⟩
    rw [hrender, String.toList_append, htext]
    rfl
  · rw [hrender]
    have hread := (Builtin.spells_escapeListed hinert).readWord_inQuotes (isPlain_assigned hname)
      (rfl : (['\n'] : List Char).head?.all isWordBoundary = true) [] position
    simpa using hread

end

/-! ## Parsing the lines -/

namespace Syntax.Grammar

variable {command : Grammar Node} {f : List Node → List Node} {n : Node}

/-- A statement and the end of its line are a whole program. -/
theorem reads_line (hstarts : n.Starts) (hread : ReadsList command f n) {items : List Lexeme}
    (hitems : items.map Lexeme.symbol = Piece.symbols n.layout ++ [⟨.newline, "\n"⟩])
    (finish : Position) :
    wholeProgram command ⟨items, finish⟩ = .ok ([n.mapWords f], ⟨[], finish⟩) := by
  have hstops : ∀ t ∈ ([] : List Token), t.closes = true := by simp
  have hend : Leads (endStatement [] (n.mapWords f)) [⟨.newline, "\n"⟩]
      (pure (some (n.mapWords f, .more))) always :=
    leads_endStatement_separator (.inr rfl) [] _
  have hnext := leads_nextStatement hstops hstarts hread hend (fun _ _ => rfl) items [] finish
    hitems trivial
  have hlast : nextStatement command [] ⟨[], finish⟩ = .ok (none, ⟨[], finish⟩) :=
    leads_nextStatement_stop [] [] finish rfl rfl
  have hne : items ≠ [] := by
    rintro rfl
    simp at hitems
  obtain ⟨front, rest, rfl⟩ := List.exists_cons_of_ne_nil hne
  rw [List.append_nil] at hnext
  rw [wholeProgram_run, bind_ok ((statements_more hnext).trans (statements_none hlast))]
  rfl

end Syntax.Grammar

theorem isSimpleWord_export : (Node.plain "export").IsSimpleWord :=
  Node.isSimpleWord_plain (by decide) (by decide)

section

variable {name value : String} (hname : isName name = true)
  (hinert : isInert value.toList = true)

include hname hinert

theorem toList_listedLine : (Builtin.listedLine name value).toList =
    Piece.spell (exportNode name value).layout ++ ['\n'] := by
  have hrender : (exportNode name value).render = "export " ++ (Node.listed name value).render := by
    simp [exportNode, exportArgs, Node.listed, Node.plain, Node.renderList, Node.renderMore,
      Node.render]
  rw [← Node.render_toList, hrender, String.toList_append, render_listed hname hinert]
  simp [Builtin.listedLine]

theorem lexemes_line :
    ∃ stream, Lexemes.ofText (Builtin.listedLine name value).toList = .ok stream ∧
      stream.items.map Lexeme.symbol =
        Piece.symbols (exportNode name value).layout ++ [⟨.newline, "\n"⟩] := by
  have hlexed : Piece.AllLexed (exportNode name value).layout ['\n'] :=
    ⟨isSimpleWord_export.lexed fun c hc => .inl (Option.some.inj hc).symm, Piece.lexed_blank _,
      lexed_listed hname hinert, trivial⟩
  obtain ⟨items, after, hitems, hread⟩ := hlexed.read [] .start
  have hskip : Cursor.skipBlanks ['\n'] after = .ok ⟨['\n'], after⟩ :=
    Cursor.skipBlanks_of_ne (by decide) (by decide) (fun h => absurd h (by decide)) after
  have hnewline : Cursor.lexeme '\n' [] after =
      .ok (some ⟨.newline, "\n", after⟩, ⟨[], after.after '\n'⟩) := rfl
  rw [Lexemes.read_lexeme hskip hnewline, Lexemes.read_nil, ← toList_listedLine hname hinert]
    at hread
  exact ⟨_, hread, by simp [hitems, Lexeme.symbol]⟩

/-- A line of the listing is parsed by itself. -/
theorem parse_line (hsize : byteSize (Builtin.listedLine name value).toList ≤ maxInputSize) :
    parse (Builtin.listedLine name value) = .ok [exportNode name value] := by
  have hargs : Node.Arguments (exportArgs name value) := by
    refine ⟨by simp [exportArgs], by simp [exportArgs, Node.plain, Node.listed, Node.IsArgument],
      fun parts hparts => ?_⟩
    cases hparts
    decide
  have hnestings : Node.nestings (exportArgs name value) ≤ maxNesting := by
    refine Node.nestings_le_iff.mpr (List.forall_mem_cons.mpr ⟨Nat.zero_le _,
      List.forall_mem_singleton.mpr ?_⟩)
    exact (Nat.le_of_eq (Word.nestings_inQuotes _ _)).trans (Nat.zero_le _)
  have hwords : ∀ n ∈ exportArgs name value, Piece.ForWords (Node.Rereads id) n.layout := by
    refine List.forall_mem_cons.mpr ⟨?_, List.forall_mem_singleton.mpr ?_⟩
    · exact (Piece.forWords_word _ _ _).mpr ⟨isSimpleWord_export.rereads (by simp),
        Piece.forWords_nil⟩
    · exact (Piece.forWords_word _ _ _).mpr ⟨rereads_listed hname hinert, Piece.forWords_nil⟩
  have hstarts : (exportNode name value).Starts :=
    Node.Fits.starts (⟨by simp, hargs⟩ : (exportNode name value).Fits .statement)
  have hread := Grammar.reads_simple hnestings hargs hwords
  obtain ⟨stream, hstream, hsymbols⟩ := lexemes_line hname hinert
  have hprogram := Grammar.reads_line hstarts hread.pipeline.list hsymbols stream.finish
  rw [Node.mapWords_id] at hprogram
  exact parse_eq_ok.mpr (programOf_eq_ok.mpr ⟨hsize, stream, _, hstream, hprogram⟩)

end

/-- The lines of the listing, one for each entry. -/
def Builtin.listedLines (entries : List (String × String)) : String :=
  String.join (entries.map fun entry => listedLine entry.1 entry.2)

theorem Builtin.listedLines_cons (entry : String × String) (rest : List (String × String)) :
    listedLines (entry :: rest) = listedLine entry.1 entry.2 ++ listedLines rest := by
  simp [listedLines]

/-- What the lines of the listing are parsed to. -/
def exportNodes (entries : List (String × String)) : Program :=
  entries.map fun entry => exportNode entry.1 entry.2

/-- The names are names, and the values are inert. -/
def Listable (entries : List (String × String)) : Prop :=
  ∀ entry ∈ entries, isName entry.1 = true ∧ isInert entry.2.toList = true

/-- The lines of the listing are parsed one after the other. -/
theorem parse_lines {entries : List (String × String)} (hentries : Listable entries)
    (hsize : byteSize (Builtin.listedLines entries).toList ≤ maxInputSize) :
    parse (Builtin.listedLines entries) = .ok (exportNodes entries) := by
  induction entries with
  | nil =>
      have hfits : Node.AllFit [] := trivial
      exact parse_eq_ok.mpr (programOf_kept hfits Piece.forWords_nil (by decide) (by decide))
  | cons entry rest ih =>
      obtain ⟨⟨hname, hinert⟩, hrest⟩ := List.forall_mem_cons.mp hentries
      have hnewline : WholeLines (Builtin.listedLine entry.1 entry.2).toList := by
        rw [toList_listedLine hname hinert]
        exact .newline _
      rw [Builtin.listedLines_cons, String.toList_append, byteSize_append] at hsize
      have hfirst := parse_line hname hinert (Nat.le_of_add_right_le hsize)
      have halike := alike_append hfirst hnewline hsize
      obtain ⟨whole, hwhole, rfl⟩ := halike.of_ok (ih hrest (Nat.le_of_add_left_le hsize))
      rw [Builtin.listedLines_cons, hwhole]
      rfl

/-! ## Running the lines -/

/-- A command was counted, and it set and exported a variable. -/
def Shell.exporting (shell : Shell) (entry : String × String) : Shell :=
  { shell with
    state := { (shell.counted.state.set entry.1 entry.2).exportName entry.1 with status := 0 }
    substitutionStatus := none }

section

variable (executor : Executor) {name value : String} (hname : isName name = true)

include hname

theorem runExport_assigned (state : State) :
    Builtin.runExport state [name ++ "=" ++ value] =
      (.ok, (state.set name value).exportName name) := by
  have hoption : ∀ option : String, '=' ∉ option.toList → name ++ "=" ++ value ≠ option := by
    rintro option hoption rfl
    simp at hoption
  have hunexport := hoption "-n" (by decide)
  have hprint := hoption "-p" (by decide)
  have hend := hoption "--" (by decide)
  have hsplit : Builtin.splitAssignment (name ++ "=" ++ value) = (name, some value) :=
    splitAssignment_assigned hname
  simp [Builtin.runExport, Builtin.exportOne, Builtin.completionOf, hsplit, hname, hunexport.symm,
    hunexport, hprint, hend]

theorem invoke_export (shell : Shell) :
    invoke executor (execute executor) ["export", name ++ "=" ++ value] shell =
      .done (.ok 0, { shell with state := (shell.state.set name value).exportName name }) := by
  have hfind : Builtin.find? shell.dialect "export" = some .exportNames := by
    cases shell.dialect <;> rfl
  have hemit : Action.emit .ok = pure 0 := emit_silent 0
  have hrun : Builtin.exportNames.run [name ++ "=" ++ value] shell =
      Action.emit (Builtin.runExport shell.state [name ++ "=" ++ value]).1
        { shell with state := (Builtin.runExport shell.state [name ++ "=" ++ value]).2 } := rfl
  rw [invoke_special hfind rfl, hrun, runExport_assigned hname, hemit]
  rfl

variable (hinert : isInert value.toList = true)

include hinert

/-- The word of an assignment is one field, the name and the value with the sign between them. -/
theorem expandWord_listed (shell : Shell) :
    expandWord (evaluation executor) true (.listed name value) shell =
      .done (.ok (((shell.noFields true).addUnquoted (name ++ "=")).addQuoted value), shell) := by
  have hbare := isBare_assigned hname
  have hplain : ∀ c ∈ (name ++ "=").toList, c ≠ '\'' ∧ c ≠ '\\' := fun c hc =>
    ⟨((isBare_iff.mp hbare).2 c hc).1, ((isBare_iff.mp hbare).2 c hc).2.1⟩
  have hparts : Node.listed name value = .word (.literal (name ++ "=") ::
      [.quoted (Word.flush (Builtin.escapeListed value).toList.reverse [])]) := by
    rw [Node.listed, Word.inQuotes_letters (by simp), String.ofList_toList]
  have hliteral : ∀ fields : Fields,
      (evaluation executor).expand false (.literal (name ++ "=")) fields =
        pure (fields.addUnquoted (name ++ "=")) := by
    intro fields
    rw [evaluation_expand, expandFragment, if_neg Bool.false_ne_true,
      Fields.addLiteral_plain hplain, List.reverse_nil, List.nil_append, String.ofList_toList]
  have hquoted := (Builtin.spells_escapeListed hinert).expandAll_literal executor
  rw [hparts, expandWord_literal _ _ _ (homeOf_bare hbare _), expandAll, List.foldlM_cons, hliteral,
    pure_bind]
  exact congrFun (hquoted _) shell

theorem expandWords_line (shell : Shell) :
    expandWords (evaluation executor) (exportArgs name value) shell =
      .done (.ok ["export", name ++ "=" ++ value], shell) := by
  have hexport : isBare "export" = true := by decide
  have hbare := isBare_assigned hname
  have hliteral : ∀ fields, (evaluation executor).expand false (.literal "export") fields =
      pure (fields.addLiteral [] "export".toList) := expand_eq executor (.literal "export") false
  have hfield : (((shell.noFields true).addUnquoted (name ++ "=")).addQuoted value).toList =
      [⟨name ++ "=" ++ value, name ++ "=" ++ Pattern.escape value, false⟩] := by
    simp [Shell.noFields, Fields.new, Fields.addUnquoted, Fields.addQuoted, Fields.toList,
      Fields.finish, Field.empty, hasWildcard_bare hbare]
  exact expandWords_cons (expandWord_bare hliteral hexport shell) (Fields.toList_bare hexport _) rfl
    (expandWords_cons (expandWord_listed executor hname hinert shell) hfield rfl rfl)

/-- A line of the listing is counted, and sets and exports its variable. -/
theorem execute_line {shell : Shell} (h : shell.state.commands < shell.limits.commands) :
    execute executor (exportNode name value) shell =
      .ask .command fun _ => .done (.ok 0, shell.exporting (name, value)) := by
  have hargs : CommandParts.ofArgs (exportArgs name value) = ⟨[], exportArgs name value, []⟩ := by
    rfl
  rw [exportNode, execute_words executor hargs fun counted _ =>
    expandWords_line executor hname hinert counted]
  exact calling_of_done h (invoke_export executor hname _)

end

theorem Shell.commands_exporting (shell : Shell) (entry : String × String) :
    (shell.exporting entry).state.commands = shell.state.commands + 1 := by
  obtain ⟨_, _, hexport⟩ :=
    State.Revalued.exportName (shell.counted.state.set entry.1 entry.2) entry.1
  change ((shell.counted.state.set entry.1 entry.2).exportName entry.1).commands = _
  rw [hexport]
  rfl

/-- The lines of the listing ask for their counts alone, and each exports its variable. -/
theorem acts_lines (executor : Executor) {entries : List (String × String)}
    (hentries : Listable entries) {shell : Shell}
    (h : shell.state.commands + entries.length ≤ shell.limits.commands) {log : List Exchange}
    {x : Except Interruption Unit × Shell} :
    Acts (Action.runProgram executor (exportNodes entries)) shell log x ↔
      log = List.replicate entries.length (.asked .command ()) ∧
        x = (.ok (), entries.foldl Shell.exporting shell) := by
  induction entries generalizing shell log with
  | nil => exact acts_pure
  | cons entry rest ih =>
      obtain ⟨⟨hname, hinert⟩, hrest⟩ := List.forall_mem_cons.mp hentries
      rw [List.length_cons] at h
      have hwithin : shell.state.commands < shell.limits.commands := by omega
      have hrun : Action.runProgram executor (exportNodes (entry :: rest)) shell =
          .ask .command fun _ =>
            Action.runProgram executor (exportNodes rest) (shell.exporting entry) := by
        rw [exportNodes, List.map_cons, Action.runProgram]
        simp only [List.forM_eq_forM, List.forM_cons]
        exact bind_of_ask (bind_of_ask (attempt_of_ask
          (execute_line executor hname hinert hwithin)))
      have hnext : (shell.exporting entry).state.commands + rest.length ≤
          (shell.exporting entry).limits.commands := by
        rw [shell.commands_exporting]
        exact (Nat.add_right_comm ..).trans_le h
      change Proc.Runs (Action.runProgram _ _ shell) log x ↔ _
      rw [hrun]
      constructor
      · rintro ⟨_, later, rfl, hlater⟩
        obtain ⟨rfl, rfl⟩ := (ih hrest hnext).mp hlater
        exact ⟨rfl, rfl⟩
      · rintro ⟨rfl, rfl⟩
        exact ⟨(), _, rfl, (ih hrest hnext).mpr ⟨rfl, rfl⟩⟩

/-! ## The environment after the lines -/

namespace Shell

variable {shell : Shell} {entry : String × String}

theorem mem_environment_exporting {other : String × String} :
    other ∈ (shell.exporting entry).state.environment ↔
      other = entry ∨ other ∈ shell.state.environment ∧ other.1 ≠ entry.1 := by
  have hsame : other ∈ (shell.exporting entry).state.environment ↔
      other ∈ ((shell.counted.state.set entry.1 entry.2).exportName entry.1).environment := Iff.rfl
  rw [hsame, State.mem_environment_export]
  exact Iff.rfl

theorem nodup_exporting (h : shell.state.exported.Nodup) :
    (shell.exporting entry).state.exported.Nodup := by
  refine State.nodup_exportName ?_ entry.1
  exact h

variable {entries : List (String × String)}

/-- After lines whose names have one value each, the environment has the entries of the lines, and
what it had before under other names. -/
theorem mem_environment_lines (hvalues : ∀ a ∈ entries, ∀ b ∈ entries, a.1 = b.1 → a = b)
    {other : String × String} :
    other ∈ (entries.foldl exporting shell).state.environment ↔
      other ∈ entries ∨ other ∈ shell.state.environment ∧ ∀ entry ∈ entries, other.1 ≠ entry.1 := by
  induction entries generalizing shell with
  | nil => simp
  | cons entry rest ih =>
      rw [List.foldl_cons, ih fun a ha b hb => hvalues a (.tail _ ha) b (.tail _ hb),
        mem_environment_exporting]
      rw [List.mem_cons, List.forall_mem_cons]
      constructor
      · rintro (hother | ⟨rfl | ⟨hother, hne⟩, hrest⟩)
        · exact .inl (.inr hother)
        · exact .inl (.inl rfl)
        · exact .inr ⟨hother, hne, hrest⟩
      · rintro ((rfl | hother) | ⟨hother, hne, hrest⟩)
        · by_cases hlater : other ∈ rest
          · exact .inl hlater
          · -- a later line of the same name would be the same line
            refine .inr ⟨.inl rfl, fun entry hentry hname => hlater ?_⟩
            rwa [hvalues other (.head _) entry (.tail _ hentry) hname]
        · exact .inl hother
        · exact .inr ⟨.inr ⟨hother, hne⟩, hrest⟩

theorem nodup_lines (h : shell.state.exported.Nodup) :
    (entries.foldl exporting shell).state.exported.Nodup := by
  induction entries generalizing shell with
  | nil => exact h
  | cons entry rest ih => exact ih (nodup_exporting h)

theorem status_lines (h : shell.state.status = 0) :
    (entries.foldl exporting shell).state.status = 0 := by
  induction entries generalizing shell with
  | nil => exact h
  | cons entry rest ih => exact ih rfl

end Shell

/-! ## Reading the listing back -/

theorem length_listedLines (entries : List (String × String)) :
    10 * entries.length ≤ byteSize (Builtin.listedLines entries).toList := by
  have hline : ∀ name value, 10 ≤ byteSize (Builtin.listedLine name value).toList := by
    intro name value
    have hexport : byteSize "export ".toList = 7 := by decide
    have hopen : byteSize "=\"".toList = 2 := by decide
    have hclose : byteSize "\"\n".toList = 2 := by decide
    simp only [Builtin.listedLine, String.toList_append, byteSize_append, hexport, hopen, hclose]
    omega
  induction entries with
  | nil => exact Nat.zero_le _
  | cons entry rest ih =>
      have hfirst := hline entry.1 entry.2
      rw [Builtin.listedLines_cons, String.toList_append, byteSize_append, List.length_cons]
      omega

/-- The listing is a program.  In a new shell it asks for the counts of its commands alone, it
succeeds, and the shell then has the environment of the state. -/
def State.IsReadBack (executor : Executor) (state : State) : Prop :=
  ∃ program, parse (Builtin.listExported state) = .ok program ∧
    ∀ directory pid, ∃ final : Shell,
      (∀ log x, Acts (Action.runProgram executor program)
          (.new (State.initial directory pid) .standard) log x ↔
        log = List.replicate state.environment.length (.asked .command ()) ∧
          x = (.ok (), final)) ∧
      final.state.status = 0 ∧
      (∀ entry, entry ∈ final.state.environment ↔ entry ∈ state.environment) ∧
      (state.exported.Nodup → final.state.environment = state.environment)

/-- What `export -p` prints is read back for all names with inert values, unless it is larger than
sources may be. -/
theorem listing_read_back (executor : Executor) {state : State}
    (hentries : ∀ entry ∈ state.environment,
      isName entry.1 = true ∧ isInert entry.2.toList = true)
    (hsize : byteSize (Builtin.listExported state).toList ≤ maxInputSize) :
    Builtin.runExport state ["-p"] = (.success (Builtin.listExported state), state) ∧
      state.IsReadBack executor := by
  have hparse := parse_lines hentries hsize
  have hlength : state.environment.length ≤ Limits.standard.commands := by
    have hlines : 10 * state.environment.length ≤ maxInputSize :=
      (length_listedLines state.environment).trans hsize
    have hlimits : maxInputSize = 10 * Limits.standard.commands := rfl
    omega
  refine ⟨rfl, _, hparse, fun directory pid => ?_⟩
  let fresh : Shell := .new (State.initial directory pid) .standard
  have hwithin : fresh.state.commands + state.environment.length ≤ fresh.limits.commands :=
    (Nat.zero_add _).trans_le hlength
  have hvalues : ∀ a ∈ state.environment, ∀ b ∈ state.environment, a.1 = b.1 → a = b :=
    fun a ha b hb => State.environment_injective ha hb
  have hmem : ∀ entry, entry ∈ (state.environment.foldl Shell.exporting fresh).state.environment ↔
      entry ∈ state.environment := by
    intro entry
    have hnone : fresh.state.isExported entry.1 = false := rfl
    have hfresh : entry ∉ fresh.state.environment := fun h =>
      Bool.false_ne_true (hnone.symm.trans (State.mem_environment.mp h).1)
    rw [Shell.mem_environment_lines hvalues]
    simp [hfresh]
  refine ⟨_, fun log x => acts_lines executor hentries hwithin, Shell.status_lines rfl, hmem,
    fun hnodup => State.environment_ext (Shell.nodup_lines List.nodup_nil) hnodup hmem⟩

/-- Variables whose values have characters with a meaning between double quotes. -/
def State.marked : State :=
  { State.initial "/" 1 with
    bindings := ⟨[("A", "\"\\\" $ \n\x60'*"), ("B", "")]⟩
    exported := ["A", "B"] }

theorem listing_read_back_marked :
    (∀ entry ∈ State.marked.environment,
      isName entry.1 = true ∧ isInert entry.2.toList = true) ∧
    byteSize (Builtin.listExported State.marked).toList ≤ maxInputSize ∧
    Builtin.listExported State.marked = "export A=\"\\\"\\\\\\\" $ \n\x60'*\"\nexport B=\"\"\n" ∧
    State.marked.IsReadBack .idle := by
  have henvironment : State.marked.environment = [("A", "\"\\\" $ \n\x60'*"), ("B", "")] := by
    rw [State.environment_of_sorted (by decide)]
    decide
  have hentries : ∀ entry ∈ State.marked.environment,
      isName entry.1 = true ∧ isInert entry.2.toList = true := by
    rw [henvironment]
    decide
  have hlisting : Builtin.listExported State.marked =
      "export A=\"\\\"\\\\\\\" $ \n\x60'*\"\nexport B=\"\"\n" := by
    rw [Builtin.listExported, henvironment]
    decide +kernel
  have hsize : byteSize (Builtin.listExported State.marked).toList ≤ maxInputSize := by
    rw [hlisting]
    decide +kernel
  exact ⟨hentries, hsize, hlisting, (listing_read_back .idle hentries hsize).2⟩

/-- One exported variable. -/
def State.single (value : String) : State :=
  { State.initial "/" 1 with bindings := ⟨[("A", value)]⟩, exported := ["A"] }

theorem State.environment_single (value : String) :
    (State.single value).environment = [("A", value)] := by
  rw [environment_of_sorted (List.pairwise_singleton _ _)]
  rfl

theorem listExported_single (value : String) :
    Builtin.listExported (State.single value) = Builtin.listedLine "A" value := by
  have hlines : Builtin.listExported (State.single value) =
      Builtin.listedLines (State.single value).environment := rfl
  rw [hlines, State.environment_single]
  simp [Builtin.listedLines]

/-- The value is expanded where the listing is read. -/
theorem live_lost : ¬ (State.single "$x").IsReadBack .idle := by
  rintro ⟨program, hparse, hreads⟩
  obtain ⟨final, hacts, -, hmem, -⟩ := hreads "/" 1
  rw [listExported_single] at hparse
  let fresh : Shell := .new (State.initial "/" 1) .standard
  obtain ⟨program', hparse', hreplay⟩ := exists_parse (Builtin.listedLine "A" "$x")
    (fun program => ((Action.runProgram .idle program fresh).replay Request.commandReply?).any
      fun x => x.2.2.state.get? "A" = some "") (by decide +kernel)
  obtain rfl : program' = program := Except.ok.inj (hparse'.symm.trans hparse)
  obtain ⟨log, ⟨result, reached⟩, hruns, hreached⟩ := Proc.exists_runs _ _ _ hreplay
  obtain ⟨-, hx⟩ := (hacts log _).mp hruns
  cases hx
  have hlisted : ("A", "$x") ∈ (State.single "$x").environment := by
    rw [State.environment_single]
    exact List.mem_singleton_self _
  have hvalue := (State.mem_environment.mp ((hmem _).mpr hlisted)).2
  rw [of_decide_eq_true hreached] at hvalue
  exact absurd hvalue (by decide)

/-- Too long a listing is no source. -/
theorem long_lost {size : Nat} (hsize : maxInputSize ≤ size) :
    ¬ (State.single (String.ofList (List.replicate size 'a'))).IsReadBack .idle := by
  rintro ⟨program, hparse, -⟩
  rw [listExported_single] at hparse
  have hescaped : (Builtin.escapeListed (String.ofList (List.replicate size 'a'))).toList =
      List.replicate size 'a' := by
    rw [Builtin.toList_escapeListed, String.toList_ofList, List.flatMap_replicate]
    exact List.flatten_replicate_singleton
  have hbytes : maxInputSize <
      byteSize (Builtin.listedLine "A" (String.ofList (List.replicate size 'a'))).toList := by
    have hletter : Char.utf8Size 'a' = 1 := by decide
    have hclose : byteSize "\"\n".toList = 2 := by decide
    simp only [Builtin.listedLine, String.toList_append, byteSize_append, hescaped,
      byteSize_replicate, hletter, hclose]
    omega
  obtain ⟨e, he⟩ := parse_tooLarge hbytes
  rw [he] at hparse
  cases hparse

/-- A value with a parameter in it, and an inert one that is as long as a source may be. -/
theorem listing_lost :
    (isName "A" = true ∧ ¬ (State.single "$x").IsReadBack .idle) ∧
      isInert (List.replicate maxInputSize 'a') = true ∧
      ¬ (State.single (String.ofList (List.replicate maxInputSize 'a'))).IsReadBack .idle := by
  have hinert : ∀ size, isInert (List.replicate size 'a') = true := by
    intro size
    induction size with
    | zero => rfl
    | succ size ih =>
        rw [List.replicate_succ, isInert, ih]
        rfl
  exact ⟨⟨by decide, live_lost⟩, hinert _, long_lost (Nat.le_refl _)⟩

end Conch
