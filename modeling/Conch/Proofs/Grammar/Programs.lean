import Conch.Proofs.Grammar.Compounds
import Conch.Proofs.Tree.Words

/-!
# Reading whole programs

Every tree of the right shape is read from its symbols, at any level of nesting with
room for it: an induction over trees puts the rules for commands, lists and compound
commands together (`reads`).  The words may be read as something else than they were;
`f` says as what.
-/

namespace Conch.Syntax

theorem mayStart_starts {text : String} (h : mayStart text = true) :
    Symbol.starts ⟨.word, text⟩ = true := by
  unfold mayStart at h
  cases hreserved : Token.reserved? text with
  | none => simp [Symbol.starts, Symbol.token?, hreserved]
  | some token =>
      have htoken : token = .inWord := by simpa [hreserved] using h
      subst htoken
      simp [Symbol.starts, Symbol.token?, hreserved]
      decide

theorem Node.Arguments.starts {args : List Node} (h : Node.Arguments args) :
    ∃ s t, args.flatMap (fun n => Piece.symbols n.layout) = s :: t ∧ s.starts = true := by
  obtain ⟨hne, harguments, hfirst⟩ := h
  cases args with
  | nil => exact absurd rfl hne
  | cons arg rest =>
      have harg := harguments arg (by simp)
      cases arg with
      | word parts => exact ⟨_, _, rfl, mayStart_starts (hfirst parts rfl)⟩
      | redirection descriptor op target =>
          cases descriptor with
          | none =>
              refine ⟨op.symbol, _, rfl, ?_⟩
              obtain ⟨_, hop, _⟩ := harg
              cases op <;> first | decide | exact Bool.noConfusion hop
          | some value => exact ⟨_, _, rfl, rfl⟩
      | _ => exact harg.elim

theorem Node.Fits.starts {n : Node} {rank : Rank} (h : n.Fits rank) : n.Starts := by
  induction n using Node.induction generalizing rank with
  | command args background _ =>
      obtain ⟨s, t, hsymbols, hs⟩ := Node.Arguments.starts h.2
      refine ⟨s, t ++ (if background then [Token.ampersand.symbol] else []), ?_, hs⟩
      rw [Node.layout, Piece.symbols_append, Piece.symbols_layouts rfl, hsymbols]
      cases background <;> rfl
  | subshell body _ => exact ⟨Token.leftParen.symbol, _, rfl, by decide⟩
  | group body _ => exact ⟨Token.leftBrace.symbol, _, rfl, by decide⟩
  | conditional test body elifs otherwise _ _ _ _ =>
      exact ⟨Token.ifWord.symbol, _, Grammar.symbols_conditional test body elifs otherwise,
        by decide⟩
  | whileLoop test body _ _ => exact ⟨Token.whileWord.symbol, _, rfl, by decide⟩
  | forLoop name words body _ _ => exact ⟨Token.forWord.symbol, _, rfl, by decide⟩
  | binary op left right ihleft _ =>
      have hleft : ∃ rank, left.Fits rank := by
        cases op <;> simp [Node.Fits] at h <;> exact ⟨_, h.2.1⟩
      obtain ⟨rank, hleft⟩ := hleft
      obtain ⟨s, t, hsymbols, hs⟩ := ihleft hleft
      refine ⟨s, t ++ Piece.symbols (.blank :: .mark op :: .blank :: right.layout), ?_, hs⟩
      rw [Node.layout, Piece.symbols_append, hsymbols]
      rfl
  | function name body _ =>
      exact ⟨⟨.word, name⟩, _, rfl, mayStart_starts h.2.1⟩
  | choice subject arms _ _ => exact ⟨Token.caseWord.symbol, _, rfl, by decide⟩
  | _ => exact h.elim

/-- The text of the word is read, wherever there is room for it, as the word with the fragments
that `f` gives; and a first pattern does not end the choice it opens. -/
def Node.Rereads (f : List Node → List Node) (opensArm : Bool) (n : Node) : Prop :=
  (∀ room, n.nesting ≤ room → n.ReadAs (Level.atRoom room).program f) ∧
    (opensArm = true → n.render ≠ "esac")

namespace Grammar

variable {command : Grammar Node} {f : List Node → List Node}

/-- How a tree is read in a place of the given rank. -/
def Reads (command : Grammar Node) (f : List Node → List Node) : Rank → Node → Prop
  | .command, n => ReadsCommand command f n
  | .pipeline, n => ReadsPipeline command f n
  | .list, n => ReadsList command f n
  | .statement, n => ReadsStatement command f n

theorem ReadsCommand.reads {n : Node} (h : ReadsCommand command f n) (hstarts : n.Starts)
    (rank : Rank) : Reads command f rank n := by
  cases rank with
  | command => exact h
  | pipeline => exact h.pipeline
  | list => exact h.pipeline.list
  | statement => exact .inl ⟨hstarts, h.pipeline.list⟩

/-- The compound command that a token opens. -/
def opened? : Token → Option (Level → Grammar Node)
  | .leftParen => some Level.subshell
  | .ifWord => some Level.conditional
  | .whileWord => some Level.whileLoop
  | .forWord => some Level.forLoop
  | .caseWord => some Level.choice
  | .leftBrace => some Level.group
  | _ => none

theorem compound?_of_symbol {token : Token} {compound : Level → Grammar Node}
    (htoken : opened? token = some compound) {s : List Symbol} (items rest : List Lexeme)
    (hitems : items.map Lexeme.symbol = token.symbol :: s) :
    compound? (items ++ rest) = some compound := by
  obtain ⟨lexeme, others, rfl, hlexeme, _⟩ := List.map_eq_cons_iff.mp hitems
  have hkind : lexeme.kind = token.symbol.kind := congrArg Symbol.kind hlexeme
  have htext : lexeme.text = token.text := congrArg Symbol.text hlexeme
  cases token <;> simp only [opened?, reduceCtorEq] at htoken <;>
    simp only [compound?, List.cons_append, hkind, Lexeme.reserved?, htext] <;> exact htoken

theorem readsCommand_compound {room : Nat} {token : Token} {compound : Level → Grammar Node}
    {n : Node} (htoken : opened? token = some compound)
    (hsymbols : ∃ s, Piece.symbols n.layout = token.symbol :: s)
    (h : Leads (compound (Level.atRoom room)) (Piece.symbols n.layout) (pure (n.mapWords f))
      always) : ReadsCommand (Level.atRoom (room + 1)).command f n := by
  obtain ⟨s, hs⟩ := hsymbols
  have hchosen : ∀ items rest : List Lexeme, items.map Lexeme.symbol = Piece.symbols n.layout →
      compound? (items ++ rest) = some compound := by
    intro items rest hitems
    rw [hs] at hitems
    exact compound?_of_symbol htoken items rest hitems
  exact leads_command_compound hchosen (h.weaken (fun _ _ => trivial))

theorem compound?_function {name : String} (hname : mayStart name = true) {s : List Symbol}
    (items rest : List Lexeme)
    (hitems : items.map Lexeme.symbol =
      ⟨.word, name⟩ :: Token.leftParen.symbol :: Token.rightParen.symbol :: s) :
    compound? (items ++ rest) = some Level.function := by
  obtain ⟨lexeme, others, rfl, hlexeme, hothers⟩ := List.map_eq_cons_iff.mp hitems
  obtain ⟨second, others, rfl, hsecond, hothers⟩ := List.map_eq_cons_iff.mp hothers
  obtain ⟨third, others, rfl, hthird, _⟩ := List.map_eq_cons_iff.mp hothers
  have hkind : lexeme.kind = .word := congrArg Symbol.kind hlexeme
  have htext : lexeme.text = name := congrArg Symbol.text hlexeme
  have hsecondKind : second.kind = .op .leftParen := congrArg Symbol.kind hsecond
  have hthirdKind : third.kind = .op .rightParen := congrArg Symbol.kind hthird
  unfold mayStart at hname
  cases hreserved : Token.reserved? name with
  | none =>
      simp [compound?, startsFunction, Lexeme.reserved?, hkind, htext, hreserved, hsecondKind,
        hthirdKind]
  | some token =>
      have htoken : token = .inWord := by simpa [hreserved] using hname
      subst htoken
      simp [compound?, startsFunction, Lexeme.reserved?, hkind, htext, hreserved, hsecondKind,
        hthirdKind, Token.neverStarts]

theorem atRoom_command (room : Nat) :
    ∃ below, (Level.atRoom room).command = commandOn below (Level.atRoom room).program := by
  cases room with
  | zero => exact ⟨none, rfl⟩
  | succ room => exact ⟨some (Level.atRoom room), rfl⟩

/-- A tree is read in every place of the grammar that it fits. -/
def ReadsFitting (f : List Node → List Node) (n : Node) : Prop :=
  ∀ (room : Nat) (rank : Rank), n.nesting ≤ room → n.Fits rank →
    Piece.ForWords (Node.Rereads f) n.layout → Reads (Level.atRoom room).command f rank n

theorem ReadsFitting.statements {nodes : List Node} {room : Nat}
    (h : ∀ n ∈ nodes, ReadsFitting f n) (hroom : Node.nestings nodes ≤ room)
    (hfits : Node.AllFit nodes)
    (hwords : ∀ n ∈ nodes, Piece.ForWords (Node.Rereads f) n.layout) :
    ∀ n ∈ nodes, ReadsStatement (Level.atRoom room).command f n := by
  intro n hn
  exact h n hn room .statement (Node.nestings_le_iff.mp hroom n hn) (Node.allFit_iff.mp hfits n hn)
    (hwords n hn)

theorem word_readAs {n : Node} {room : Nat} (hn : n.IsWord) (hroom : n.nesting ≤ room)
    (hwords : Piece.ForWords (Node.Rereads f) n.layout) :
    n.ReadAs (Level.atRoom room).program f := by
  cases n <;> first | exact hn.elim | exact (hwords false _ (by simp [Node.layout])).1 room hroom

theorem argument_wordsReadAs {n : Node} {room : Nat} (hn : n.IsArgument) (hroom : n.nesting ≤ room)
    (hwords : Piece.ForWords (Node.Rereads f) n.layout) :
    Piece.WordsReadAs (Level.atRoom room).program f n.layout := by
  intro opensArm word hmem
  refine (hwords opensArm word hmem).1 room (Nat.le_trans ?_ hroom)
  cases n with
  | word parts =>
      have hword : word = .word parts := by simp_all [Node.layout]
      exact Nat.le_of_eq (congrArg Node.nesting hword)
  | redirection descriptor op target =>
      obtain ⟨_, _, htarget⟩ := hn
      cases target <;> first | exact htarget.elim | skip
      cases descriptor <;> simp_all [Node.layout, Node.nesting]
  | _ => exact hn.elim

/-- A simple command is read where the texts of its words are. -/
theorem readsCommand_simple {args : List Node} {room : Nat} (hargs : Node.Arguments args)
    (hwords : ∀ n ∈ args, Piece.WordsReadAs (Level.atRoom room).program f n.layout) :
    ReadsCommand (Level.atRoom room).command f (.command args false) := by
  obtain ⟨below, hcommand⟩ := atRoom_command room
  have hread := leads_command_simple below hargs hwords
  have hsymbols : Piece.symbols (Node.command args false).layout =
      args.flatMap (fun n => Piece.symbols n.layout) := by
    rw [Node.layout, Piece.symbols_append, Piece.symbols_layouts rfl]
    simp
  rw [ReadsCommand, hcommand, hsymbols]
  simpa [Node.mapWords] using hread

theorem reads_simple {args : List Node} {room : Nat} (hroom : Node.nestings args ≤ room)
    (hargs : Node.Arguments args)
    (hwords : ∀ n ∈ args, Piece.ForWords (Node.Rereads f) n.layout) :
    ReadsCommand (Level.atRoom room).command f (.command args false) :=
  readsCommand_simple hargs fun n hn =>
    argument_wordsReadAs (hargs.2.1 n hn) (Node.nestings_le_iff.mp hroom n hn) (hwords n hn)

theorem reads_command {args : List Node} {background : Bool} :
    ReadsFitting f (.command args background) := by
  intro room rank hroom hfits hwords
  obtain ⟨hrank, hargs⟩ := hfits
  have hsimple := reads_simple hroom hargs ((Piece.forWords_command args background).mp hwords)
  have hstarts : (Node.command args false).Starts :=
    Node.Fits.starts (⟨by simp, hargs⟩ : (Node.command args false).Fits .statement)
  cases background with
  | false => exact hsimple.reads hstarts rank
  | true =>
      obtain rfl := hrank rfl
      exact .inr ⟨args, rfl, hstarts, hsimple.pipeline.list⟩

/-- A compound command is read where it is read one level further down. -/
theorem readsFitting_of_compound {n : Node} {token : Token} {compound : Level → Grammar Node}
    (htoken : opened? token = some compound)
    (hsymbols : ∃ s, Piece.symbols n.layout = token.symbol :: s) (hnesting : 0 < n.nesting)
    (h : ∀ room rank, n.nesting ≤ room + 1 → n.Fits rank →
      Piece.ForWords (Node.Rereads f) n.layout →
      Leads (compound (Level.atRoom room)) (Piece.symbols n.layout) (pure (n.mapWords f)) always) :
    ReadsFitting f n := by
  intro room rank hroom hfits hwords
  cases room with
  | zero => omega
  | succ room =>
      exact (readsCommand_compound htoken hsymbols (h room rank hroom hfits hwords)).reads
        hfits.starts rank

theorem reads_subshell {body : List Node} (ih : ∀ n ∈ body, ReadsFitting f n) :
    ReadsFitting f (.subshell body) := by
  refine readsFitting_of_compound rfl ⟨_, rfl⟩ (Nat.succ_pos _) ?_
  intro room rank hroom hfits hwords
  obtain ⟨hne, hbody⟩ := hfits
  exact leads_subshell hne (ReadsFitting.statements ih (Nat.le_of_succ_le_succ hroom) hbody
    ((Piece.forWords_subshell body).mp hwords))

theorem reads_group {body : List Node} (ih : ∀ n ∈ body, ReadsFitting f n) :
    ReadsFitting f (.group body) := by
  refine readsFitting_of_compound rfl ⟨_, rfl⟩ (Nat.succ_pos _) ?_
  intro room rank hroom hfits hwords
  obtain ⟨hne, hbody⟩ := hfits
  exact leads_group hne (ReadsFitting.statements ih (Nat.le_of_succ_le_succ hroom) hbody
    ((Piece.forWords_group body).mp hwords))

theorem reads_whileLoop {test : Node} {body : List Node} (ihtest : ReadsFitting f test)
    (ih : ∀ n ∈ body, ReadsFitting f n) : ReadsFitting f (.whileLoop test body) := by
  refine readsFitting_of_compound rfl ⟨_, rfl⟩ (Nat.succ_pos _) ?_
  intro room rank hroom hfits hwords
  obtain ⟨htest, hne, hbody⟩ := hfits
  obtain ⟨htestWords, hbodyWords⟩ := (Piece.forWords_whileLoop test body).mp hwords
  simp only [Node.nesting, Nat.add_le_add_iff_right, Nat.max_le] at hroom
  exact leads_whileLoop (ihtest room .statement hroom.1 htest htestWords) hne
    (ReadsFitting.statements ih hroom.2 hbody hbodyWords)

theorem reads_forLoop {name : String} {words body : List Node}
    (ih : ∀ n ∈ body, ReadsFitting f n) : ReadsFitting f (.forLoop name words body) := by
  refine readsFitting_of_compound rfl ⟨_, rfl⟩ (Nat.succ_pos _) ?_
  intro room rank hroom hfits hwords
  obtain ⟨hname, hvalues, hne, hbody⟩ := hfits
  obtain ⟨hvalueWords, hbodyWords⟩ := (Piece.forWords_forLoop name words body).mp hwords
  simp only [Node.nesting, Nat.add_le_add_iff_right, Nat.max_le] at hroom
  exact leads_forLoop hname
    (fun n hn => word_readAs (hvalues n hn) (Node.nestings_le_iff.mp hroom.1 n hn)
      (hvalueWords n hn))
    hne (ReadsFitting.statements ih hroom.2 hbody hbodyWords)

theorem reads_conditional {test : Node} {body : List Node} {elifs : List Branch}
    {otherwise : List Node} (ihtest : ReadsFitting f test) (ihbody : ∀ n ∈ body, ReadsFitting f n)
    (ihelifs : ∀ t b, Branch.mk t b ∈ elifs → ReadsFitting f t ∧ ∀ n ∈ b, ReadsFitting f n)
    (ihotherwise : ∀ n ∈ otherwise, ReadsFitting f n) :
    ReadsFitting f (.conditional test body elifs otherwise) := by
  refine readsFitting_of_compound rfl ⟨_, symbols_conditional test body elifs otherwise⟩
    (Nat.succ_pos _) ?_
  intro room rank hroom hfits hwords
  obtain ⟨htest, ⟨hne, hbody⟩, helifs, hotherwise⟩ := hfits
  obtain ⟨htestWords, hbodyWords, helifsWords, hotherwiseWords⟩ :=
    (Piece.forWords_conditional test body elifs otherwise).mp hwords
  simp only [Node.nesting, Nat.add_le_add_iff_right, Nat.max_le] at hroom
  obtain ⟨⟨hroomTest, hroomBody⟩, hroomElifs, hroomOtherwise⟩ := hroom
  have hbranches : ∀ t b, Branch.mk t b ∈ elifs →
      ReadsStatement (Level.atRoom room).command f t ∧ b ≠ [] ∧
        ∀ n ∈ b, ReadsStatement (Level.atRoom room).command f n := by
    intro t b hmem
    obtain ⟨ht, hbne, hb⟩ := Branch.allFit_iff.mp helifs t b hmem
    obtain ⟨htRoom, hbRoom⟩ := Branch.nestings_le_iff.mp hroomElifs t b hmem
    obtain ⟨htWords, hbWords⟩ := helifsWords t b hmem
    exact ⟨(ihelifs t b hmem).1 room .statement htRoom ht htWords, hbne,
      ReadsFitting.statements (ihelifs t b hmem).2 hbRoom hb hbWords⟩
  exact leads_conditional (ihtest room .statement hroomTest htest htestWords) hne
    (ReadsFitting.statements ihbody hroomBody hbody hbodyWords) hbranches
    (ReadsFitting.statements ihotherwise hroomOtherwise hotherwise hotherwiseWords)

theorem reads_function {name : String} {body : Node} (ih : ReadsFitting f body) :
    ReadsFitting f (.function name body) := by
  intro room rank hroom hfits hwords
  have hstarts := hfits.starts
  obtain ⟨hname, hstart, hbody⟩ := hfits
  cases room with
  | zero => simp [Node.nesting] at hroom
  | succ room =>
      have hread := ih room .command (Nat.le_of_succ_le_succ hroom) hbody
        ((Piece.forWords_function name body).mp hwords)
      have hcommand : ReadsCommand (Level.atRoom (room + 1)).command f (.function name body) :=
        leads_command_compound (fun items rest => compound?_function hstart items rest)
          (leads_function hname hread hbody.starts)
      exact hcommand.reads hstarts rank

theorem reads_choice {subject : Node} {arms : List Arm}
    (ih : ∀ ps b, Arm.mk ps b ∈ arms → ∀ n ∈ b, ReadsFitting f n) :
    ReadsFitting f (.choice subject arms) := by
  refine readsFitting_of_compound rfl ⟨_, rfl⟩ (Nat.succ_pos _) ?_
  intro room rank hroom hfits hwords
  obtain ⟨hsubject, harms⟩ := hfits
  obtain ⟨hsubjectWords, harmsWords⟩ := (Piece.forWords_choice subject arms).mp hwords
  simp only [Node.nesting, Nat.add_le_add_iff_right, Nat.max_le] at hroom
  refine leads_choice (word_readAs hsubject hroom.1 hsubjectWords) (fun ps b hmem => ?_)
  obtain ⟨hne, hpatterns, hfits⟩ := Arm.allFit_iff.mp harms ps b hmem
  obtain ⟨hpatternRoom, hbodyRoom⟩ := Arm.nestings_le_iff.mp hroom.2 ps b hmem
  have hpatternRooms := Node.nestings_le_iff.mp hpatternRoom
  obtain ⟨hpatternWords, hbodyWords⟩ := harmsWords ps b hmem
  cases ps with
  | nil => exact absurd rfl hne
  | cons first others =>
      obtain ⟨⟨hfirst, hesac⟩, hothers⟩ := hpatternWords
      exact ⟨hfirst room (hpatternRooms first (by simp)),
        fun n hn => word_readAs (hpatterns n (by simp [hn])) (hpatternRooms n (by simp [hn]))
          (hothers n hn),
        hesac rfl, ReadsFitting.statements (ih _ b hmem) hbodyRoom hfits hbodyWords⟩

theorem reads_binary {op : Token} {left right : Node} (ihleft : ReadsFitting f left)
    (ihright : ReadsFitting f right) : ReadsFitting f (.binary op left right) := by
  intro room rank hroom hfits hwords
  have hstarts := hfits.starts
  simp only [Node.nesting, Nat.max_le] at hroom
  obtain ⟨hleftWords, hrightWords⟩ := (Piece.forWords_binary op left right).mp hwords
  by_cases hop : op = .pipe
  · subst hop
    obtain ⟨hrank, hleft, hright⟩ := hfits
    have hpipeline : ReadsPipeline (Level.atRoom room).command f (.binary .pipe left right) :=
      ReadsPipeline.binary (ihleft room .pipeline hroom.1 hleft hleftWords)
        (ihright room .command hroom.2 hright hrightWords) hright.starts
    cases rank with
    | command => exact absurd rfl hrank
    | pipeline => exact hpipeline
    | list => exact hpipeline.list
    | statement => exact .inl ⟨hstarts, hpipeline.list⟩
  · have hlistFits : (op = .andAnd ∨ op = .orOr) ∧ (rank = .list ∨ rank = .statement) ∧
        left.Fits .list ∧ right.Fits .pipeline := by
      cases op <;> first | exact hfits | exact absurd rfl hop
    obtain ⟨hoperator, hrank, hleft, hright⟩ := hlistFits
    have hlist : ReadsList (Level.atRoom room).command f (.binary op left right) :=
      ReadsList.binary hoperator (ihleft room .list hroom.1 hleft hleftWords)
        (ihright room .pipeline hroom.2 hright hrightWords) hright.starts
    rcases hrank with rfl | rfl
    · exact hlist
    · exact .inl ⟨hstarts, hlist⟩

/-- Every tree is read in the places of the grammar that it fits. -/
theorem reads (n : Node) : ReadsFitting f n := by
  induction n using Node.induction with
  | command args background _ => exact reads_command
  | subshell body ih => exact reads_subshell ih
  | group body ih => exact reads_group ih
  | conditional test body elifs otherwise ihtest ihbody ihelifs ihotherwise =>
      exact reads_conditional ihtest ihbody ihelifs ihotherwise
  | whileLoop test body ihtest ih => exact reads_whileLoop ihtest ih
  | forLoop name words body _ ih => exact reads_forLoop ih
  | binary op left right ihleft ihright => exact reads_binary ihleft ihright
  | function name body ih => exact reads_function ih
  | choice subject arms _ ih => exact reads_choice (fun ps b h => (ih ps b h).2)
  | _ =>
      intro room rank hroom hfits
      exact hfits.elim

/-- A whole program is read from its symbols where its statements are. -/
theorem reads_statements {command : Grammar Node} {program : Program}
    (hstatements : ∀ n ∈ program, ReadsStatement command f n) {items : List Lexeme}
    (hitems : items.map Lexeme.symbol = Piece.symbols program.layout) (finish : Position) :
    wholeProgram command ⟨items, finish⟩ = .ok (program.map (Node.mapWords f), ⟨[], finish⟩) := by
  have hstops : ∀ t ∈ ([] : List Token), t.closes = true := by simp
  have hlist := leads_statementList_open hstops hstatements items [] finish hitems (.inl rfl)
  rw [List.append_nil] at hlist
  exact bind_ok hlist

theorem reads_program {program : Program} {room : Nat} (hroom : Node.nestings program ≤ room)
    (hfits : Node.AllFit program) (hwords : Piece.ForWords (Node.Rereads f) program.layout)
    {items : List Lexeme} (hitems : items.map Lexeme.symbol = Piece.symbols program.layout)
    (finish : Position) :
    wholeProgram (Level.atRoom room).command ⟨items, finish⟩ =
      .ok (program.map (Node.mapWords f), ⟨[], finish⟩) :=
  reads_statements (ReadsFitting.statements (fun n _ => reads n) hroom hfits
    ((Piece.forWords_list program).mp hwords)) hitems finish

end Grammar

end Conch.Syntax
