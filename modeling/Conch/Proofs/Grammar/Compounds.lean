import Conch.Proofs.Grammar.Statements
import Mathlib.Data.List.Basic

/-!
# Reading compound commands

Every compound command reads the symbols of its own rendering, given that the level
below reads the statements and words inside it.  The bodies of a construct are closed
by a semicolon before the reserved word that goes on; only a subshell and the arms of
a choice end their bodies without one.
-/

namespace Conch.Syntax.Grammar

variable {level : Level} {f : List Node → List Node} {test body : Node} {nodes : List Node}

theorem atStop_symbol {stops : List Token} {token : Token} (hmem : token ∈ stops)
    (hkind : token.symbol.kind ≠ .newline) (rest : List Symbol) (x : Option Symbol) :
    atStop stops ((token.symbol :: rest).head?.or x) := by
  simp [atStop, hmem, hkind]

theorem leads_expect_cons {α : Type} {token : Token} {next : Unit → Grammar α} {m : Grammar α}
    {s : List Symbol} {G : Option Symbol → Prop} (h : Leads (next ()) s m G) :
    Leads (expect token >>= next) (token.symbol :: s) m G :=
  (leads_expect token).bind h (fun _ _ => trivial)

theorem leads_expect_last {α : Type} {token : Token} {a : α} :
    Leads (do
        expect token
        return a) [token.symbol] (pure a) always :=
  (leads_expect token).bindPure rfl

theorem leads_subshell (hne : nodes ≠ [])
    (hnodes : ∀ n ∈ nodes, ReadsStatement level.command f n) :
    Leads level.subshell (Piece.symbols (Node.subshell nodes).layout)
      (pure ((Node.subshell nodes).mapWords f)) always := by
  simp only [Node.layout, Node.mapWords, Node.mapAllWords_eq, Piece.symbols_mark,
    Piece.symbols_append, Piece.symbols_nil]
  refine leads_expect_cons ?_
  exact (leads_statementBody_open (by decide) hne hnodes).bind leads_expect_last
    (fun x _ => .inr ⟨.rightParen, by simp, .inl rfl, rfl⟩)

theorem leads_group (hne : nodes ≠ [])
    (hnodes : ∀ n ∈ nodes, ReadsStatement level.command f n) :
    Leads level.group (Piece.symbols (Node.group nodes).layout)
      (pure ((Node.group nodes).mapWords f)) always := by
  simp only [Node.layout, Node.mapWords, Node.mapAllWords_eq, Piece.symbols_mark,
    Piece.symbols_append, Piece.symbols_nil, Piece.symbols_blank, Piece.symbols_separator]
  refine leads_expect_cons ?_
  exact (leads_statementBody_closed (by decide) hne hnodes).bind leads_expect_last
    (fun x _ => atStop_symbol (by simp) (by decide) [] x)

theorem leads_whileLoop (htest : ReadsStatement level.command f test) (hne : nodes ≠ [])
    (hnodes : ∀ n ∈ nodes, ReadsStatement level.command f n) :
    Leads level.whileLoop (Piece.symbols (Node.whileLoop test nodes).layout)
      (pure ((Node.whileLoop test nodes).mapWords f)) always := by
  simp only [Node.layout, Node.mapWords, Node.mapAllWords_eq, Piece.symbols_mark,
    Piece.symbols_append, Piece.symbols_nil, Piece.symbols_blank, Piece.symbols_separator]
  refine leads_expect_cons ?_
  refine (leads_condition rfl htest).bind ?_ (fun x _ => atStop_symbol (by simp) (by decide) _ x)
  refine leads_expect_cons ?_
  exact (leads_statementBody_closed (by decide) hne hnodes).bind leads_expect_last
    (fun x _ => atStop_symbol (by simp) (by decide) [] x)

/-! ## Conditionals -/

/-- The symbols of a branch with the semicolon that closes it. -/
def branchSymbols : Branch → List Symbol
  | .mk test body =>
      Token.elifWord.symbol :: (Piece.symbols test.layout ++ [Token.semicolon.symbol] ++
        Token.thenWord.symbol ::
          (Piece.symbols (Node.layouts Piece.separator body) ++ [Token.semicolon.symbol]))

theorem symbols_branches (branches : List Branch) (rest : List Symbol) :
    Piece.symbols (Branch.layouts branches) ++ Token.semicolon.symbol :: rest =
      Token.semicolon.symbol :: (branches.flatMap branchSymbols ++ rest) := by
  induction branches with
  | nil => rfl
  | cons branch others ih =>
      obtain ⟨test, body⟩ := branch
      simp [Branch.layouts, Branch.layout, ih, branchSymbols]

theorem leads_elifBranch (htest : ReadsStatement level.command f test) (hne : nodes ≠ [])
    (hnodes : ∀ n ∈ nodes, ReadsStatement level.command f n) :
    Leads level.elifBranch (branchSymbols (.mk test nodes))
      (pure (some (.mk (test.mapWords f) (nodes.map (Node.mapWords f)))))
      (atStop [.elifWord, .elseWord, .fiWord]) := by
  refine (leads_atToken .elifWord true).look ?_ (fun x _ => by simp [branchSymbols])
  refine (leads_advance Token.elifWord.symbol).bind ?_ (fun _ _ => trivial)
  refine (leads_condition rfl htest).bind ?_ (fun x _ => atStop_symbol (by simp) (by decide) _ x)
  refine leads_expect_cons ?_
  exact (leads_statementBody_closed (by decide) hne hnodes).bindPure rfl

/-- The front of the symbols after the branches of a conditional. -/
def afterBranches (x : Option Symbol) : Prop :=
  x = some Token.elseWord.symbol ∨ x = some Token.fiWord.symbol

theorem collects_branches {branches : List Branch}
    (h : ∀ t b, Branch.mk t b ∈ branches → ReadsStatement level.command f t ∧ b ≠ [] ∧
      ∀ n ∈ b, ReadsStatement level.command f n) :
    Collects level.elifBranch afterBranches (branches.flatMap branchSymbols)
      (Branch.mapAllWords f branches) := by
  induction branches with
  | nil =>
      refine .nil ((leads_atToken .elifWord false).look (Leads.refl _ _) ?_)
      rintro x (rfl | rfl) <;> decide
  | cons branch rest ih =>
      obtain ⟨test, body⟩ := branch
      obtain ⟨htest, hne, hbody⟩ := h test body (by simp)
      simp only [List.flatMap_cons, Branch.mapAllWords, Node.mapAllWords_eq]
      refine .cons (leads_elifBranch htest hne hbody) (by simp [branchSymbols]) ?_
        (ih (fun t b hb => h t b (by simp [hb])))
      intro x hx
      cases rest with
      | nil => rcases hx with rfl | rfl <;> exact atStop_symbol (by simp) (by decide) [] none
      | cons second _ =>
          obtain ⟨_, _⟩ := second
          exact atStop_symbol (by simp) (by decide) _ x

/-- The symbols of the alternative of a conditional with the semicolon that closes it. -/
def otherwiseSymbols : List Node → List Symbol
  | [] => []
  | statement :: rest =>
      Token.elseWord.symbol :: (Piece.symbols (Node.layouts Piece.separator (statement :: rest)) ++
        [Token.semicolon.symbol])

theorem leads_otherwise {next : List Node → Grammar Node} {m : Grammar Node} {s : List Symbol}
    {G : Option Symbol → Prop} (hnodes : ∀ n ∈ nodes, ReadsStatement level.command f n)
    (hnext : Leads (next (nodes.map (Node.mapWords f))) (Token.fiWord.symbol :: s) m G) :
    Leads (do
        if ← atToken .elseWord then do
          advance
          next (← statementBody level.command [.fiWord])
        else next []) (otherwiseSymbols nodes ++ Token.fiWord.symbol :: s) m G := by
  cases nodes with
  | nil => exact (leads_atToken .elseWord false).look hnext (fun x _ => rfl)
  | cons statement rest =>
      refine (leads_atToken .elseWord true).look ?_ (fun x _ => by simp [otherwiseSymbols])
      refine (leads_advance Token.elseWord.symbol).bind ?_ (fun _ _ => trivial)
      exact (leads_statementBody_closed (by decide) (by simp) hnodes).bind hnext
        (fun x _ => atStop_symbol (by simp) (by decide) s x)

theorem symbols_conditional (test : Node) (nodes : List Node) (elifs : List Branch)
    (otherwise : List Node) :
    Piece.symbols (Node.conditional test nodes elifs otherwise).layout =
      Token.ifWord.symbol :: (Piece.symbols test.layout ++ [Token.semicolon.symbol] ++
        Token.thenWord.symbol ::
          (Piece.symbols (Node.layouts Piece.separator nodes) ++ [Token.semicolon.symbol] ++
            (elifs.flatMap branchSymbols ++
              (otherwiseSymbols otherwise ++ [Token.fiWord.symbol])))) := by
  cases otherwise with
  | nil => simp [Node.layout, otherwiseSymbols, symbols_branches]
  | cons statement rest =>
      simp [Node.layout, otherwiseSymbols, symbols_branches, Node.layouts]

theorem leads_conditional {elifs : List Branch} {otherwise : List Node}
    (htest : ReadsStatement level.command f test) (hne : nodes ≠ [])
    (hnodes : ∀ n ∈ nodes, ReadsStatement level.command f n)
    (helifs : ∀ t b, Branch.mk t b ∈ elifs → ReadsStatement level.command f t ∧ b ≠ [] ∧
      ∀ n ∈ b, ReadsStatement level.command f n)
    (hotherwise : ∀ n ∈ otherwise, ReadsStatement level.command f n) :
    Leads level.conditional
      (Piece.symbols (Node.conditional test nodes elifs otherwise).layout)
      (pure ((Node.conditional test nodes elifs otherwise).mapWords f)) always := by
  rw [symbols_conditional]
  simp only [Node.mapWords, Node.mapAllWords_eq]
  refine leads_expect_cons ?_
  refine (leads_condition rfl htest).bind ?_ (fun x _ => atStop_symbol (by simp) (by decide) _ x)
  refine leads_expect_cons ?_
  refine (leads_statementBody_closed (by decide) hne hnodes).bind ?_ ?_
  · refine (leads_many (collects_branches helifs)).bind
      (leads_otherwise hotherwise leads_expect_last) (fun x _ => ?_)
    cases otherwise with
    | nil => exact .inr rfl
    | cons _ _ => exact .inl rfl
  · intro x _
    rcases elifs with _ | ⟨⟨_, _⟩, _⟩
    · cases otherwise <;> exact atStop_symbol (by simp) (by decide) _ x
    · exact atStop_symbol (by simp) (by decide) _ x

/-! ## Loops over words and functions -/

theorem leads_words {words : List Node} (hwords : ∀ n ∈ words, n.ReadAs level.program f) :
    Leads (Syntax.words level.program) (words.flatMap (fun n => [⟨.word, n.render⟩]))
      (pure (words.map (Node.mapWords f))) (endOr (fun s => s.kind != .word)) := by
  refine leads_many ?_
  induction words with
  | nil =>
      refine .nil (leads_current_front (fun front hfront => ?_))
      cases front with
      | none => exact Leads.refl _ _
      | some lexeme =>
          have hkind : (lexeme.kind == LexemeKind.word) = false := by
            simpa [Lexeme.symbol] using hfront
          simp only [hkind]
          exact Leads.refl _ _
  | cons word rest ih =>
      have hword := hwords word (by simp)
      refine .cons (F := always) ?_ (by simp) (fun _ _ => trivial)
        (ih (fun n hn => hwords n (by simp [hn])))
      refine leads_of_cons (fun lexeme rest finish hlexeme => ?_)
      have hkind : (lexeme.kind == LexemeKind.word) = true := by
        have hkind : lexeme.kind = .word := congrArg Symbol.kind hlexeme
        simp [hkind]
      have hrun : (if lexeme.kind == LexemeKind.word then do
            advance
            return some (← wordOf level.program lexeme)
          else return none : Grammar (Option Node)) ⟨lexeme :: rest, finish⟩ =
            .ok (some (word.mapWords f), ⟨rest, finish⟩) := by
        rw [if_pos hkind]
        exact bind_ok (leads_wordOf hword lexeme hlexeme rest finish)
      exact hrun

theorem leads_loopName {name : String} (hname : isName name = true) :
    Leads Level.loopName [⟨.word, name⟩] (pure name) always := by
  refine leads_current (fun lexeme hlexeme => ?_)
  have hkind : lexeme.kind = .word := congrArg Symbol.kind hlexeme
  have htext : lexeme.text = name := congrArg Symbol.text hlexeme
  simp only [hkind, htext, hname]
  exact (leads_advance _).bindPure rfl

theorem leads_endOfWords : Leads Level.endOfWords [Token.semicolon.symbol] (pure ()) always := by
  refine leads_current (fun lexeme hlexeme => ?_)
  have hkind : lexeme.kind = .op .semicolon := congrArg Symbol.kind hlexeme
  simp only [Option.map_some, hkind]
  exact leads_advance _

theorem leads_forLoop {name : String} {words : List Node} (hname : isName name = true)
    (hwords : ∀ n ∈ words, n.ReadAs level.program f) (hne : nodes ≠ [])
    (hnodes : ∀ n ∈ nodes, ReadsStatement level.command f n) :
    Leads level.forLoop (Piece.symbols (Node.forLoop name words nodes).layout)
      (pure ((Node.forLoop name words nodes).mapWords f)) always := by
  have hsymbols : words.flatMap (fun n => Piece.symbols n.layout) =
      words.flatMap (fun n => [⟨.word, n.render⟩]) := by
    refine List.flatMap_congr (fun n hn => ?_)
    obtain ⟨parts, rfl, _⟩ := hwords n hn
    rfl
  simp only [Node.layout, Node.mapWords, Node.mapAllWords_eq, Piece.symbols_mark,
    Piece.symbols_append, Piece.symbols_nil, Piece.symbols_blank, Piece.symbols_separator,
    Piece.symbols_name, @Piece.symbols_layouts [.blank] rfl, hsymbols,
    List.append_assoc]
  refine leads_expect_cons ?_
  refine (leads_loopName hname).bind ?_ (fun _ _ => trivial)
  refine leads_skipNewlines.look ?_ (fun _ _ => rfl)
  refine leads_expect_cons ?_
  refine (leads_words hwords).bind ?_ (fun _ _ => rfl)
  refine leads_endOfWords.bind ?_ (fun _ _ => trivial)
  refine leads_skipNewlines.look ?_ (fun _ _ => rfl)
  refine leads_expect_cons ?_
  rw [← List.append_assoc]
  exact (leads_statementBody_closed (by decide) hne hnodes).bind leads_expect_last
    (fun x _ => atStop_symbol (by simp) (by decide) [] x)

theorem leads_function {name : String} (hname : isName name = true)
    (hbody : ReadsCommand level.command f body) (hstarts : body.Starts) :
    Leads level.function (Piece.symbols (Node.function name body).layout)
      (pure ((Node.function name body).mapWords f)) (endOr Symbol.endsCommand) := by
  obtain ⟨s, t, hsymbols, hs⟩ := hstarts
  have hnewline : s.kind ≠ .newline := by simp_all [Symbol.starts]
  simp only [Node.layout, Node.mapWords, Piece.symbols_name, Piece.symbols_mark,
    Piece.symbols_blank]
  refine leads_current (fun lexeme hlexeme => ?_)
  have htext : lexeme.text = name := congrArg Symbol.text hlexeme
  refine (leads_advance _).bind ?_ (fun _ _ => trivial)
  simp only [htext, hname]
  refine leads_expect_cons (leads_expect_cons ?_)
  refine leads_skipNewlines.look ?_ (fun x _ => by simp [hsymbols, hnewline])
  exact hbody.bindPure rfl

/-! ## Choices -/

theorem leads_skipEmptyEnd_take :
    Leads skipEmptyEnd [Token.semicolon.symbol] (pure ())
      (fun x => x = some Token.esacWord.symbol) := by
  intro items rest finish hitems hrest
  obtain ⟨lexeme, rfl, hlexeme⟩ := List.map_eq_singleton_iff.mp hitems
  have hsemicolon := atOperator_run .semicolon (lexeme :: rest) finish
  have hesac : nextIs .esacWord ⟨lexeme :: rest, finish⟩ = .ok (true, ⟨lexeme :: rest, finish⟩) := by
    have hnext : rest.head?.any (fun lexeme => lexeme.token? == some .esacWord) = true := by
      cases rest with
      | nil => simp at hrest
      | cons second _ =>
          have hsecond : second.symbol = Token.esacWord.symbol := by simpa using hrest
          simp [Lexeme.token?_eq, hsecond]
    change Except.ok (rest.head?.any _, _) = _
    rw [hnext]
  rw [frontOf_cons, hlexeme] at hsemicolon
  rw [List.singleton_append, skipEmptyEnd, bind_ok hsemicolon, bind_ok hesac]
  rfl

theorem leads_skipEmptyEnd_none :
    Leads skipEmptyEnd [] (pure ()) (endOr (fun s => s.kind != .op .semicolon)) := by
  refine leads_of_front (fun rest finish h => ?_)
  have hsemicolon := atOperator_run .semicolon rest finish
  have hfront : (frontOf rest).any (fun s => s.kind == .op .semicolon) = false := by
    cases hx : frontOf rest with
    | none => rfl
    | some s => simp_all
  have hesac : nextIs .esacWord ⟨rest, finish⟩ = .ok (_, ⟨rest, finish⟩) := rfl
  rw [hfront] at hsemicolon
  rw [skipEmptyEnd, bind_ok hsemicolon, bind_ok hesac]
  rfl

/-- The symbols of the patterns of an arm and the parenthesis after them. -/
def patternSymbols (first : Node) (others : List Node) : List Symbol :=
  ⟨.word, first.render⟩ ::
    (others.flatMap (fun n => [Token.pipe.symbol, ⟨.word, n.render⟩]) ++ [Token.rightParen.symbol])

theorem symbols_arm {first : Node} {others body : List Node} (hothers : ∀ n ∈ others, n.IsWord) :
    Piece.symbols (Arm.mk (first :: others) body).layout =
      patternSymbols first others ++ Piece.symbols (Node.layouts Piece.separator body) := by
  have hmore : Piece.symbols (Node.layoutMore [.blank, .mark .pipe, .blank] others) =
      others.flatMap (fun n => [Token.pipe.symbol, ⟨.word, n.render⟩]) := by
    induction others with
    | nil => rfl
    | cons other rest ih =>
        have hother : Piece.symbols other.layout = [⟨.word, other.render⟩] := by
          have hword := hothers other (by simp)
          cases other <;> first | rfl | exact hword.elim
        simp [Node.layoutMore, hother, ih (fun n hn => hothers n (by simp [hn]))]
  simp [Arm.layout, hmore, patternSymbols]

theorem leads_furtherPatterns {others : List Node} (h : ∀ n ∈ others, n.ReadAs level.program f) :
    Leads (many level.furtherPattern)
      (others.flatMap (fun n => [Token.pipe.symbol, ⟨.word, n.render⟩]))
      (pure (others.map (Node.mapWords f))) (fun x => x = some Token.rightParen.symbol) := by
  refine leads_many ?_
  induction others with
  | nil =>
      refine .nil ((leads_atOperator .pipe false).look (Leads.refl _ _) ?_)
      rintro x rfl
      rfl
  | cons other rest ih =>
      refine .cons (F := always) (s := [Token.pipe.symbol, ⟨.word, other.render⟩]) ?_ (by simp)
        (fun _ _ => trivial) (ih (fun n hn => h n (by simp [hn])))
      refine (leads_atOperator .pipe true).look ?_ (fun _ _ => rfl)
      refine Leads.bind (s := [Token.pipe.symbol]) (leads_advance _) ?_ (fun _ _ => trivial)
      exact (leads_anyWord (h other (by simp))).bindPure rfl

/-- An arm is read by its patterns, an empty end and its statements. -/
theorem leads_arm {first : Node} {others body : List Node} {s t : List Symbol}
    {F G : Option Symbol → Prop} (hfirst : first.ReadAs level.program f)
    (hothers : ∀ n ∈ others, n.ReadAs level.program f)
    (hskip : Leads skipEmptyEnd s (pure ()) F)
    (hbody : Leads (statementList level.command [.doubleSemicolon, .esacWord]) t (pure body) G)
    (hnext : ∀ x, G x → F (t.head?.or x)) :
    Leads level.arm (patternSymbols first others ++ (s ++ t))
      (pure (.mk (first.mapWords f :: others.map (Node.mapWords f)) body)) G := by
  refine (leads_atOperator .leftParen false).look ?_ (fun _ _ => rfl)
  simp only [patternSymbols, List.cons_append, List.append_assoc]
  refine Leads.bind (s := [⟨.word, first.render⟩]) (leads_anyWord hfirst) ?_ (fun _ _ => trivial)
  refine (leads_furtherPatterns hothers).bind ?_ (fun _ _ => rfl)
  exact leads_expect_cons (hskip.bind (hbody.bindPure rfl) hnext)

theorem layouts_front {statement : Node} {rest : List Node} (h : statement.Starts) :
    ∃ s t, Piece.symbols (Node.layouts Piece.separator (statement :: rest)) = s :: t ∧
      s.starts = true := by
  obtain ⟨s, t, hsymbols, hs⟩ := h
  refine ⟨s, t ++ Piece.symbols (Node.layoutMore Piece.separator rest), ?_, hs⟩
  rw [Node.layouts, Piece.symbols_append, hsymbols, List.cons_append]

theorem atToken_esac_false {first : Node} (others : List Node) (hesac : first.render ≠ "esac")
    (s : List Symbol) (x : Option Symbol) :
    (((patternSymbols first others ++ s).head?.or x).any
      (fun s => s.token? == some Token.esacWord)) = false := by
  have htoken : Token.reserved? first.render ≠ some .esacWord := by
    intro h
    exact hesac (Token.reserved?_text h).symm
  simpa [patternSymbols, Symbol.token?] using htoken

section Arms

variable {first : Node} {others body : List Node} (hfirst : first.ReadAs level.program f)
  (hothers : ∀ n ∈ others, n.ReadAs level.program f)
  (hbody : ∀ n ∈ body, ReadsStatement level.command f n)

include hfirst hothers hbody

theorem leads_arm_open :
    Leads level.arm
      (patternSymbols first others ++ Piece.symbols (Node.layouts Piece.separator body))
      (pure (.mk (first.mapWords f :: others.map (Node.mapWords f)) (body.map (Node.mapWords f))))
      (fun x => x = some Token.doubleSemicolon.symbol) := by
  have hstops : ∀ t ∈ [Token.doubleSemicolon, .esacWord], t.closes = true := by decide
  have hlist := (leads_statementList_open hstops hbody).weaken
    (G := fun x => x = some Token.doubleSemicolon.symbol)
    (fun x hx => .inr ⟨.doubleSemicolon, by simp, .inr rfl, hx⟩)
  refine leads_arm (s := []) (t := Piece.symbols (Node.layouts Piece.separator body)) hfirst
    hothers leads_skipEmptyEnd_none hlist ?_
  rintro x rfl
  cases body with
  | nil => decide
  | cons statement rest =>
      obtain ⟨s, t, hsymbols, hs⟩ := @layouts_front _ rest (hbody statement (by simp)).starts
      have hsemicolon : s.kind ≠ .op .semicolon := by simp_all [Symbol.starts]
      rw [hsymbols]
      simpa using hsemicolon

theorem leads_arm_closed :
    Leads level.arm
      (patternSymbols first others ++ (Piece.symbols (Node.layouts Piece.separator body) ++
        [Token.semicolon.symbol]))
      (pure (.mk (first.mapWords f :: others.map (Node.mapWords f)) (body.map (Node.mapWords f))))
      (fun x => x = some Token.esacWord.symbol) := by
  have hstops : ∀ t ∈ [Token.doubleSemicolon, .esacWord], t.closes = true := by decide
  have hstop : ∀ x, x = some Token.esacWord.symbol →
      atStop [.doubleSemicolon, .esacWord] x := by
    rintro x rfl
    exact atStop_symbol (by simp) (by decide) [] none
  cases body with
  | nil =>
      have hlist : Leads (statementList level.command [.doubleSemicolon, .esacWord]) []
          (pure []) (fun x => x = some Token.esacWord.symbol) :=
        (leads_statementList_closed hstops hbody).weaken hstop
      exact leads_arm (s := [Token.semicolon.symbol]) hfirst hothers leads_skipEmptyEnd_take hlist
        (fun x hx => hx)
  | cons statement rest =>
      obtain ⟨s, t, hsymbols, hs⟩ := @layouts_front _ rest (hbody statement (by simp)).starts
      have hsemicolon : s.kind ≠ .op .semicolon := by simp_all [Symbol.starts]
      have hlist := (leads_statementList_closed hstops hbody).weaken hstop
      rw [← symbols_layouts_closed (by simp)] at hlist
      refine leads_arm (s := []) hfirst hothers leads_skipEmptyEnd_none hlist ?_
      rintro x rfl
      rw [hsymbols]
      simpa using hsemicolon

variable (hesac : first.render ≠ "esac")

include hesac

/-- An arm before another one. -/
theorem leads_nextArm_open :
    Leads level.nextArm
      (patternSymbols first others ++ Piece.symbols (Node.layouts Piece.separator body) ++
        [Token.doubleSemicolon.symbol])
      (pure (some (.mk (first.mapWords f :: others.map (Node.mapWords f))
        (body.map (Node.mapWords f))))) always := by
  refine leads_skipNewlines.look ?_ (fun x _ => by simp [patternSymbols])
  refine (leads_atToken .esacWord false).look ?_ (fun x _ => ?_)
  · refine (leads_arm_open hfirst hothers hbody).bind ?_ (fun x _ => rfl)
    refine (leads_atOperator .doubleSemicolon true).look ?_ (fun _ _ => rfl)
    exact (leads_advance _).bindPure rfl
  · rw [List.append_assoc]
    exact atToken_esac_false others hesac _ x

/-- The last arm. -/
theorem leads_nextArm_last :
    Leads level.nextArm
      (patternSymbols first others ++ (Piece.symbols (Node.layouts Piece.separator body) ++
        [Token.semicolon.symbol]))
      (pure (some (.mk (first.mapWords f :: others.map (Node.mapWords f))
        (body.map (Node.mapWords f))))) (fun x => x = some Token.esacWord.symbol) := by
  refine leads_skipNewlines.look ?_ (fun x _ => by simp [patternSymbols])
  refine (leads_atToken .esacWord false).look ?_ (fun x _ => ?_)
  · refine (leads_arm_closed hfirst hothers hbody).bindEnd ?_ (fun x hx => hx)
    refine (leads_atOperator .doubleSemicolon false).look ?_ (by rintro x rfl; rfl)
    refine leads_skipNewlines.look ?_ (by rintro x rfl; decide)
    exact (leads_atToken .esacWord true).look (Leads.refl _ _) (by rintro x rfl; rfl)
  · exact atToken_esac_false others hesac _ x

end Arms

/-- What the arms of a choice need to be read. -/
def ReadsArm (level : Level) (f : List Node → List Node) : List Node → List Node → Prop
  | [], _ => False
  | first :: others, body =>
      first.ReadAs level.program f ∧ (∀ n ∈ others, n.ReadAs level.program f) ∧
        first.render ≠ "esac" ∧ ∀ n ∈ body, ReadsStatement level.command f n

theorem symbols_readsArm {patterns body : List Node} (h : ReadsArm level f patterns body) :
    ∃ first others, patterns = first :: others ∧
      Piece.symbols (Arm.mk patterns body).layout =
        patternSymbols first others ++ Piece.symbols (Node.layouts Piece.separator body) := by
  cases patterns with
  | nil => exact h.elim
  | cons first others =>
      refine ⟨first, others, rfl, symbols_arm (fun n hn => ?_)⟩
      obtain ⟨parts, rfl, _⟩ := h.2.1 n hn
      trivial

theorem collects_arms {patterns body : List Node} {arms : List Arm}
    (harm : ReadsArm level f patterns body)
    (harms : ∀ ps b, Arm.mk ps b ∈ arms → ReadsArm level f ps b) :
    Collects level.nextArm (fun x => x = some Token.esacWord.symbol)
      (Piece.symbols ((Arm.mk patterns body).layout ++ Arm.layoutMore arms) ++
        [Token.semicolon.symbol])
      (Arm.mapAllWords f (.mk patterns body :: arms)) := by
  have hend : Leads level.nextArm [] (pure none) (fun x => x = some Token.esacWord.symbol) := by
    refine leads_skipNewlines.look ?_ (by rintro x rfl; decide)
    exact (leads_atToken .esacWord true).look (Leads.refl _ _) (by rintro x rfl; rfl)
  induction arms generalizing patterns body with
  | nil =>
      obtain ⟨first, others, rfl, hsymbols⟩ := symbols_readsArm harm
      obtain ⟨hfirst, hothers, hesac, hbody⟩ := harm
      have hlast := Collects.cons (leads_nextArm_last hfirst hothers hbody hesac)
        (by simp [patternSymbols]) (fun x hx => hx) (.nil hend)
      simpa [Arm.layoutMore, hsymbols, Arm.mapAllWords] using hlast
  | cons arm rest ih =>
      obtain ⟨ps, b⟩ := arm
      obtain ⟨first, others, rfl, hsymbols⟩ := symbols_readsArm harm
      obtain ⟨hfirst, hothers, hesac, hbody⟩ := harm
      have hrest := ih (harms ps b (by simp)) (fun ps b h => harms ps b (by simp [h]))
      have hall := Collects.cons (leads_nextArm_open hfirst hothers hbody hesac)
        (by simp [patternSymbols]) (fun x hx => trivial) hrest
      simpa [Arm.layoutMore, hsymbols, Arm.mapAllWords] using hall

theorem leads_choice {subject : Node} {arms : List Arm} (hsubject : subject.ReadAs level.program f)
    (harms : ∀ ps b, Arm.mk ps b ∈ arms → ReadsArm level f ps b) :
    Leads level.choice (Piece.symbols (Node.choice subject arms).layout)
      (pure ((Node.choice subject arms).mapWords f)) always := by
  have hlayout : Piece.symbols subject.layout = [⟨.word, subject.render⟩] := by
    obtain ⟨parts, rfl, _⟩ := hsubject
    rfl
  simp only [Node.layout, Node.mapWords, Piece.symbols_mark, Piece.symbols_append,
    Piece.symbols_nil, Piece.symbols_blank, Piece.symbols_separator, hlayout]
  refine leads_expect_cons ?_
  refine (leads_anyWord hsubject).bind ?_ (fun _ _ => trivial)
  refine leads_skipNewlines.look ?_ (fun _ _ => rfl)
  refine leads_expect_cons ?_
  rcases arms with _ | ⟨⟨patterns, body⟩, rest⟩
  · have hnone : Collects level.nextArm (fun x => x = some Token.esacWord.symbol) [] [] := by
      refine .nil (leads_skipNewlines.look ?_ (by rintro x rfl; decide))
      exact (leads_atToken .esacWord true).look (Leads.refl _ _) (by rintro x rfl; rfl)
    refine leads_skipNewlines.look ?_ (fun _ _ => rfl)
    refine leads_skipEmptyEnd_take.bind (t := [Token.esacWord.symbol]) ?_ (fun _ _ => rfl)
    exact (leads_many hnone).look leads_expect_last (fun _ _ => rfl)
  · have hall := collects_arms (harms patterns body (by simp))
      (fun ps b (h : Arm.mk ps b ∈ rest) => harms ps b (by simp [h]))
    obtain ⟨first, others, rfl, hsymbols⟩ := symbols_readsArm (harms patterns body (by simp))
    have hfront : ∀ (t : List Symbol) (x : Option Symbol),
        ((Piece.symbols ((Arm.mk (first :: others) body).layout ++ Arm.layoutMore rest) ++
          t).head?.or x) = some ⟨.word, first.render⟩ := by
      intro t x
      rw [Piece.symbols_append, hsymbols]
      rfl
    have harmsLayout : Arm.layouts (.mk (first :: others) body :: rest) =
        (Arm.mk (first :: others) body).layout ++ Arm.layoutMore rest := by
      rw [Arm.layouts]
    rw [harmsLayout]
    refine leads_skipNewlines.look ?_ (fun x _ => ?_)
    · refine leads_skipEmptyEnd_none.look ?_ (fun x _ => ?_)
      · exact (leads_many hall).bind leads_expect_last (fun _ _ => rfl)
      · rw [List.append_assoc, hfront]
        rfl
    · rw [List.append_assoc, hfront]
      rfl

end Conch.Syntax.Grammar
