import Conch.Proofs.Grammar.Sound
import Conch.Proofs.Grammar.Yields
import Conch.Proofs.Parsing
import Conch.Proofs.Tree.Heights
import Conch.Proofs.Words.Origins

/-!
# What one level of nesting adds

Every construct of the grammar goes a few nodes down before it gets to commands of the
level below, operators aside, and fails only as the words in it do or at a lexeme that it
does not expect.  So the commands of a level go at most seven nodes further down than
those of the level below (`yields_commandOn`), and with the levels that are left summed up
the trees go down no further than these allow (`yields_atRoom`).
-/

namespace Conch.Syntax.Grammar

variable {known : Lexeme → Prop} {faulty : Failure → Prop} {program : Word.ProgramParser} {k : Nat}

/-- The tree goes down so far at most, operators not counted above their left operands. -/
def Within (k : Nat) (n : Node) : Prop := n.descent 0 ≤ k

def AllWithin (k : Nat) (nodes : List Node) : Prop := ∀ n ∈ nodes, Within k n

theorem Within.mono {i : Nat} {n : Node} (h : Within i n) (hle : i ≤ k) : Within k n :=
  Nat.le_trans h hle

theorem AllWithin.descents {nodes : List Node} (h : AllWithin k nodes) :
    Node.descents 0 nodes ≤ k := Node.descents_le h

/-- The known words have fragments that go down so far, or fail as they may. -/
structure ReadsWords (known : Lexeme → Prop) (faulty : Failure → Prop) (k : Nat)
    (program : Word.ProgramParser) : Prop where
  parts : ∀ lexeme parts, known lexeme → lexeme.kind = .word →
    Word.parse program lexeme.position lexeme.text.toList = .ok parts → AllWithin k parts
  fails : ∀ lexeme e, known lexeme → lexeme.kind = .word →
    Word.parse program lexeme.position lexeme.text.toList = .error e → faulty ⟨e, false⟩

variable (hblames : Blames known faulty)

/-! ## Simple commands -/

section Words

variable (hwords : ReadsWords known faulty k program)

theorem yields_wordOf (hwords : ReadsWords known faulty k program) {lexeme : Lexeme}
    (hknown : known lexeme) (hkind : lexeme.kind = .word) :
    Yields known faulty (wordOf program lexeme) (Within (k + 1)) where
  ensures := by
    intro stream n rest hstream h
    obtain ⟨parts, rfl, hparse⟩ := wordOf_eq_ok h
    refine ⟨?_, wordOf_rest h ▸ hstream⟩
    have hparts := (hwords.parts lexeme parts hknown hkind hparse).descents
    change (Node.word parts).descent 0 ≤ k + 1
    rw [Node.descent]
    omega
  fails := by
    intro stream failure hstream h
    rcases bind_eq_error h with hlift | ⟨_, _, _, hpure⟩
    · unfold lift at hlift
      split at hlift
      · cases hlift
      · rename_i e hparse
        cases hlift
        exact hwords.fails lexeme e hknown hkind hparse
    · cases hpure

include hblames hwords

theorem yields_anyWord : Yields known faulty (anyWord program) (Within (k + 1)) := by
  refine yields_current.bind fun front hfront => ?_
  cases front with
  | none => exact yields_unexpected hblames
  | some lexeme =>
      refine .cond (fun hkind => ?_) (fun _ => yields_unexpected hblames)
      exact yields_advance.bind fun _ _ =>
        yields_wordOf hwords (hfront lexeme rfl) (eq_of_beq hkind)

omit hblames in
theorem yields_words : Yields known faulty (words program) (AllWithin (k + 1)) := by
  refine yields_many (yields_current.bind fun front hfront => ?_)
  cases front with
  | none => exact .pure (by simp)
  | some lexeme =>
      refine .cond (fun hkind => ?_) (fun _ => .pure (by simp))
      refine yields_advance.bind fun _ _ => ?_
      refine (yields_wordOf hwords (hfront lexeme rfl) (eq_of_beq hkind)).bind fun n hn => ?_
      exact .pure (by simpa using hn)

theorem yields_redirection (descriptor : Option Nat) :
    Yields known faulty (redirection program descriptor) (Within (k + 2)) := by
  refine yields_current.bind fun front _ => ?_
  split
  · refine .cond (fun _ => ?_) (fun _ => yields_unexpected hblames)
    refine yields_advance.bind fun _ _ => ?_
    refine (yields_anyWord hblames hwords).bind fun target htarget => .pure ?_
    unfold Within at htarget ⊢
    rw [Node.descent]
    omega
  · exact yields_unexpected hblames

theorem yields_argument :
    Yields known faulty (argument program) (fun found => ∀ n ∈ found, Within (k + 2) n) := by
  have hsome : ∀ n, Within (k + 2) n →
      Yields known faulty (pure (some n)) (fun found => ∀ n ∈ found, Within (k + 2) n) :=
    fun n hn => .pure (by simpa using hn)
  refine yields_current.bind fun front hfront => ?_
  cases front with
  | none => exact .pure (by simp)
  | some lexeme =>
      simp only
      split
      · rename_i hkind
        refine yields_advance.bind fun _ _ => ?_
        exact (yields_wordOf hwords (hfront lexeme rfl) hkind).bind
          fun n hn => hsome n (hn.mono (Nat.le_succ _))
      · refine yields_advance.bind fun _ _ => ?_
        refine .cond (fun _ => ?_) (fun _ => yields_failHere hblames (by simp))
        exact (yields_redirection hblames hwords _).bind hsome
      · refine .cond (fun _ => ?_) (fun _ => .pure (by simp))
        exact (yields_redirection hblames hwords none).bind hsome
      · exact .pure (by simp)

theorem yields_simpleCommand : Yields known faulty (simpleCommand program) (Within (k + 3)) := by
  refine (yields_many (yields_argument hblames hwords)).bind fun args hargs => ?_
  refine .cond (fun _ => yields_unexpected hblames) (fun _ => .pure ?_)
  have hdescents := AllWithin.descents hargs
  unfold Within
  rw [Node.descent]
  omega

end Words

/-! ## Lists of statements -/

section Statements

variable {command : Grammar Node} (hcommand : Yields known faulty command (Within k))

theorem Within.binary {i : Nat} {op : Token} {left right : Node} (hleft : Within i left)
    (hright : Within k right) (h : k < i) : Within i (.binary op left right) :=
  Node.descent_binary_le hleft (Nat.le_trans (Nat.succ_le_succ hright) h)

include hcommand

theorem yields_pipeline : Yields known faulty (pipeline command) (Within (k + 1)) := by
  refine hcommand.bind fun first hfirst => ?_
  refine yields_remaining.bind fun bound _ => ?_
  refine yields_extend (fun left hleft => ?_) bound (hfirst.mono (Nat.le_succ k))
  refine (yields_atOperator .pipe).bind fun _ _ => ?_
  refine .cond (fun _ => ?_) (fun _ => .pure (by simp))
  refine yields_advance.bind fun _ _ => yields_skipNewlines.bind fun _ _ => ?_
  refine hcommand.bind fun right hright => .pure ?_
  rintro n ⟨⟩
  exact hleft.binary hright (Nat.lt_succ_self k)

theorem yields_andOrList : Yields known faulty (andOrList command) (Within (k + 2)) := by
  have hoperator : Yields known faulty listOperator (fun _ => True) := by
    refine yields_current.bind fun _ _ => ?_
    split <;> exact .pure trivial
  have hpipeline := yields_pipeline hcommand
  refine hpipeline.bind fun first hfirst => ?_
  refine yields_remaining.bind fun bound _ => ?_
  refine yields_extend (fun left hleft => ?_) bound (hfirst.mono (Nat.le_succ _))
  refine hoperator.bind fun found _ => ?_
  cases found with
  | none => exact .pure (by simp)
  | some op =>
      refine yields_advance.bind fun _ _ => yields_skipNewlines.bind fun _ _ => ?_
      refine hpipeline.bind fun right hright => .pure ?_
      rintro n ⟨⟩
      exact hleft.binary hright (Nat.lt_succ_self _)

include hblames

theorem yields_nextStatement (stops : List Token) :
    Yields known faulty (nextStatement command stops)
      (fun found => ∀ next ∈ found, Within (k + 2) next.1) := by
  have hend : Yields known faulty (endOfStatement stops) (fun _ => True) := by
    refine yields_current.bind fun front _ => ?_
    cases front with
    | none => exact .pure trivial
    | some lexeme =>
        refine .cond (fun _ => yields_advance.bind fun _ _ => .pure trivial) (fun _ => ?_)
        exact .cond (fun _ => .pure trivial) (fun _ => yields_unexpected hblames)
  rw [nextStatement_eq]
  refine yields_skipNewlines.bind fun _ _ => yields_current.bind fun front _ => ?_
  refine .cond (fun _ => .pure (by simp)) (fun _ => ?_)
  refine (yields_andOrList hcommand).bind fun statement hstatement => ?_
  refine (yields_atOperator .ampersand).bind fun _ _ => ?_
  refine .cond (fun _ => ?_) (fun _ => ?_)
  · split
    · rename_i args b
      refine yields_advance.bind fun _ _ => (yields_atOperator .semicolon).bind fun _ _ => ?_
      have hlast : Yields known faulty (pure (some (Node.command args true, Following.more)))
          (fun found => ∀ next ∈ found, Within (k + 2) next.1) := by
        refine .pure ?_
        rintro next ⟨⟩
        exact hstatement
      exact .cond (fun _ => yields_advance.bind fun _ _ => hlast) (fun _ => hlast)
    · exact yields_failHere hblames (by simp)
  · refine hend.bind fun following _ => .pure ?_
    rintro next ⟨⟩
    exact hstatement

theorem yields_statements (stops : List Token) (bound : List Lexeme) {found : List Node}
    (hfound : AllWithin (k + 2) found) :
    Yields known faulty (statements command stops bound found) (AllWithin (k + 2)) := by
  have hreverse : ∀ {nodes : List Node}, AllWithin (k + 2) nodes → AllWithin (k + 2) nodes.reverse :=
    fun h n hn => h n (List.mem_reverse.mp hn)
  have hnext := yields_nextStatement hblames hcommand stops
  induction bound generalizing found with
  | nil =>
      unfold statements
      refine hnext.bind fun next hnext => ?_
      rcases next with _ | ⟨statement, _ | _⟩
      · exact .pure (hreverse hfound)
      · exact .pure (hreverse (List.forall_mem_cons.mpr ⟨hnext _ rfl, hfound⟩))
      · exact .pure (hreverse (List.forall_mem_cons.mpr ⟨hnext _ rfl, hfound⟩))
  | cons lexeme bound ih =>
      unfold statements
      refine hnext.bind fun next hnext => ?_
      rcases next with _ | ⟨statement, _ | _⟩
      · exact .pure (hreverse hfound)
      · exact ih (List.forall_mem_cons.mpr ⟨hnext _ rfl, hfound⟩)
      · exact .pure (hreverse (List.forall_mem_cons.mpr ⟨hnext _ rfl, hfound⟩))

theorem yields_statementList (stops : List Token) :
    Yields known faulty (statementList command stops) (AllWithin (k + 2)) :=
  yields_remaining.bind fun bound _ =>
    yields_statements hblames hcommand stops bound (fun n hn => absurd hn (by simp))

theorem yields_statementBody (stops : List Token) :
    Yields known faulty (statementBody command stops) (AllWithin (k + 2)) := by
  refine (yields_statementList hblames hcommand stops).bind fun body hbody => ?_
  exact .cond (fun _ => yields_unexpected hblames) (fun _ => .pure hbody)

theorem yields_condition (stop : Token) :
    Yields known faulty (condition command stop) (Within (k + 3)) := by
  refine (yields_statementBody hblames hcommand [stop]).bind fun body hbody => ?_
  split
  · exact .pure ((hbody _ (by simp)).mono (Nat.le_succ _))
  · refine .pure ?_
    have hdescents := hbody.descents
    unfold Within
    rw [Node.descent]
    omega

theorem yields_wholeProgram : Yields known faulty (wholeProgram command) (AllWithin (k + 2)) := by
  refine (yields_statementList hblames hcommand []).bind fun body hbody => ?_
  refine yields_current.bind fun front _ => ?_
  cases front with
  | none => exact .pure hbody
  | some lexeme => exact yields_unexpected hblames

end Statements

/-! ## Compound commands -/

section Compounds

variable {level : Level} (hcommand : Yields known faulty level.command (Within k))

include hblames hcommand

section Bodies

theorem yields_subshell : Yields known faulty level.subshell (Within (k + 5)) := by
  refine (yields_expect hblames .leftParen).bind fun _ _ => ?_
  refine (yields_statementBody hblames hcommand [.rightParen]).bind fun body hbody => ?_
  refine (yields_expect hblames .rightParen).bind fun _ _ => .pure ?_
  have hdescents := hbody.descents
  unfold Within
  rw [Node.descent]
  omega

theorem yields_group : Yields known faulty level.group (Within (k + 5)) := by
  refine (yields_expect hblames .leftBrace).bind fun _ _ => ?_
  refine (yields_statementBody hblames hcommand [.rightBrace]).bind fun body hbody => ?_
  refine (yields_expect hblames .rightBrace).bind fun _ _ => .pure ?_
  have hdescents := hbody.descents
  unfold Within
  rw [Node.descent]
  omega

theorem yields_whileLoop : Yields known faulty level.whileLoop (Within (k + 5)) := by
  refine (yields_expect hblames .whileWord).bind fun _ _ => ?_
  refine (yields_condition hblames hcommand .doWord).bind fun test htest => ?_
  refine (yields_expect hblames .doWord).bind fun _ _ => ?_
  refine (yields_statementBody hblames hcommand [.doneWord]).bind fun body hbody => ?_
  refine (yields_expect hblames .doneWord).bind fun _ _ => .pure ?_
  have hdescents := hbody.descents
  unfold Within at htest ⊢
  rw [Node.descent]
  omega

theorem yields_elifBranch : Yields known faulty level.elifBranch
    (fun found => ∀ branch ∈ found, branch.descent 0 ≤ k + 4) := by
  refine (yields_atToken .elifWord).bind fun _ _ => ?_
  refine .cond (fun _ => yields_advance.bind fun _ _ => ?_) (fun _ => .pure (by simp))
  refine (yields_condition hblames hcommand .thenWord).bind fun test htest => ?_
  refine (yields_expect hblames .thenWord).bind fun _ _ => ?_
  refine (yields_statementBody hblames hcommand _).bind fun body hbody => .pure ?_
  rintro branch ⟨⟩
  have hdescents := hbody.descents
  unfold Within at htest
  rw [Branch.descent]
  omega

theorem yields_conditional : Yields known faulty level.conditional (Within (k + 5)) := by
  refine (yields_expect hblames .ifWord).bind fun _ _ => ?_
  refine (yields_condition hblames hcommand .thenWord).bind fun test htest => ?_
  refine (yields_expect hblames .thenWord).bind fun _ _ => ?_
  refine (yields_statementBody hblames hcommand _).bind fun body hbody => ?_
  refine (yields_many (yields_elifBranch hblames hcommand)).bind fun elifs helifs => ?_
  have hlast : ∀ {otherwise : List Node}, AllWithin (k + 2) otherwise →
      Yields known faulty (do
        expect .fiWord
        return Node.conditional test body elifs otherwise) (Within (k + 5)) := by
    intro otherwise hotherwise
    refine (yields_expect hblames .fiWord).bind fun _ _ => .pure ?_
    have hdescents := hbody.descents
    have hbranches := Branch.descents_le helifs
    have hothers := hotherwise.descents
    unfold Within at htest ⊢
    rw [Node.descent]
    omega
  refine (yields_atToken .elseWord).bind fun _ _ => .cond (fun _ => ?_) (fun _ => ?_)
  · refine yields_advance.bind fun _ _ => ?_
    exact (yields_statementBody hblames hcommand [.fiWord]).bind fun _ hbody => hlast hbody
  · exact hlast fun n hn => absurd hn (by simp)

theorem yields_function : Yields known faulty level.function (Within (k + 5)) := by
  refine yields_current.bind fun front _ => ?_
  cases front with
  | none => exact yields_unexpected hblames
  | some lexeme =>
      refine yields_advance.bind fun _ _ =>
        .cond (fun _ => ?_) (fun _ => yields_failAt hblames (by simp))
      refine (yields_expect hblames .leftParen).bind fun _ _ => ?_
      refine (yields_expect hblames .rightParen).bind fun _ _ => ?_
      refine yields_skipNewlines.bind fun _ _ => hcommand.bind fun body hbody => .pure ?_
      unfold Within at hbody ⊢
      rw [Node.descent]
      omega

end Bodies

variable (hwords : ReadsWords known faulty k level.program)

include hwords

theorem yields_forLoop : Yields known faulty level.forLoop (Within (k + 5)) := by
  have hname : Yields known faulty Level.loopName (fun _ => True) := by
    refine yields_current.bind fun front _ => ?_
    cases front with
    | none => exact yields_unexpected hblames
    | some lexeme =>
        refine .cond (fun _ => .cond (fun _ => ?_) (fun _ => yields_failHere hblames (by simp)))
          (fun _ => yields_unexpected hblames)
        exact yields_advance.bind fun _ _ => .pure trivial
  have hend : Yields known faulty Level.endOfWords (fun _ => True) := by
    refine yields_current.bind fun front _ => ?_
    split
    · exact yields_advance
    · exact yields_advance
    · exact yields_unexpected hblames
  refine (yields_expect hblames .forWord).bind fun _ _ => hname.bind fun name _ => ?_
  refine yields_skipNewlines.bind fun _ _ => (yields_expect hblames .inWord).bind fun _ _ => ?_
  refine (yields_words hwords).bind fun values hvalues => hend.bind fun _ _ => ?_
  refine yields_skipNewlines.bind fun _ _ => (yields_expect hblames .doWord).bind fun _ _ => ?_
  refine (yields_statementBody hblames hcommand [.doneWord]).bind fun body hbody => ?_
  refine (yields_expect hblames .doneWord).bind fun _ _ => .pure ?_
  have hvalues := hvalues.descents
  have hdescents := hbody.descents
  unfold Within
  rw [Node.descent]
  omega

theorem yields_arm : Yields known faulty level.arm (fun arm => arm.descent 0 ≤ k + 4) := by
  have hfurther : Yields known faulty level.furtherPattern
      (fun found => ∀ n ∈ found, Within (k + 1) n) := by
    refine (yields_atOperator .pipe).bind fun _ _ => ?_
    refine .cond (fun _ => yields_advance.bind fun _ _ => ?_) (fun _ => .pure (by simp))
    refine (yields_anyWord hblames hwords).bind fun n hn => .pure ?_
    rintro m ⟨⟩
    exact hn
  have hrest : Yields known faulty (do
      let first ← anyWord level.program
      let others ← many level.furtherPattern
      expect .rightParen
      skipEmptyEnd
      let body ← statementList level.command [.doubleSemicolon, .esacWord]
      return Arm.mk (first :: others) body) (fun arm => arm.descent 0 ≤ k + 4) := by
    refine (yields_anyWord hblames hwords).bind fun first hfirst => ?_
    refine (yields_many hfurther).bind fun others hothers => ?_
    refine (yields_expect hblames .rightParen).bind fun _ _ => ?_
    refine yields_skipEmptyEnd.bind fun _ _ => ?_
    refine (yields_statementList hblames hcommand _).bind fun body hbody => .pure ?_
    have hpatterns := AllWithin.descents (List.forall_mem_cons.mpr ⟨hfirst, hothers⟩)
    have hdescents := hbody.descents
    rw [Arm.descent]
    omega
  refine (yields_atOperator .leftParen).bind fun _ _ => ?_
  exact .cond (fun _ => yields_advance.bind fun _ _ => hrest) (fun _ => hrest)

theorem yields_nextArm : Yields known faulty level.nextArm
    (fun found => ∀ arm ∈ found, arm.descent 0 ≤ k + 4) := by
  have hsome : ∀ {arm : Arm}, arm.descent 0 ≤ k + 4 →
      Yields known faulty (pure (some arm)) (fun found => ∀ arm ∈ found, arm.descent 0 ≤ k + 4) := by
    intro arm harm
    refine .pure ?_
    rintro found ⟨⟩
    exact harm
  refine yields_skipNewlines.bind fun _ _ => (yields_atToken .esacWord).bind fun _ _ => ?_
  refine .cond (fun _ => .pure (by simp)) (fun _ => ?_)
  refine (yields_arm hblames hcommand hwords).bind fun arm harm => ?_
  refine (yields_atOperator .doubleSemicolon).bind fun _ _ => .cond (fun _ => ?_) (fun _ => ?_)
  · exact yields_advance.bind fun _ _ => hsome harm
  · refine yields_skipNewlines.bind fun _ _ => (yields_atToken .esacWord).bind fun _ _ => ?_
    exact .cond (fun _ => hsome harm) (fun _ => yields_unexpected hblames)

theorem yields_choice : Yields known faulty level.choice (Within (k + 5)) := by
  refine (yields_expect hblames .caseWord).bind fun _ _ => ?_
  refine (yields_anyWord hblames hwords).bind fun subject hsubject => ?_
  refine yields_skipNewlines.bind fun _ _ => (yields_expect hblames .inWord).bind fun _ _ => ?_
  refine yields_skipNewlines.bind fun _ _ => yields_skipEmptyEnd.bind fun _ _ => ?_
  refine (yields_many (yields_nextArm hblames hcommand hwords)).bind fun arms harms => ?_
  refine (yields_expect hblames .esacWord).bind fun _ _ => .pure ?_
  have hdescents := Arm.descents_le harms
  unfold Within at hsubject ⊢
  rw [Node.descent]
  omega

theorem yields_compound {items : List Lexeme} {compound : Level → Grammar Node}
    (h : compound? items = some compound) : Yields known faulty (compound level) (Within (k + 5)) := by
  cases items with
  | nil => cases h
  | cons lexeme items =>
      rcases compound?_eq_some h with ⟨token, htoken⟩ | ⟨rfl, _⟩
      · cases token <;> cases htoken
        · exact yields_subshell hblames hcommand
        · exact yields_group hblames hcommand
        · exact yields_conditional hblames hcommand
        · exact yields_whileLoop hblames hcommand
        · exact yields_forLoop hblames hcommand hwords
        · exact yields_choice hblames hcommand hwords
      · exact yields_function hblames hcommand

end Compounds

/-! ## Commands -/

include hblames in
/-- The commands of a level, above a level of commands that go down `k` nodes at most. -/
theorem yields_commandOn {below : Option Level}
    (hbelow : ∀ level ∈ below, Yields known faulty level.command (Within k) ∧
      ReadsWords known faulty k level.program)
    (hwords : ReadsWords known faulty (k + 4) program) :
    Yields known faulty (commandOn below program) (Within (k + 7)) := by
  refine yields_remaining.bind fun items _ => ?_
  split
  · rename_i compound hcompound
    cases below with
    | none =>
        refine ⟨fun _ _ _ _ h => (nomatch h), fun stream failure _ h => ?_⟩
        cases h
        exact hblames.other _ (by simp)
    | some level =>
        obtain ⟨hcommand, hlevel⟩ := hbelow level rfl
        exact (yields_compound hblames hcommand hlevel hcompound).weaken
          fun n hn => hn.mono (by omega)
  · refine yields_current.bind fun front _ => ?_
    exact .cond (fun _ => yields_simpleCommand hblames hwords) (fun _ => yields_unexpected hblames)

end Conch.Syntax.Grammar

/-! ## All levels -/

namespace Conch.Syntax

open Grammar

/-- The programs that the parser reads go down so far at most. -/
def Word.ProgramParser.Within (parse : Word.ProgramParser) (k : Nat) : Prop :=
  ∀ body program, parse body = .ok program → AllWithin k program

namespace Word

variable {parse : ProgramParser} {k : Nat} {text : List Char} {n : Node}

theorem IsStretch.within (h : IsStretch parse text n) (hparse : parse.Within k) :
    Grammar.Within (k + 1) n := by
  unfold Grammar.Within
  cases h with
  | literal => exact Nat.le_add_left 1 k
  | parameter => exact Nat.le_add_left 1 k
  | arithmetic => exact Nat.le_add_left 1 k
  | substitution _ h => exact Nat.succ_le_succ (hparse _ _ h).descents

theorem IsFragment.within (h : IsFragment parse text n) (hparse : parse.Within k) :
    Grammar.Within (k + 2) n := by
  cases h with
  | stretch h => exact (h.within hparse).mono (Nat.le_succ _)
  | quoted h => exact Nat.succ_le_succ (AllWithin.descents fun n hn => (h n hn).within hparse)

end Word

namespace Grammar

variable {known : Lexeme → Prop} {faulty : Failure → Prop}

/-- Where a known word of a level cannot be read, that is a failure as it may be. -/
def WordsFail (known : Lexeme → Prop) (faulty : Failure → Prop) (room : Nat) : Prop :=
  ∀ lexeme e, known lexeme → lexeme.kind = .word →
    Word.parse (Level.atRoom room).program lexeme.position lexeme.text.toList = .error e →
      faulty ⟨e, false⟩

theorem readsWords_atRoom {room k : Nat} (hfails : WordsFail known faulty room)
    (hprogram : (Level.atRoom room).program.Within k) :
    ReadsWords known faulty (k + 2) (Level.atRoom room).program where
  parts := fun _ _ _ _ hparse n hn => (Word.parse_fragments hparse n hn).within hprogram
  fails := hfails

theorem ReadsWords.mono {i k : Nat} {program : Word.ProgramParser}
    (h : ReadsWords known faulty i program) (hle : i ≤ k) : ReadsWords known faulty k program where
  parts := fun lexeme parts hknown hkind hparse n hn =>
    (h.parts lexeme parts hknown hkind hparse n hn).mono hle
  fails := h.fails

theorem programOf_within {command : Grammar Node} {k : Nat}
    (hcommand : Yields (fun _ => True) (fun _ => True) command (Within k)) {text : List Char}
    {program : Program} (h : programOf command text = .ok program) : AllWithin (k + 2) program := by
  obtain ⟨_, stream, rest, _, hread⟩ := programOf_eq_ok.mp h
  have hblames : Blames (fun _ => True) (fun _ => True) := ⟨fun _ _ => trivial, fun _ _ => trivial⟩
  exact ((yields_wholeProgram hblames hcommand).ensures stream program rest
    (fun _ _ => trivial) hread).1

/-- The commands where so many levels are left, and the programs in their words. -/
theorem yields_atRoom (room : Nat) :
    (Level.atRoom room).program.Within (7 * room + 2) ∧
      ∀ {known : Lexeme → Prop} {faulty : Failure → Prop}, Blames known faulty →
        (∀ r ≤ room, WordsFail known faulty r) →
          Yields known faulty (Level.atRoom room).command (Within (7 * room + 7)) := by
  induction room with
  | zero =>
      have hprogram : (Level.atRoom 0).program.Within 2 := fun body program h =>
        absurd (Failure.errorOf_eq_ok h) refusedProgram_ne_ok
      refine ⟨hprogram, fun hblames hfails => ?_⟩
      exact yields_commandOn hblames (by simp) (readsWords_atRoom (hfails 0 (Nat.le_refl 0)) hprogram)
  | succ room ih =>
      obtain ⟨hbelow, hcommand⟩ := ih
      have hprogram : (Level.atRoom (room + 1)).program.Within (7 * (room + 1) + 2) := by
        intro body program h
        have hall : Yields (fun _ => True) (fun _ => True) (Level.atRoom room).command
            (Within (7 * room + 7)) :=
          hcommand ⟨fun _ _ => trivial, fun _ _ => trivial⟩ fun _ _ _ _ _ _ _ => trivial
        exact programOf_within hall (Failure.errorOf_eq_ok h)
      refine ⟨hprogram, fun hblames hfails => ?_⟩
      have hwords := readsWords_atRoom (hfails (room + 1) (Nat.le_refl _)) hprogram
      refine yields_commandOn hblames ?_ hwords
      rintro level ⟨⟩
      exact ⟨hcommand hblames fun r hr => hfails r (Nat.le_succ_of_le hr),
        (readsWords_atRoom (hfails room (Nat.le_succ room)) hbelow).mono (by omega)⟩

end Grammar

end Conch.Syntax
