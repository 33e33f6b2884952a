import Conch.Proofs.Grammar.Ensures
import Conch.Proofs.Grammar.Programs
import Conch.Proofs.Tree.Words
import Conch.Proofs.Words.Fragments

/-!
# The trees of a grammar

Every tree that the grammar returns has the shape that its place asks for, and its words
were read from lexemes (`built_command`, `built_program`).
-/

namespace Conch.Syntax

namespace Node

theorem Fits.pipeline {n : Node} (h : n.Fits .command) : n.Fits .pipeline := by
  cases n with
  | command args background => exact ⟨fun hb => absurd (h.1 hb) (by decide), h.2⟩
  | binary op left right => cases op <;> simp [Fits] at h
  | _ => exact h

theorem Fits.list {n : Node} (h : n.Fits .pipeline) : n.Fits .list := by
  cases n with
  | command args background => exact ⟨fun hb => absurd (h.1 hb) (by decide), h.2⟩
  | binary op left right =>
      cases op with
      | pipe => exact ⟨by decide, h.2⟩
      | _ => simp [Fits] at h
  | _ => exact h

theorem Fits.statement {n : Node} (h : n.Fits .list) : n.Fits .statement := by
  cases n with
  | command args background => exact ⟨fun _ => rfl, h.2⟩
  | binary op left right =>
      cases op <;> first | exact ⟨by decide, h.2⟩ | exact ⟨h.1, .inr rfl, h.2.2⟩
  | _ => exact h

/-- The tree has the shape of its place and the property holds of its words. -/
def Built (W : Node → Prop) (rank : Rank) (n : Node) : Prop :=
  n.Fits rank ∧ Piece.ForWords (fun _ => W) n.layout

/-- A word, or a redirection to one. -/
def BuiltArgument (W : Node → Prop) (n : Node) : Prop :=
  n.IsArgument ∧ Piece.ForWords (fun _ => W) n.layout

def BuiltWord (W : Node → Prop) (n : Node) : Prop := n.IsWord ∧ W n

variable {W : Node → Prop} {n : Node}

theorem BuiltWord.layout (h : n.BuiltWord W) : Piece.ForWords (fun _ => W) n.layout := by
  cases n with
  | word parts => exact (Piece.forWords_word false _ []).mpr ⟨h.2, Piece.forWords_nil⟩
  | _ => exact h.1.elim

theorem BuiltWord.argument (h : n.BuiltWord W) : n.BuiltArgument W := by
  refine ⟨?_, h.layout⟩
  cases n with
  | word parts => trivial
  | _ => exact h.1.elim

theorem Built.pipeline (h : n.Built W .command) : n.Built W .pipeline := ⟨h.1.pipeline, h.2⟩

theorem Built.list (h : n.Built W .pipeline) : n.Built W .list := ⟨h.1.list, h.2⟩

theorem Built.statement (h : n.Built W .list) : n.Built W .statement := ⟨h.1.statement, h.2⟩

theorem Built.background {args : List Node} {b : Bool} (h : (command args b).Built W .list) :
    (command args true).Built W .statement := by
  refine ⟨⟨fun _ => rfl, h.1.2⟩, ?_⟩
  rw [Piece.forWords_command]
  exact (Piece.forWords_command args b).mp h.2

theorem built_binary {op : Token} {left right : Node} (hop : op = .andAnd ∨ op = .orOr)
    (hleft : left.Built W .list) (hright : right.Built W .pipeline) :
    (binary op left right).Built W .list := by
  refine ⟨?_, (Piece.forWords_binary op left right).mpr ⟨hleft.2, hright.2⟩⟩
  rcases hop with rfl | rfl
  · exact ⟨.inl rfl, .inl rfl, hleft.1, hright.1⟩
  · exact ⟨.inr rfl, .inl rfl, hleft.1, hright.1⟩

theorem built_pipe {left right : Node} (hleft : left.Built W .pipeline)
    (hright : right.Built W .command) : (binary .pipe left right).Built W .pipeline :=
  ⟨⟨by decide, hleft.1, hright.1⟩,
    (Piece.forWords_binary .pipe left right).mpr ⟨hleft.2, hright.2⟩⟩

/-- A list of statements, each of them built. -/
def BuiltList (W : Node → Prop) (body : List Node) : Prop := ∀ n ∈ body, n.Built W .statement

theorem BuiltList.fit {body : List Node} (h : BuiltList W body) : AllFit body :=
  allFit_iff.mpr (fun n hn => (h n hn).1)

theorem BuiltList.words {body : List Node} (h : BuiltList W body) :
    ∀ n ∈ body, Piece.ForWords (fun _ => W) n.layout := fun n hn => (h n hn).2

def BuiltBody (W : Node → Prop) (body : List Node) : Prop := body ≠ [] ∧ BuiltList W body

theorem BuiltBody.group {body : List Node} (h : BuiltBody W body) (rank : Rank) :
    (group body).Built W rank :=
  ⟨⟨h.1, h.2.fit⟩, (Piece.forWords_group body).mpr h.2.words⟩

end Node

namespace Grammar

open Node

variable {known : Lexeme → Prop} {W : Node → Prop} {program : Word.ProgramParser}

/-! ## Simple commands -/

theorem wordOf_eq_ok {lexeme : Lexeme} {stream rest : Lexemes} {n : Node}
    (h : wordOf program lexeme stream = .ok (n, rest)) :
    ∃ parts, n = .word parts ∧
      Word.parse program lexeme.position lexeme.text.toList = .ok parts := by
  obtain ⟨parts, middle, hlift, hpure⟩ := bind_eq_ok h
  cases hpure
  refine ⟨parts, rfl, ?_⟩
  unfold lift at hlift
  split at hlift
  · rename_i hparse
    cases hlift
    exact hparse
  · cases hlift

theorem wordOf_rest {lexeme : Lexeme} {stream rest : Lexemes} {n : Node}
    (h : wordOf program lexeme stream = .ok (n, rest)) : rest = stream := by
  obtain ⟨_, middle, hlift, hpure⟩ := bind_eq_ok h
  cases hpure
  unfold lift at hlift
  split at hlift <;> cases hlift
  rfl

section Words

variable (hread : ∀ lexeme parts, known lexeme → lexeme.kind = .word →
  Word.parse program lexeme.position lexeme.text.toList = .ok parts → W (.word parts))

include hread

theorem ensures_wordOf {lexeme : Lexeme} (hknown : known lexeme) (hkind : lexeme.kind = .word) :
    Ensures known (wordOf program lexeme) (BuiltWord W) := by
  intro stream n rest hstream h
  obtain ⟨parts, rfl, hparse⟩ := wordOf_eq_ok h
  rw [wordOf_rest h]
  exact ⟨⟨trivial, hread lexeme parts hknown hkind hparse⟩, hstream⟩

theorem ensures_anyWord : Ensures known (anyWord program) (BuiltWord W) := by
  refine ensures_current.bind (fun front hfront => ?_)
  cases front with
  | none => exact ensures_unexpected
  | some lexeme =>
      refine .cond (fun hkind => ?_) (fun _ => ensures_unexpected)
      exact ensures_advance.bind (fun _ _ =>
        ensures_wordOf hread (hfront lexeme rfl) (eq_of_beq hkind))

theorem ensures_words : Ensures known (words program) (fun found => ∀ n ∈ found, BuiltWord W n) := by
  refine ensures_many (ensures_current.bind (fun front hfront => ?_))
  cases front with
  | none => exact .pure (by simp)
  | some lexeme =>
      refine .cond (fun hkind => ?_) (fun _ => .pure (by simp))
      refine ensures_advance.bind (fun _ _ => ?_)
      refine (ensures_wordOf hread (hfront lexeme rfl) (eq_of_beq hkind)).bind (fun n hn => ?_)
      exact .pure (by simpa using hn)

theorem ensures_redirection {descriptor : Option Nat}
    (hdescriptor : ∀ n ∈ descriptor, n < descriptorLimit) :
    Ensures known (redirection program descriptor) (BuiltArgument W) := by
  refine ensures_current.bind (fun front _ => ?_)
  split
  · rename_i token _
    refine .cond (fun htoken => ?_) (fun _ => ensures_unexpected)
    refine ensures_advance.bind (fun _ _ => ?_)
    refine (ensures_anyWord hread).bind (fun target htarget => .pure ?_)
    exact ⟨⟨hdescriptor, htoken, htarget.1⟩,
      (Piece.forWords_redirection descriptor token target).mpr htarget.layout⟩
  · exact ensures_unexpected

theorem ensures_argument :
    Ensures known (argument program) (fun found => ∀ n ∈ found, BuiltArgument W n) := by
  have hsome : ∀ n, BuiltArgument W n →
      Ensures known (pure (some n)) (fun found => ∀ n ∈ found, BuiltArgument W n) :=
    fun n hn => .pure (by simpa using hn)
  refine ensures_current.bind (fun front hfront => ?_)
  cases front with
  | none => exact .pure (by simp)
  | some lexeme =>
      simp only
      split
      · rename_i hkind
        refine ensures_advance.bind (fun _ _ => ?_)
        exact (ensures_wordOf hread (hfront lexeme rfl) hkind).bind
          (fun n hn => hsome n hn.argument)
      · refine ensures_advance.bind (fun _ _ => ?_)
        refine .cond (fun hvalue => ?_) (fun _ => ensures_failHere)
        exact (ensures_redirection hread (by simpa using hvalue)).bind hsome
      · refine .cond (fun _ => ?_) (fun _ => .pure (by simp))
        exact (ensures_redirection hread (by simp)).bind hsome
      · exact .pure (by simp)

omit hread in
theorem redirection_not_word {descriptor : Option Nat} :
    Ensures (fun _ => True) (redirection program descriptor) (fun n => ∀ parts, n ≠ .word parts) := by
  refine ensures_current.bind (fun front _ => ?_)
  split
  · refine .cond (fun _ => ensures_advance.bind (fun _ _ => ?_)) (fun _ => ensures_unexpected)
    refine (ensures_anyWord (W := fun _ => True) (fun _ _ _ _ _ => trivial)).bind
      (fun target _ => .pure ?_)
    intro parts h
    cases h
  · exact ensures_unexpected

omit hread in
/-- A first argument that is a word was read from the first lexeme. -/
theorem argument_word {stream rest : Lexemes} {parts : List Node}
    (h : argument program stream = .ok (some (.word parts), rest)) :
    ∃ lexeme ∈ stream.items.head?, lexeme.kind = .word ∧
      Word.parse program lexeme.position lexeme.text.toList = .ok parts := by
  obtain ⟨items, finish⟩ := stream
  cases items with
  | nil => cases h
  | cons lexeme items =>
      refine ⟨lexeme, rfl, ?_⟩
      have hredirection : ∀ {descriptor : Option Nat} {stream : Lexemes},
          (do return some (← redirection program descriptor) : Grammar (Option Node)) stream ≠
            .ok (some (.word parts), rest) := by
        intro descriptor stream h
        obtain ⟨n, _, hn, hpure⟩ := bind_eq_ok h
        cases hpure
        exact (redirection_not_word _ _ _ (fun _ _ => trivial) hn).1 parts rfl
      rw [argument_run] at h
      cases hkind : lexeme.kind with
      | word =>
          simp only [hkind] at h
          obtain ⟨_, _, _, h⟩ := bind_eq_ok h
          obtain ⟨n, _, hn, hpure⟩ := bind_eq_ok h
          cases hpure
          obtain ⟨_, hparts, hparse⟩ := wordOf_eq_ok hn
          cases hparts
          exact ⟨rfl, hparse⟩
      | descriptor =>
          simp only [hkind] at h
          obtain ⟨_, _, _, h⟩ := bind_eq_ok h
          split at h
          · exact absurd h hredirection
          · cases h
      | op token =>
          simp only [hkind] at h
          split at h
          · exact absurd h hredirection
          · cases h
      | newline =>
          simp only [hkind] at h
          cases h

theorem simpleCommand_built {stream rest : Lexemes} {n : Node}
    (hstream : Lexemes.All known stream)
    (hfirst : ∀ lexeme ∈ stream.items.head?, lexeme.kind = .word → mayStart lexeme.text = true)
    (h : simpleCommand program stream = .ok (n, rest)) :
    n.Built W .command ∧ Lexemes.All known rest := by
  obtain ⟨args, middle, hargs, h⟩ := bind_eq_ok h
  obtain ⟨hbuilt, hmiddle⟩ := ensures_many (ensures_argument hread) stream args middle hstream hargs
  by_cases hempty : args.isEmpty = true
  · rw [if_pos hempty] at h
    exact absurd h (by unfold unexpected; split <;> simp)
  · rw [if_neg hempty] at h
    cases h
    refine ⟨⟨⟨fun hb => absurd hb (by simp), ?_, fun n hn => (hbuilt n hn).1, ?_⟩, ?_⟩, hmiddle⟩
    · simpa using hempty
    · intro parts hhead
      obtain ⟨_, hargument⟩ := many_first hargs hhead
      obtain ⟨lexeme, hlexeme, hkind, hparse⟩ := argument_word hargument
      exact Word.mayStart_render hparse (hfirst lexeme hlexeme hkind)
    · exact (Piece.forWords_command args false).mpr (fun n hn => (hbuilt n hn).2)

end Words

/-! ## Lists of statements -/

section Statements

variable {command : Grammar Node} (hcommand : Ensures known command (Built W .command))

include hcommand

theorem ensures_pipeline : Ensures known (pipeline command) (Built W .pipeline) := by
  refine hcommand.bind (fun first hfirst => ?_)
  refine ensures_remaining.bind (fun bound _ => ?_)
  refine ensures_extend (fun left hleft => ?_) bound hfirst.pipeline
  refine (ensures_atOperator .pipe).bind (fun _ _ => ?_)
  refine .cond (fun _ => ?_) (fun _ => .pure (by simp))
  refine ensures_advance.bind (fun _ _ => ensures_skipNewlines.bind (fun _ _ => ?_))
  refine hcommand.bind (fun right hright => .pure ?_)
  rintro n ⟨⟩
  exact built_pipe hleft hright

theorem ensures_andOrList : Ensures known (andOrList command) (Built W .list) := by
  have hoperator : Ensures known listOperator
      (fun found => ∀ op ∈ found, op = .andAnd ∨ op = .orOr) := by
    refine ensures_current.bind (fun _ _ => ?_)
    split <;> exact .pure (by simp)
  refine (ensures_pipeline hcommand).bind (fun first hfirst => ?_)
  refine ensures_remaining.bind (fun bound _ => ?_)
  refine ensures_extend (fun left hleft => ?_) bound hfirst.list
  refine hoperator.bind (fun found hfound => ?_)
  cases found with
  | none => exact .pure (by simp)
  | some op =>
      refine ensures_advance.bind (fun _ _ => ensures_skipNewlines.bind (fun _ _ => ?_))
      refine (ensures_pipeline hcommand).bind (fun right hright => .pure ?_)
      rintro n ⟨⟩
      exact built_binary (hfound op rfl) hleft hright

theorem ensures_nextStatement (stops : List Token) :
    Ensures known (nextStatement command stops)
      (fun found => ∀ next ∈ found, next.1.Built W .statement) := by
  have hend : Ensures known (endOfStatement stops) (fun _ => True) := by
    refine ensures_current.bind (fun front _ => ?_)
    cases front with
    | none => exact .pure trivial
    | some lexeme =>
        refine .cond (fun _ => ensures_advance.bind (fun _ _ => .pure trivial)) (fun _ => ?_)
        exact .cond (fun _ => .pure trivial) (fun _ => ensures_unexpected)
  rw [nextStatement_eq]
  refine ensures_skipNewlines.bind (fun _ _ => ensures_current.bind (fun front _ => ?_))
  refine .cond (fun _ => .pure (by simp)) (fun _ => ?_)
  refine (ensures_andOrList hcommand).bind (fun statement hstatement => ?_)
  refine (ensures_atOperator .ampersand).bind (fun _ _ => ?_)
  refine .cond (fun _ => ?_) (fun _ => ?_)
  · split
    · rename_i args b
      refine ensures_advance.bind (fun _ _ => (ensures_atOperator .semicolon).bind (fun _ _ => ?_))
      have hlast : Ensures known (pure (some (Node.command args true, Following.more)))
          (fun found => ∀ next ∈ found, next.1.Built W .statement) := by
        refine .pure ?_
        rintro next ⟨⟩
        exact hstatement.background
      exact .cond (fun _ => ensures_advance.bind (fun _ _ => hlast)) (fun _ => hlast)
    · exact ensures_failHere
  · refine hend.bind (fun following _ => .pure ?_)
    rintro next ⟨⟩
    exact hstatement.statement

theorem ensures_statements (stops : List Token) (bound : List Lexeme) {found : List Node}
    (hfound : BuiltList W found) :
    Ensures known (statements command stops bound found) (BuiltList W) := by
  have hreverse : ∀ {nodes : List Node}, BuiltList W nodes → BuiltList W nodes.reverse :=
    fun h n hn => h n (List.mem_reverse.mp hn)
  have hcons : ∀ {statement : Node}, statement.Built W .statement →
      BuiltList W (statement :: found) := by
    intro statement hstatement n hn
    rcases List.mem_cons.mp hn with rfl | hn
    · exact hstatement
    · exact hfound n hn
  induction bound generalizing found with
  | nil =>
      unfold statements
      refine (ensures_nextStatement hcommand stops).bind (fun next hnext => ?_)
      rcases next with _ | ⟨statement, _ | _⟩
      · exact .pure (hreverse hfound)
      · exact .pure (hreverse (hcons (hnext _ rfl)))
      · exact .pure (hreverse (hcons (hnext _ rfl)))
  | cons lexeme bound ih =>
      unfold statements
      refine (ensures_nextStatement hcommand stops).bind (fun next hnext => ?_)
      rcases next with _ | ⟨statement, _ | _⟩
      · exact .pure (hreverse hfound)
      · have hmore := hcons (hnext _ rfl)
        refine ih hmore ?_
        intro second hsecond n hn
        rcases List.mem_cons.mp hn with rfl | hn
        · exact hsecond
        · exact hmore n hn
      · exact .pure (hreverse (hcons (hnext _ rfl)))

theorem ensures_statementList (stops : List Token) :
    Ensures known (statementList command stops) (BuiltList W) :=
  ensures_remaining.bind (fun bound _ =>
    ensures_statements hcommand stops bound (fun n hn => absurd hn (by simp)))

theorem ensures_statementBody (stops : List Token) :
    Ensures known (statementBody command stops) (BuiltBody W) := by
  refine (ensures_statementList hcommand stops).bind (fun body hbody => ?_)
  exact .cond (fun _ => ensures_unexpected) (fun hne => .pure ⟨by simpa using hne, hbody⟩)

theorem ensures_condition (stop : Token) :
    Ensures known (condition command stop) (Built W .statement) := by
  refine (ensures_statementBody hcommand [stop]).bind (fun body hbody => ?_)
  split
  · exact .pure (hbody.2 _ (by simp))
  · exact .pure (hbody.group .statement)

end Statements

/-! ## Compound commands -/

theorem compound?_eq_some {lexeme : Lexeme} {items : List Lexeme}
    {compound : Level → Grammar Node} (h : compound? (lexeme :: items) = some compound) :
    (∃ token, opened? token = some compound) ∨
      (compound = Level.function ∧ lexeme.kind = .word ∧ mayStart lexeme.text = true) := by
  unfold compound? at h
  simp only at h
  cases hkind : lexeme.kind with
  | op token =>
      cases token <;> simp only [hkind] at h <;> cases h
      exact .inl ⟨.leftParen, rfl⟩
  | word =>
      simp only [hkind, Lexeme.reserved?] at h
      cases hreserved : Token.reserved? lexeme.text with
      | none =>
          simp only [hreserved] at h
          split at h <;> cases h
          exact .inr ⟨rfl, rfl, by simp [mayStart, hreserved]⟩
      | some token =>
          have hmem : token ∈ Token.reservedWords := List.mem_of_find?_eq_some hreserved
          rw [hreserved] at h
          by_cases hin : token = .inWord
          · subst hin
            change (if startsFunction (lexeme :: items) then some Level.function else none) = _ at h
            split at h <;> cases h
            exact .inr ⟨rfl, rfl, by simp [mayStart, hreserved]⟩
          · refine .inl ⟨token, ?_⟩
            cases token <;>
              first | exact absurd hmem (by decide) | exact absurd rfl hin | exact h
  | _ =>
      simp only [hkind] at h
      cases h

section Compounds

variable {level : Level} (hcommand : Ensures known level.command (Built W .command))
  (hread : ∀ lexeme parts, known lexeme → lexeme.kind = .word →
    Word.parse level.program lexeme.position lexeme.text.toList = .ok parts → W (.word parts))

section Bodies

include hcommand

theorem ensures_subshell : Ensures known level.subshell (Built W .command) := by
  refine (ensures_expect .leftParen).bind (fun _ _ => ?_)
  refine (ensures_statementBody hcommand [.rightParen]).bind (fun body hbody => ?_)
  refine (ensures_expect .rightParen).bind (fun _ _ => .pure ?_)
  exact ⟨⟨hbody.1, hbody.2.fit⟩, (Piece.forWords_subshell body).mpr hbody.2.words⟩

theorem ensures_group : Ensures known level.group (Built W .command) := by
  refine (ensures_expect .leftBrace).bind (fun _ _ => ?_)
  refine (ensures_statementBody hcommand [.rightBrace]).bind (fun body hbody => ?_)
  exact (ensures_expect .rightBrace).bind (fun _ _ => .pure (hbody.group .command))

theorem ensures_whileLoop : Ensures known level.whileLoop (Built W .command) := by
  refine (ensures_expect .whileWord).bind (fun _ _ => ?_)
  refine (ensures_condition hcommand .doWord).bind (fun test htest => ?_)
  refine (ensures_expect .doWord).bind (fun _ _ => ?_)
  refine (ensures_statementBody hcommand [.doneWord]).bind (fun body hbody => ?_)
  refine (ensures_expect .doneWord).bind (fun _ _ => .pure ?_)
  exact ⟨⟨htest.1, hbody.1, hbody.2.fit⟩,
    (Piece.forWords_whileLoop test body).mpr ⟨htest.2, hbody.2.words⟩⟩

/-- A further test of a conditional and its statements. -/
def BuiltBranch (W : Node → Prop) : Branch → Prop
  | .mk test body => test.Built W .statement ∧ BuiltBody W body

theorem ensures_elifBranch :
    Ensures known level.elifBranch (fun found => ∀ branch ∈ found, BuiltBranch W branch) := by
  refine (ensures_atToken .elifWord).bind (fun _ _ => ?_)
  refine .cond (fun _ => ensures_advance.bind (fun _ _ => ?_)) (fun _ => .pure (by simp))
  refine (ensures_condition hcommand .thenWord).bind (fun test htest => ?_)
  refine (ensures_expect .thenWord).bind (fun _ _ => ?_)
  refine (ensures_statementBody hcommand _).bind (fun body hbody => .pure ?_)
  rintro branch ⟨⟩
  exact ⟨htest, hbody⟩

omit hcommand in
theorem built_conditional {test : Node} {body otherwise : List Node} {elifs : List Branch}
    (htest : test.Built W .statement) (hbody : BuiltBody W body)
    (helifs : ∀ branch ∈ elifs, BuiltBranch W branch) (hotherwise : BuiltList W otherwise) :
    (Node.conditional test body elifs otherwise).Built W .command := by
  have hbranch : ∀ t b, Branch.mk t b ∈ elifs → t.Built W .statement ∧ BuiltBody W b :=
    fun t b hb => helifs (.mk t b) hb
  refine ⟨⟨htest.1, ⟨hbody.1, hbody.2.fit⟩, ?_, hotherwise.fit⟩, ?_⟩
  · refine Branch.allFit_iff.mpr (fun t b hb => ?_)
    obtain ⟨ht, hb⟩ := hbranch t b hb
    exact ⟨ht.1, hb.1, hb.2.fit⟩
  · refine (Piece.forWords_conditional test body elifs otherwise).mpr
      ⟨htest.2, hbody.2.words, fun t b hb => ?_, hotherwise.words⟩
    obtain ⟨ht, hb⟩ := hbranch t b hb
    exact ⟨ht.2, hb.2.words⟩

theorem ensures_conditional : Ensures known level.conditional (Built W .command) := by
  refine (ensures_expect .ifWord).bind (fun _ _ => ?_)
  refine (ensures_condition hcommand .thenWord).bind (fun test htest => ?_)
  refine (ensures_expect .thenWord).bind (fun _ _ => ?_)
  refine (ensures_statementBody hcommand _).bind (fun body hbody => ?_)
  refine (ensures_many (ensures_elifBranch hcommand)).bind (fun elifs helifs => ?_)
  have hlast : ∀ {otherwise : List Node}, BuiltList W otherwise →
      Ensures known (do
        expect .fiWord
        return Node.conditional test body elifs otherwise) (Built W .command) :=
    fun hotherwise => (ensures_expect .fiWord).bind (fun _ _ =>
      .pure (built_conditional htest hbody helifs hotherwise))
  refine (ensures_atToken .elseWord).bind (fun _ _ => .cond (fun _ => ?_) (fun _ => ?_))
  · refine ensures_advance.bind (fun _ _ => ?_)
    exact (ensures_statementBody hcommand [.fiWord]).bind (fun _ hbody => hlast hbody.2)
  · exact hlast (fun n hn => absurd hn (by simp))

/-- A function has the name at the front. -/
theorem function_built {stream rest : Lexemes} {n : Node} (hstream : Lexemes.All known stream)
    (hfront : ∀ lexeme ∈ stream.items.head?, mayStart lexeme.text = true)
    (h : level.function stream = .ok (n, rest)) :
    n.Built W .command ∧ Lexemes.All known rest := by
  obtain ⟨front, middle, hcurrent, h⟩ := bind_eq_ok h
  cases hcurrent
  cases hitems : stream.items.head? with
  | none =>
      rw [hitems] at h
      exact (ensures_unexpected (P := fun _ => False) _ _ _ hstream h).1.elim
  | some lexeme =>
      rw [hitems] at h
      have hstarts := hfront lexeme hitems
      refine (ensures_advance.bind (fun _ _ => .cond (fun hname => ?_) (fun _ => ensures_failAt)) :
        Ensures known _ (Built W .command)) stream n rest hstream h
      refine (ensures_expect .leftParen).bind (fun _ _ => ?_)
      refine (ensures_expect .rightParen).bind (fun _ _ => ensures_skipNewlines.bind (fun _ _ => ?_))
      refine hcommand.bind (fun body hbody => .pure ?_)
      exact ⟨⟨hname, hstarts, hbody.1⟩, (Piece.forWords_function _ body).mpr hbody.2⟩

end Bodies

include hcommand hread

theorem ensures_forLoop : Ensures known level.forLoop (Built W .command) := by
  have hname : Ensures known Level.loopName (fun name => isName name = true) := by
    refine ensures_current.bind (fun front _ => ?_)
    cases front with
    | none => exact ensures_unexpected
    | some lexeme =>
        refine .cond (fun _ => .cond (fun hname => ?_) (fun _ => ensures_failHere))
          (fun _ => ensures_unexpected)
        exact ensures_advance.bind (fun _ _ => .pure hname)
  have hend : Ensures known Level.endOfWords (fun _ => True) := by
    refine ensures_current.bind (fun front _ => ?_)
    split
    · exact ensures_advance
    · exact ensures_advance
    · exact ensures_unexpected
  refine (ensures_expect .forWord).bind (fun _ _ => hname.bind (fun name hname => ?_))
  refine ensures_skipNewlines.bind (fun _ _ => (ensures_expect .inWord).bind (fun _ _ => ?_))
  refine (ensures_words hread).bind (fun values hvalues => hend.bind (fun _ _ => ?_))
  refine ensures_skipNewlines.bind (fun _ _ => (ensures_expect .doWord).bind (fun _ _ => ?_))
  refine (ensures_statementBody hcommand [.doneWord]).bind (fun body hbody => ?_)
  refine (ensures_expect .doneWord).bind (fun _ _ => .pure ?_)
  exact ⟨⟨hname, fun n hn => (hvalues n hn).1, hbody.1, hbody.2.fit⟩,
    (Piece.forWords_forLoop name values body).mpr
      ⟨fun n hn => (hvalues n hn).layout, hbody.2.words⟩⟩

/-- The patterns of an arm and its statements. -/
def BuiltArm (W : Node → Prop) : Arm → Prop
  | .mk patterns body =>
      patterns ≠ [] ∧ (∀ n ∈ patterns, BuiltWord W n) ∧ BuiltList W body

theorem ensures_arm : Ensures known level.arm (BuiltArm W) := by
  have hfurther : Ensures known level.furtherPattern (fun found => ∀ n ∈ found, BuiltWord W n) := by
    refine (ensures_atOperator .pipe).bind (fun _ _ => ?_)
    refine .cond (fun _ => ensures_advance.bind (fun _ _ => ?_)) (fun _ => .pure (by simp))
    refine (ensures_anyWord hread).bind (fun n hn => .pure ?_)
    rintro m ⟨⟩
    exact hn
  have hrest : Ensures known (do
      let first ← anyWord level.program
      let others ← many level.furtherPattern
      expect .rightParen
      skipEmptyEnd
      let body ← statementList level.command [.doubleSemicolon, .esacWord]
      return Arm.mk (first :: others) body) (BuiltArm W) := by
    refine (ensures_anyWord hread).bind (fun first hfirst => ?_)
    refine (ensures_many hfurther).bind (fun others hothers => ?_)
    refine (ensures_expect .rightParen).bind (fun _ _ => ensures_skipEmptyEnd.bind (fun _ _ => ?_))
    refine (ensures_statementList hcommand _).bind (fun body hbody => .pure ?_)
    refine ⟨by simp, ?_, hbody⟩
    intro n hn
    rcases List.mem_cons.mp hn with rfl | hn
    · exact hfirst
    · exact hothers n hn
  refine (ensures_atOperator .leftParen).bind (fun _ _ => ?_)
  exact .cond (fun _ => ensures_advance.bind (fun _ _ => hrest)) (fun _ => hrest)

theorem ensures_nextArm :
    Ensures known level.nextArm (fun found => ∀ arm ∈ found, BuiltArm W arm) := by
  have hsome : ∀ {arm : Arm}, BuiltArm W arm →
      Ensures known (pure (some arm)) (fun found => ∀ arm ∈ found, BuiltArm W arm) := by
    intro arm harm
    refine .pure ?_
    rintro found ⟨⟩
    exact harm
  refine ensures_skipNewlines.bind (fun _ _ => (ensures_atToken .esacWord).bind (fun _ _ => ?_))
  refine .cond (fun _ => .pure (by simp)) (fun _ => ?_)
  refine (ensures_arm hcommand hread).bind (fun arm harm => ?_)
  refine (ensures_atOperator .doubleSemicolon).bind (fun _ _ => .cond (fun _ => ?_) (fun _ => ?_))
  · exact ensures_advance.bind (fun _ _ => hsome harm)
  · refine ensures_skipNewlines.bind (fun _ _ => (ensures_atToken .esacWord).bind (fun _ _ => ?_))
    exact .cond (fun _ => hsome harm) (fun _ => ensures_unexpected)

theorem ensures_choice : Ensures known level.choice (Built W .command) := by
  refine (ensures_expect .caseWord).bind (fun _ _ => ?_)
  refine (ensures_anyWord hread).bind (fun subject hsubject => ?_)
  refine ensures_skipNewlines.bind (fun _ _ => (ensures_expect .inWord).bind (fun _ _ => ?_))
  refine ensures_skipNewlines.bind (fun _ _ => ensures_skipEmptyEnd.bind (fun _ _ => ?_))
  refine (ensures_many (ensures_nextArm hcommand hread)).bind (fun arms harms => ?_)
  refine (ensures_expect .esacWord).bind (fun _ _ => .pure ?_)
  have harm : ∀ ps b, Arm.mk ps b ∈ arms →
      ps ≠ [] ∧ (∀ n ∈ ps, BuiltWord W n) ∧ BuiltList W b := fun ps b hb => harms (.mk ps b) hb
  refine ⟨⟨hsubject.1, Arm.allFit_iff.mpr (fun ps b hb => ?_)⟩,
    (Piece.forWords_choice subject arms).mpr ⟨hsubject.layout, fun ps b hb => ?_⟩⟩
  · obtain ⟨hne, hpatterns, hbody⟩ := harm ps b hb
    exact ⟨hne, fun n hn => (hpatterns n hn).1, hbody.fit⟩
  · obtain ⟨hne, hpatterns, hbody⟩ := harm ps b hb
    refine ⟨?_, hbody.words⟩
    cases ps with
    | nil => exact absurd rfl hne
    | cons first others =>
        exact ⟨(hpatterns first (by simp)).2, fun n hn => (hpatterns n (by simp [hn])).layout⟩

theorem compound_built {items : List Lexeme} {compound : Level → Grammar Node}
    (hcompound : compound? items = some compound) {finish : Position} {rest : Lexemes} {n : Node}
    (hstream : Lexemes.All known ⟨items, finish⟩)
    (h : compound level ⟨items, finish⟩ = .ok (n, rest)) :
    n.Built W .command ∧ Lexemes.All known rest := by
  cases items with
  | nil => cases hcompound
  | cons lexeme items =>
      rcases compound?_eq_some hcompound with ⟨token, htoken⟩ | ⟨rfl, _, hstarts⟩
      · cases token <;> cases htoken
        · exact ensures_subshell hcommand _ n rest hstream h
        · exact ensures_group hcommand _ n rest hstream h
        · exact ensures_conditional hcommand _ n rest hstream h
        · exact ensures_whileLoop hcommand _ n rest hstream h
        · exact ensures_forLoop hcommand hread _ n rest hstream h
        · exact ensures_choice hcommand hread _ n rest hstream h
      · exact function_built hcommand hstream (by simpa using hstarts) h

end Compounds

/-! ## Commands and programs -/

/-- The lexeme at the front of a simple command may start one. -/
theorem mayStart_of_simple {lexeme : Lexeme} {items : List Lexeme}
    (hcompound : compound? (lexeme :: items) = none) (hsimple : startsSimple lexeme = true)
    (hkind : lexeme.kind = .word) : mayStart lexeme.text = true := by
  unfold compound? at hcompound
  unfold startsSimple at hsimple
  unfold Lexeme.reserved? at hcompound hsimple
  simp only [hkind] at hcompound hsimple
  unfold mayStart
  cases hreserved : Token.reserved? lexeme.text with
  | none => rfl
  | some token =>
      have hmem : token ∈ Token.reservedWords := List.mem_of_find?_eq_some hreserved
      rw [hreserved] at hcompound hsimple
      cases token <;> simp_all [Token.neverStarts, Token.reservedWords]

theorem ensures_command {below : Option Level} {program : Word.ProgramParser}
    (hbelow : ∀ level ∈ below, Ensures known level.command (Built W .command) ∧
      ∀ lexeme parts, known lexeme → lexeme.kind = .word →
        Word.parse level.program lexeme.position lexeme.text.toList = .ok parts → W (.word parts))
    (hread : ∀ lexeme parts, known lexeme → lexeme.kind = .word →
      Word.parse program lexeme.position lexeme.text.toList = .ok parts → W (.word parts)) :
    Ensures known (commandOn below program) (Built W .command) := by
  rintro ⟨items, finish⟩ n rest hstream h
  rw [commandOn_run] at h
  cases hcompound : compound? items with
  | some compound =>
      simp only [hcompound] at h
      cases below with
      | none => cases h
      | some level =>
          obtain ⟨hcommand, hlevel⟩ := hbelow level rfl
          exact compound_built hcommand hlevel hcompound hstream h
  | none =>
      simp only [hcompound] at h
      split at h
      · rename_i hsimple
        refine simpleCommand_built hread hstream ?_ h
        rintro lexeme hlexeme hkind
        cases items with
        | nil => cases hlexeme
        | cons first items =>
            cases hlexeme
            exact mayStart_of_simple hcompound (by simpa using hsimple) hkind
      · exact (ensures_unexpected (P := fun _ => False) _ _ _ hstream h).1.elim

end Grammar

/-- The word was read from the text of such a lexeme. -/
def Word.ReadFrom (known : Lexeme → Prop) (n : Node) : Prop :=
  ∃ room lexeme parts, known lexeme ∧ lexeme.kind = .word ∧ n = .word parts ∧
    Word.parse (Level.atRoom room).program lexeme.position lexeme.text.toList = .ok parts

theorem Grammar.ensures_atRoom (known : Lexeme → Prop) (room : Nat) :
    Ensures known (Level.atRoom room).command (Node.Built (Word.ReadFrom known) .command) := by
  induction room with
  | zero =>
      refine ensures_command (by simp) (fun lexeme parts hknown hkind hparse => ?_)
      exact ⟨0, lexeme, parts, hknown, hkind, rfl, hparse⟩
  | succ room ih =>
      refine ensures_command ?_ (fun lexeme parts hknown hkind hparse => ?_)
      · rintro level ⟨⟩
        refine ⟨ih, fun lexeme parts hknown hkind hparse => ?_⟩
        exact ⟨room, lexeme, parts, hknown, hkind, rfl, hparse⟩
      · exact ⟨room + 1, lexeme, parts, hknown, hkind, rfl, hparse⟩

/-- A program that was read has the shape of one, and each of its words was read from a lexeme. -/
theorem Program.built {known : Lexeme → Prop} {room : Nat} {stream rest : Lexemes}
    {program : Program} (hstream : Lexemes.All known stream)
    (h : wholeProgram (Level.atRoom room).command stream = .ok (program, rest)) :
    Node.AllFit program ∧
      Piece.ForWords (fun _ => Word.ReadFrom known) (Program.layout program) := by
  have hprogram : Grammar.Ensures known (wholeProgram (Level.atRoom room).command)
      (Node.BuiltList (Word.ReadFrom known)) := by
    refine (Grammar.ensures_statementList (Grammar.ensures_atRoom known room) []).bind
      (fun body hbody => Grammar.ensures_current.bind (fun front _ => ?_))
    cases front with
    | none => exact .pure hbody
    | some lexeme => exact Grammar.ensures_unexpected
  have hbuilt := (hprogram stream program rest hstream h).1
  exact ⟨hbuilt.fit, (Piece.forWords_list program).mpr hbuilt.words⟩

end Conch.Syntax
