import Conch.Proofs.Grammar.Follows
import Conch.Proofs.Grammar.Sound

/-!
# The grammar is steady

Every construct of the grammar answers the same when more follows the newline that closes
its lexemes, unless its answer was that it needs more (`steady_command`,
`steady_program`).  Commands never end with a newline, so they never use up closed lexemes.
-/

namespace Conch.Syntax.Grammar

variable {more : List Lexeme} {program : Word.ProgramParser}

/-! ## Simple commands -/

theorem follows_wordOf {x y : Lexeme} (h : x.text = y.text) :
    Follows more (Going more) (wordOf program x) (wordOf program y) (fun _ used => used = []) := by
  have hlift : Follows more (Going more) (lift (Word.parse program x.position x.text.toList))
      (lift (Word.parse program y.position y.text.toList)) (fun _ used => used = []) := by
    rw [← h]
    have hplaces := Word.parse_alike program x.position y.position x.text.toList
    cases hword : Word.parse program x.position x.text.toList with
    | error e =>
        obtain ⟨f, hf, hcause⟩ := hplaces.of_error hword
        rw [hf]
        exact follows_fail (e := ⟨e, false⟩) (f := ⟨f, false⟩) hcause
    | ok parts =>
        obtain ⟨_, hparts, rfl⟩ := hplaces.of_ok hword
        rw [hparts]
        exact .pure rfl
  exact hlift.map (fun _ _ h => h)

theorem steady_anyWord : Steady more (anyWord program) (fun _ => Solid) := by
  refine steady_current steady_unexpected (fun x y hsymbol => ?_)
  simp only [← kind_eq hsymbol]
  refine .cond (fun hkind => ?_) (fun _ => steady_unexpected.follows)
  refine .begun (by simp [eq_of_beq hkind]) ((follows_wordOf (text_eq hsymbol)).advance ?_)
  rintro n used rest hused rfl
  rwa [List.append_nil]

/-- A word among several is read from the lexeme at the front. -/
theorem follows_someWord {x y : Lexeme} (h : x.symbol = y.symbol) (hkind : x.kind = .word) :
    Follows more (fun items => items.head? = some x) (do advance; return some (← wordOf program x))
      (do advance; return some (← wordOf program y)) (Found Solid Firm) := by
  have hword : Follows more (Going more) (do return some (← wordOf program x))
      (do return some (← wordOf program y)) (fun next used => next.isSome = true ∧ used = []) :=
    (follows_wordOf (text_eq h)).map (fun _ _ hused => ⟨rfl, hused⟩)
  refine .begun (by simp [hkind]) (hword.advance ?_)
  rintro next used rest hused ⟨hnext, rfl⟩
  rw [List.append_nil]
  exact .of_isSome hnext hused

/-- The front lexeme, if it is a word. -/
theorem steady_someWord : Steady more (do
    match ← current with
    | some lexeme =>
        if lexeme.kind == .word then
          advance
          return some (← wordOf program lexeme)
        else return none
    | none => return none) (Found Solid Firm) := by
  refine steady_current (.pure .nil) (fun x y hsymbol => ?_)
  simp only [← kind_eq hsymbol]
  exact .cond (fun hkind => follows_someWord hsymbol (eq_of_beq hkind)) (fun _ => .pure .nil)

theorem steady_words : Steady more (words program) (fun _ => Firm) := by
  refine (steady_many (fun _ h => h.1) (fun _ _ h => h.append) (fun _ _ h h' => h.append_firm h')
    steady_someWord).weaken (fun results used hused => ?_)
  split at hused
  · exact hused
  · exact hused.2

theorem steady_redirection (descriptor : Option Nat) :
    Steady more (redirection program descriptor) (fun _ => Solid) := by
  refine steady_current steady_unexpected (fun x y hsymbol => ?_)
  simp only [Option.map_some, ← kind_eq hsymbol]
  split
  · rename_i token hkind
    have hkind : x.kind = .op token := Option.some.inj hkind
    refine .cond (fun _ => .begun (by simp [hkind]) ?_) (fun _ => steady_unexpected.follows)
    exact (steady_anyWord.map (T := fun _ => Solid) (fun _ _ h => h)).follows.advance
      (fun _ _ _ _ h => h.append)
  · exact steady_unexpected.follows

theorem steady_argument : Steady more (argument program) (Found Solid Firm) := by
  have hredirection : ∀ descriptor, Steady more
      (do return some (← redirection program descriptor)) (Found Solid Firm) :=
    fun descriptor => (steady_redirection descriptor).map (fun _ _ h => h)
  refine steady_current (.pure .nil) (fun x y hsymbol => ?_)
  simp only [← kind_eq hsymbol]
  cases hkind : x.kind with
  | word => exact follows_someWord hsymbol hkind
  | descriptor =>
      refine .begun (by simp [hkind])
        (Follows.advance (R := fun next rest => next.isSome = true ∧ Firm rest) ?_ ?_)
      · rw [text_eq hsymbol]
        refine .cond (fun _ => ?_) (fun _ => follows_failHere)
        exact ((steady_redirection _).map (fun _ _ h => ⟨rfl, h.2⟩)).follows
      · exact fun next used rest hused h => .of_isSome h.1 (hused.append_firm h.2)
  | op token => exact .cond (fun _ => (hredirection none).follows) (fun _ => .pure .nil)
  | newline => exact .pure .nil

theorem steady_simpleCommand : Steady more (simpleCommand program) (fun _ => Solid) := by
  have hargs : Steady more (many (argument program))
      (fun args used => if args = [] then Firm used else Solid used) :=
    steady_many (fun _ h => h.1) (fun _ _ h => h.append) (fun _ _ h h' => h.append_firm h')
      steady_argument
  refine hargs.bind (S := fun args _ used => args ≠ [] ∧ used = []) (fun args => ?_) ?_
  · cases args with
    | nil => exact steady_unexpected
    | cons n args => exact .pure ⟨by simp, rfl⟩
  · rintro args _ used rest hused ⟨hne, rfl⟩
    rw [if_neg hne] at hused
    rwa [List.append_nil]

/-! ## Lists of statements -/

/-- The operator that joins two pipelines, as a symbol. -/
def joining? (s : Symbol) : Option Token :=
  match s.kind with
  | .op .andAnd => some .andAnd
  | .op .orOr => some .orOr
  | _ => none

theorem listOperator_eq (items : List Lexeme) (finish : Position) :
    listOperator ⟨items, finish⟩ = .ok ((frontOf items).bind joining?, ⟨items, finish⟩) := by
  rw [listOperator_run]
  cases frontOf items with
  | none => rfl
  | some s =>
      simp only [Option.map_some, Option.bind_some, joining?]
      split <;> simp_all

theorem kind_of_joining? {x : Lexeme} {token : Token} (h : joining? x.symbol = some token) :
    x.kind ≠ .newline := by
  intro hkind
  unfold joining? at h
  rw [show x.symbol.kind = .newline from hkind] at h
  cases h

theorem stopsAt_eq (stops : List Token) {x y : Lexeme} (h : x.symbol = y.symbol) :
    stopsAt stops x = stopsAt stops y := by
  unfold stopsAt
  rw [token?_eq h]

theorem steady_endOfStatement (stops : List Token) :
    Steady more (endOfStatement stops) (fun _ _ => True) := by
  refine steady_current (.pure trivial) (fun x y hsymbol => ?_)
  simp only [← kind_eq hsymbol, ← stopsAt_eq stops hsymbol]
  refine .cond (fun _ => ?_) (fun _ => .cond (fun _ => .pure trivial) (fun _ => ?_))
  · exact (steady_advance.any (fun _ => .pure (Q := fun _ _ => True) trivial)).follows
  · exact steady_unexpected.follows

theorem steady_endStatement (stops : List Token) (statement : Node) :
    Steady more (endStatement stops statement) (fun _ _ => True) := by
  refine steady_atOperator ?_ ((steady_endOfStatement stops).map (fun _ _ _ => trivial))
  have hfail : Follows more Begun (failHere .backgroundCompound)
      (failHere .backgroundCompound : Grammar (Option (Node × Following))) (fun _ _ => True) :=
    follows_failHere.weaken (fun _ h => h.going) (fun _ _ h => h)
  cases statement with
  | command args background =>
      refine Follows.advance (R := fun _ _ => True) (Steady.follows ?_) (fun _ _ _ _ _ => trivial)
      have hvalue : Steady more (pure (some (Node.command args true, Following.more)))
          (fun _ _ => True) := .pure trivial
      refine steady_atOperator ?_ hvalue
      exact (steady_advance.any (fun _ => hvalue)).follows
  | _ => exact hfail

section Statements

variable {command : Grammar Node} (hcommand : Steady more command (fun _ => Solid))

include hcommand

omit hcommand in
/-- An operator at the front and its right operand. -/
theorem follows_operand {operand : Grammar Node} (hoperand : Steady more operand (fun _ => Solid))
    (f : Node → Node) :
    Follows more Begun
      (do
        advance
        skipNewlines
        return some (f (← operand)))
      (do
        advance
        skipNewlines
        return some (f (← operand)))
      (Found Solid Firm) := by
  have hvalue : Steady more (do return some (f (← operand)))
      (fun next rest => next.isSome = true ∧ Solid rest) :=
    hoperand.map (fun _ _ hused => ⟨rfl, hused⟩)
  refine Follows.advance (steady_skipNewlines.bind (fun _ => hvalue)
    (T := fun next rest => next.isSome = true ∧ Solid rest)
    (fun _ _ _ _ _ h => ⟨h.1, h.2.append⟩)).follows ?_
  exact fun next used rest _ h => .of_isSome h.1 h.2.append

theorem steady_pipeStep (left : Node) : Steady more (pipeStep command left) (Found Solid Firm) :=
  steady_atOperator (follows_operand hcommand _) (.pure .nil)

theorem steady_pipeline : Steady more (pipeline command) (fun _ => Solid) := by
  rw [pipeline_eq]
  exact hcommand.bind (fun first => steady_extend (steady_pipeStep hcommand) first)
    (fun _ _ _ _ h h' => h.append_firm h')

theorem steady_listStep (left : Node) : Steady more (listStep command left) (Found Solid Firm) := by
  refine steady_look (q := fun front => front.bind joining?) listOperator_eq (.pure .nil)
    (fun x => ?_)
  rw [Option.bind_some]
  cases hoperator : joining? x.symbol with
  | none => exact .pure .nil
  | some token =>
      exact .begun (kind_of_joining? hoperator) (follows_operand (steady_pipeline hcommand) _)

theorem steady_andOrList : Steady more (andOrList command) (fun _ => Solid) := by
  rw [andOrList_eq]
  exact (steady_pipeline hcommand).bind (fun first => steady_extend (steady_listStep hcommand) first)
    (fun _ _ _ _ h h' => h.append_firm h')

theorem steady_nextStatement (stops : List Token) :
    Steady more (nextStatement command stops) (Found (· ≠ []) (fun _ => True)) := by
  have hstatement : Steady more (do endStatement stops (← andOrList command))
      (Found (· ≠ []) (fun _ => True)) := by
    refine (steady_andOrList hcommand).bind (fun statement => steady_endStatement stops statement) ?_
    rintro _ (_ | _) used rest hused _
    · trivial
    · exact fun hnil => hused.1 (List.append_eq_nil_iff.mp hnil).1
  rw [nextStatement_eq]
  refine steady_skipNewlines.last
    (fun _ => steady_current (.pure trivial) (fun x y hsymbol => ?_)) ?_
  · simp only [Option.all_some, ← stopsAt_eq stops hsymbol]
    exact .cond (fun _ => .pure trivial) (fun _ => hstatement.follows)
  · rintro (_ | _) used rest hrest
    · trivial
    · exact fun hnil => hrest (List.append_eq_nil_iff.mp hnil).2

theorem follows_statements (stops : List Token) (size : Nat) {bound bound' : List Lexeme}
    (hbound : size ≤ bound.length) (hbound' : size ≤ bound'.length) (found : List Node) :
    Follows more (fun items => items.length ≤ size) (statements command stops bound found)
      (statements command stops bound' found) (fun _ _ => True) := by
  have hshorter : ∀ {size : Nat} (next : Option (Node × Following)) (used rest : List Lexeme),
      (used ++ rest).length ≤ size → Found (· ≠ []) (fun _ => True) next used →
        ∀ statement, next = some (statement, .more) → rest.length < size :=
    fun _ _ _ hsize hused _ hnext => hused.shorter (fun _ h => h) (Option.mem_def.mpr hnext) hsize
  induction size generalizing bound bound' found with
  | zero =>
      unfold statements
      refine (steady_nextStatement hcommand stops).follows.bind (S := fun _ _ _ => True)
        (N := fun next rest => ∀ statement, next = some (statement, .more) → rest.length < 0)
        (fun next => ?_) (fun next used rest hsize hused _ => hshorter next used rest hsize hused)
        (fun _ _ _ _ _ _ => trivial)
      rcases next with _ | ⟨statement, _ | _⟩
      · exact .pure trivial
      · exact fun _ _ _ _ hrest => absurd (hrest statement rfl) (Nat.not_lt_zero _)
      · exact .pure trivial
  | succ size ih =>
      obtain ⟨lexeme, bound, rfl⟩ := List.exists_cons_of_length_pos (by omega : 0 < bound.length)
      obtain ⟨lexeme', bound', rfl⟩ := List.exists_cons_of_length_pos (by omega : 0 < bound'.length)
      unfold statements
      refine (steady_nextStatement hcommand stops).follows.bind (S := fun _ _ _ => True)
        (N := fun next rest => ∀ statement, next = some (statement, .more) → rest.length < size + 1)
        (fun next => ?_) (fun next used rest hsize hused _ => hshorter next used rest hsize hused)
        (fun _ _ _ _ _ _ => trivial)
      rcases next with _ | ⟨statement, _ | _⟩
      · exact .pure trivial
      · exact (ih (Nat.le_of_succ_le_succ hbound) (Nat.le_of_succ_le_succ hbound')
          (statement :: found)).weaken
          (fun items hitems => Nat.lt_succ_iff.mp (hitems statement rfl)) (fun _ _ h => h)
      · exact .pure trivial

theorem steady_statementList (stops : List Token) :
    Steady more (statementList command stops) (fun _ _ => True) := by
  intro s t hst hclosed _
  have hbound : s.items.length ≤ t.items.length := by
    rw [hst.length_eq]
    omega
  exact follows_statements hcommand stops s.items.length (Nat.le_refl _) hbound [] s t hst hclosed
    (Nat.le_refl _)

theorem steady_statementBody (stops : List Token) :
    Steady more (statementBody command stops) (fun _ _ => True) := by
  refine (steady_statementList hcommand stops).any (S := fun _ _ _ => True) (fun body => ?_)
  cases body with
  | nil => exact steady_unexpected
  | cons statement rest => exact .pure trivial

theorem steady_condition (stop : Token) :
    Steady more (condition command stop) (fun _ _ => True) := by
  refine (steady_statementBody hcommand [stop]).any (S := fun _ _ _ => True) (fun body => ?_)
  split <;> exact .pure trivial

/-- A whole program: no lexeme is left after its statements. -/
theorem steady_wholeProgram : Steady more (wholeProgram command) (fun _ _ => True) := by
  refine (steady_statementList hcommand []).any (S := fun _ _ _ => True) (fun body => ?_)
  exact steady_current (.pure trivial) (fun x y _ => steady_unexpected.follows)

end Statements

/-! ## Compound commands -/

section Compounds

variable {level : Level} (hcommand : Steady more level.command (fun _ => Solid))

include hcommand

/-- Statements, and then the token that closes them. -/
theorem steady_closed {α : Type} (stops : List Token) (close : Token) (f : List Node → α) :
    Steady more (do
      let body ← statementBody level.command stops
      expect close
      return f body) (fun _ => Solid) :=
  (steady_statementBody hcommand stops).solid (fun _ =>
    (steady_expect close).map (f := fun _ => _) (fun _ _ h => h))

theorem steady_subshell : Steady more level.subshell (fun _ => Solid) :=
  (steady_expect .leftParen).solid (fun _ => steady_closed hcommand _ _ _)

theorem steady_group : Steady more level.group (fun _ => Solid) :=
  (steady_expect .leftBrace).solid (fun _ => steady_closed hcommand _ _ _)

theorem steady_whileLoop : Steady more level.whileLoop (fun _ => Solid) := by
  refine (steady_expect .whileWord).solid (fun _ => ?_)
  refine (steady_condition hcommand .doWord).solid (fun _ => ?_)
  exact (steady_expect .doWord).solid (fun _ => steady_closed hcommand _ _ _)

theorem steady_elifBranch :
    Steady more level.elifBranch (Found (· ≠ []) (fun _ => True)) := by
  refine steady_atToken ?_ (.pure trivial)
  have hbranch : Steady more (do
      let test ← condition level.command .thenWord
      expect .thenWord
      let body ← statementBody level.command [.elifWord, .elseWord, .fiWord]
      return some (Branch.mk test body)) (fun next _ => next.isSome = true) := by
    refine (steady_condition hcommand .thenWord).last (fun _ => ?_) (fun _ _ _ h => h)
    refine (steady_expect .thenWord).last (fun _ => ?_) (fun _ _ _ h => h)
    exact (steady_statementBody hcommand _).map (fun _ _ _ => rfl)
  exact hbranch.follows.advance (fun next used rest hused h => .of_isSome h (by simp [hused.1]))

theorem steady_conditional : Steady more level.conditional (fun _ => Solid) := by
  refine (steady_expect .ifWord).solid (fun _ => ?_)
  refine (steady_condition hcommand .thenWord).solid (fun test => ?_)
  refine (steady_expect .thenWord).solid (fun _ => ?_)
  refine (steady_statementBody hcommand _).solid (fun body => ?_)
  refine (steady_many_any (steady_elifBranch hcommand)).solid (fun elifs => ?_)
  have hlast : ∀ otherwise, Steady more (do
      expect .fiWord
      return Node.conditional test body elifs otherwise) (fun _ => Solid) :=
    fun _ => (steady_expect .fiWord).map (f := fun _ => _) (fun _ _ h => h)
  refine steady_atToken (Follows.advance (R := fun _ => Solid) ?_ (fun _ _ _ _ h => h.append))
    (hlast [])
  exact ((steady_statementBody hcommand [.fiWord]).solid hlast).follows

theorem steady_forLoop : Steady more level.forLoop (fun _ => Solid) := by
  have hname : Steady more Level.loopName (fun _ _ => True) := by
    refine steady_current steady_unexpected (fun x y hsymbol => ?_)
    simp only [← kind_eq hsymbol, ← text_eq hsymbol]
    refine .cond (fun hkind => ?_) (fun _ => steady_unexpected.follows)
    refine .begun (by simp [eq_of_beq hkind]) (.cond (fun _ => ?_) (fun _ => ?_))
    · exact (steady_advance.any (fun _ => .pure (Q := fun _ _ => True) trivial)).follows
    · exact follows_failHere.weaken (fun _ h => h.going) (fun _ _ h => h)
  have hend : Steady more Level.endOfWords (fun _ _ => True) := by
    refine steady_current steady_unexpected (fun x y hsymbol => ?_)
    simp only [Option.map_some, ← kind_eq hsymbol]
    split
    · exact steady_advance.follows
    · exact steady_advance.follows
    · exact steady_unexpected.follows
  refine (steady_expect .forWord).solid (fun _ => hname.solid (fun name => ?_))
  refine steady_skipNewlines.solid (fun _ => (steady_expect .inWord).solid (fun _ => ?_))
  refine steady_words.solid (fun values => hend.solid (fun _ => ?_))
  refine steady_skipNewlines.solid (fun _ => (steady_expect .doWord).solid (fun _ => ?_))
  exact steady_closed hcommand _ _ _

theorem steady_arm : Steady more level.arm (fun _ used => used ≠ []) := by
  have hfurther : Steady more level.furtherPattern (Found (· ≠ []) (fun _ => True)) := by
    refine steady_atOperator ?_ (.pure trivial)
    have hpattern : Steady more (do return some (← anyWord level.program))
        (fun next _ => next.isSome = true) := steady_anyWord.map (fun _ _ _ => rfl)
    exact hpattern.follows.advance (fun next used rest hused h => .of_isSome h (by simp [hused.1]))
  have hpatterns : Steady more (do
      let first ← anyWord level.program
      let others ← many level.furtherPattern
      expect .rightParen
      skipEmptyEnd
      let body ← statementList level.command [.doubleSemicolon, .esacWord]
      return Arm.mk (first :: others) body) (fun _ used => used ≠ []) := by
    have hrest : ∀ first, Steady more (do
        let others ← many level.furtherPattern
        expect .rightParen
        skipEmptyEnd
        let body ← statementList level.command [.doubleSemicolon, .esacWord]
        return Arm.mk (first :: others) body) (fun _ _ => True) := fun first =>
      (steady_many_any hfurther).any (S := fun _ _ _ => True) (fun others =>
        (steady_expect .rightParen).any (S := fun _ _ _ => True) (fun _ =>
          steady_skipEmptyEnd.any (S := fun _ _ _ => True) (fun _ =>
            (steady_statementList hcommand _).map (fun _ _ _ => trivial))))
    exact steady_anyWord.bind hrest (fun _ _ _ _ h _ => by simp [h.1])
  refine steady_atOperator ?_ hpatterns
  exact hpatterns.follows.advance (fun _ _ _ h _ => by simp [h.1])

theorem steady_nextArm : Steady more level.nextArm (Found (· ≠ []) (fun _ => True)) := by
  have hend : ∀ found, Steady more (do
      if ← atOperator .doubleSemicolon then
        advance
        return some found
      else
        skipNewlines
        if ← atToken .esacWord then return some found else unexpected : Grammar (Option Arm))
      (fun next _ => next.isSome = true) := by
    intro found
    have hfound : Steady more (pure (some found)) (fun next _ => next.isSome = true) := .pure rfl
    refine steady_atOperator ?_ ?_
    · exact (steady_advance.last (fun _ => hfound) (fun _ _ _ h => h)).follows
    · refine steady_skipNewlines.last (fun _ => ?_) (fun _ _ _ h => h)
      exact steady_atToken hfound.follows steady_unexpected
  refine steady_skipNewlines.last (fun _ => ?_) ?_
  · refine steady_atToken (.pure trivial) ((steady_arm hcommand).bind hend ?_)
    exact fun _ next used rest hused h => .of_isSome h (by simp [hused])
  · rintro (_ | _) used rest h
    · trivial
    · exact fun hnil => h (List.append_eq_nil_iff.mp hnil).2

theorem steady_choice : Steady more level.choice (fun _ => Solid) := by
  refine (steady_expect .caseWord).solid (fun _ => steady_anyWord.solid (fun subject => ?_))
  refine steady_skipNewlines.solid (fun _ => (steady_expect .inWord).solid (fun _ => ?_))
  refine steady_skipNewlines.solid (fun _ => steady_skipEmptyEnd.solid (fun _ => ?_))
  refine (steady_many_any (steady_nextArm hcommand)).solid (fun arms => ?_)
  exact (steady_expect .esacWord).map (f := fun _ => _) (fun _ _ h => h)

theorem follows_function :
    Follows more Begun level.function level.function (fun _ => Solid) := by
  refine follows_current (fun h => ?_) (fun x y hsymbol => ?_)
  · obtain ⟨_, hx, _⟩ := h
    cases hx
  · refine Follows.weaken (P := Begun) (Q := fun _ => Solid) ?_ (fun _ h => h.1) (fun _ _ h => h)
    refine Follows.advance (R := fun _ => Solid) ?_ (fun _ _ _ _ h => h.append)
    rw [text_eq hsymbol]
    refine .cond (fun _ => Steady.follows ?_) (fun _ => follows_fail rfl)
    refine (steady_expect .leftParen).solid (fun _ => ?_)
    refine (steady_expect .rightParen).solid (fun _ => ?_)
    exact steady_skipNewlines.solid (fun _ => hcommand.map (fun _ _ h => h))

theorem follows_compound {x : Lexeme} {items : List Lexeme} {compound : Level → Grammar Node}
    (h : compound? (x :: items) = some compound) :
    Follows more Begun (compound level) (compound level) (fun _ => Solid) := by
  rcases compound?_eq_some h with ⟨token, htoken⟩ | ⟨rfl, _⟩
  · cases token <;> cases htoken
    · exact (steady_subshell hcommand).follows
    · exact (steady_group hcommand).follows
    · exact (steady_conditional hcommand).follows
    · exact (steady_whileLoop hcommand).follows
    · exact (steady_forLoop hcommand).follows
    · exact (steady_choice hcommand).follows
  · exact follows_function hcommand

end Compounds

/-! ## Commands and programs -/

/-- The look at a pair of parentheses does not reach over the end of closed lexemes. -/
theorem startsFunction_eq {s t : Lexemes} (hst : Lexemes.Prolonged more s t)
    (hclosed : more ≠ [] → Closed s.items) (hbegun : Begun s.items) :
    startsFunction t.items = startsFunction s.items := by
  obtain ⟨x, hx, hkind⟩ := hbegun
  obtain ⟨rest, hrest⟩ := List.head?_eq_some_iff.mp hx
  obtain ⟨items, ht, hitems⟩ := hst
  rw [hrest] at hitems hclosed ⊢
  rw [ht]
  obtain ⟨y, others, rfl, _, hothers⟩ := List.map_eq_cons_iff.mp hitems
  rcases rest with _ | ⟨second, _ | ⟨third, rest⟩⟩
  · obtain rfl := List.map_eq_nil_iff.mp hothers
    by_cases hmore : more = []
    · rw [hmore]
      rfl
    · exact absurd (hclosed hmore x rfl) hkind
  · obtain ⟨second', others, rfl, hsecond, hnil⟩ := List.map_eq_cons_iff.mp hothers
    obtain rfl := List.map_eq_nil_iff.mp hnil
    cases more with
    | nil => rfl
    | cons lexeme more =>
        have hnewline : second'.kind = .newline := by
          rw [kind_eq hsecond]
          exact hclosed (List.cons_ne_nil _ _) second rfl
        simp [startsFunction, hnewline]
  · obtain ⟨second', others, rfl, hsecond, hothers⟩ := List.map_eq_cons_iff.mp hothers
    obtain ⟨third', others, rfl, hthird, _⟩ := List.map_eq_cons_iff.mp hothers
    simp [startsFunction, kind_eq hsecond, kind_eq hthird]

theorem compound?_eq {s t : Lexemes} (hst : Lexemes.Prolonged more s t)
    (hclosed : more ≠ [] → Closed s.items) (hs : s.items ≠ []) :
    compound? t.items = compound? s.items := by
  obtain ⟨x, hx⟩ := Option.ne_none_iff_exists'.mp (mt List.head?_eq_none_iff.mp hs)
  obtain ⟨y, hy, hsymbol⟩ := hst.front hx
  have hfunction : x.kind ≠ .newline → startsFunction t.items = startsFunction s.items :=
    fun hkind => startsFunction_eq hst hclosed ⟨x, hx, hkind⟩
  obtain ⟨rest, hrest⟩ := List.head?_eq_some_iff.mp hx
  obtain ⟨rest', hrest'⟩ := List.head?_eq_some_iff.mp hy
  rw [hrest, hrest'] at hfunction ⊢
  unfold compound? Lexeme.reserved?
  simp only [← kind_eq hsymbol, ← text_eq hsymbol]
  cases hkind : x.kind with
  | newline => rfl
  | _ => simp only [hfunction (by simp [hkind])]

theorem begun_of_compound? {x : Lexeme} {items : List Lexeme} {compound : Level → Grammar Node}
    (h : compound? (x :: items) = some compound) : Begun (x :: items) := by
  refine ⟨x, rfl, fun hkind => ?_⟩
  unfold compound? at h
  simp only [hkind] at h
  cases h

theorem commandOn_nil {below : Option Level} {stream : Lexemes} (h : stream.items = []) :
    commandOn below program stream = (unexpected : Grammar Node) stream := by
  rw [commandOn_run, h]
  rfl

theorem steady_commandOn {below : Option Level}
    (hbelow : ∀ level ∈ below, Steady more level.command (fun _ => Solid)) :
    Steady more (commandOn below program) (fun _ => Solid) := by
  intro s t hst hclosed _
  by_cases hs : s.items = []
  · rw [commandOn_nil hs]
    by_cases hmore : more = []
    · rw [commandOn_nil (hst.eq_nil hs hmore)]
      exact steady_unexpected s t hst hclosed trivial
    · exact (steady_unexpected s _ (.nil hs s.finish) hclosed trivial).of_nil hs hmore _
  · obtain ⟨x, hx⟩ := Option.ne_none_iff_exists'.mp (mt List.head?_eq_none_iff.mp hs)
    obtain ⟨y, hy, hsymbol⟩ := hst.front hx
    rw [commandOn_run, commandOn_run, compound?_eq hst hclosed hs]
    cases hcompound : compound? s.items with
    | none =>
        have hsimple : startsSimple y = startsSimple x := by
          unfold startsSimple Lexeme.reserved?
          simp only [kind_eq hsymbol, text_eq hsymbol]
        simp only [hx, hy, Option.any_some, hsimple]
        split
        · exact steady_simpleCommand s t hst hclosed trivial
        · exact steady_unexpected s t hst hclosed trivial
    | some compound =>
        cases below with
        | none => exact .error (.inr hs) rfl
        | some level =>
            obtain ⟨rest, hrest⟩ := List.head?_eq_some_iff.mp hx
            have hbegun : Begun s.items := hrest ▸ begun_of_compound? (hrest ▸ hcompound)
            exact follows_compound (hbelow level rfl) (hrest ▸ hcompound) s t hst hclosed hbegun

theorem steady_command (room : Nat) :
    Steady more (Level.atRoom room).command (fun _ => Solid) := by
  induction room with
  | zero => exact steady_commandOn (by simp)
  | succ room ih =>
      refine steady_commandOn ?_
      rintro level ⟨⟩
      exact ih

theorem steady_program (room : Nat) :
    Steady more (wholeProgram (Level.atRoom room).command) (fun _ _ => True) :=
  steady_wholeProgram (steady_command room)

end Conch.Syntax.Grammar
