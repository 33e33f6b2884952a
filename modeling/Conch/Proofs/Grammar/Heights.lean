import Conch.Proofs.Grammar.Sound
import Conch.Proofs.Grammar.Steady
import Conch.Proofs.Grammar.Takes
import Conch.Proofs.Parsing
import Conch.Proofs.Words.Heights

/-!
# How high a program is

A tree that the grammar reads has at most eight levels for each character of its text.
So what is written inside an expansion is lower than the expansion counts as itself
(`parseWord_height`).
-/

namespace Conch.Syntax

namespace Grammar

open Node

/-- At most eight levels for each unit of weight, and so many more. -/
def Low (more : Nat) (n : Nat) (node : Node) : Prop := node.height ≤ 8 * n + more

/-- The same of everything in a list. -/
def AllLow (more : Nat) (n : Nat) (nodes : List Node) : Prop := ∀ node ∈ nodes, Low more n node

theorem Low.mono {more k : Nat} (n : Nat) {node : Node} (h : Low more k node) :
    Low more (k + n) node := by
  unfold Low at h ⊢
  omega

theorem Low.mono_le {more k n : Nat} {node : Node} (h : Low more k node) (hle : k ≤ n) :
    Low more n node := by
  unfold Low at h ⊢
  omega

theorem AllLow.heights {more n : Nat} {nodes : List Node} (h : AllLow more n nodes) :
    Node.heights nodes ≤ 8 * n + more := Node.heights_le h

/-! ## Simple commands -/

section Words

variable {program : Word.ProgramParser} (hprogram : program.Bounded)

include hprogram

theorem takes_wordOf (lexeme : Lexeme) (hkind : lexeme.kind = .word) :
    Takes (wordOf program lexeme) fun _ node => Low 1 lexeme.weight node := by
  intro stream node rest h
  obtain ⟨parts, rfl, hparse⟩ := wordOf_eq_ok h
  refine ⟨0, by rw [wordOf_rest h, Nat.zero_add], ?_⟩
  have hheight := Word.parse_height hprogram hparse
  rw [String.length_toList] at hheight
  change (Node.word parts).height ≤ 8 * lexeme.weight + 1
  rw [Node.height, Lexeme.weight, hkind]
  exact Nat.succ_le_succ hheight

/-- A word at the front. -/
theorem takesAt_word {lexeme : Lexeme} (hkind : lexeme.kind = .word) (items : List Lexeme)
    (finish : Position) :
    TakesAt ⟨lexeme :: items, finish⟩ (do advance; wordOf program lexeme) (Low 1) :=
  .advance ((takes_wordOf hprogram lexeme hkind).weaken fun m _ h => h.mono m)

/-- The same as a word found. -/
theorem takesAt_someWord {lexeme : Lexeme} (hkind : lexeme.kind = .word) (items : List Lexeme)
    (finish : Position) :
    TakesAt ⟨lexeme :: items, finish⟩ (do advance; return some (← wordOf program lexeme))
      fun n found => ∀ node ∈ found, Low 1 n node := by
  refine .advance ((takes_wordOf hprogram lexeme hkind).bind fun n node hnode => .pure ?_)
  rintro other ⟨⟩
  exact hnode.mono _

theorem takes_anyWord : Takes (anyWord program) (Low 1) := by
  refine takes_current takes_unexpected fun lexeme items finish => ?_
  exact TakesAt.cond (fun hkind => takesAt_word hprogram (eq_of_beq hkind) items finish)
    (takes_unexpected _)

theorem takes_words : Takes (words program) (AllLow 1) := by
  have hnone : Takes (pure none : Grammar (Option Node)) fun n found =>
      ∀ node ∈ found, Low 1 n node := .pure (by simp)
  refine takes_many (fun k n a h => h.mono n) (takes_current hnone fun lexeme items finish => ?_)
  exact TakesAt.cond (fun hkind => takesAt_someWord hprogram (eq_of_beq hkind) items finish)
    (hnone _)

theorem takes_redirection (descriptor : Option Nat) :
    Takes (redirection program descriptor) (Low 2) := by
  refine takes_current takes_unexpected fun lexeme items finish => ?_
  rw [Option.map_some]
  split
  · refine .cond (fun _ => ?_) (takes_unexpected _)
    refine .advance ((takes_anyWord hprogram).bind fun n target htarget => .pure ?_)
    unfold Low at htarget ⊢
    rw [Node.height]
    omega
  · exact takes_unexpected _

theorem takes_argument : Takes (argument program) fun n found => ∀ node ∈ found, Low 2 n node := by
  have hnone : Takes (pure none : Grammar (Option Node)) fun n found =>
      ∀ node ∈ found, Low 2 n node := .pure (by simp)
  have hredirection : ∀ k descriptor,
      Takes (do return some (← redirection program descriptor)) fun n found =>
        ∀ node ∈ found, Low 2 (k + n) node := by
    intro k descriptor
    refine (takes_redirection hprogram descriptor).bind fun n node hnode => .pure ?_
    rintro other ⟨⟩
    rw [Nat.add_comm]
    exact hnode.mono k
  refine takes_current hnone fun lexeme items finish => ?_
  dsimp only
  split
  · rename_i hkind
    intro found rest h
    obtain ⟨n, hweight, hfound⟩ := takesAt_someWord hprogram hkind items finish found rest h
    exact ⟨n, hweight, fun node hnode => Nat.le_succ_of_le (hfound node hnode)⟩
  · exact .advance (.cond (hredirection _ _) takes_failHere)
  · refine .cond (fun _ => ?_) (hnone _)
    exact ((hredirection 0 none).weaken fun n found h => by simpa using h) _
  · exact hnone _

theorem takes_simpleCommand : Takes (simpleCommand program) (Low 3) := by
  refine (takes_many (fun k n a h => h.mono n) (takes_argument hprogram)).bind fun n args hargs => ?_
  refine .cond takes_unexpected (.pure ?_)
  have hheight := Node.heights_le hargs
  unfold Low
  rw [Node.height]
  omega

end Words

/-! ## Lists of statements -/

/-- An operator between two trees adds a level and is itself read. -/
theorem Low.binary {k m n : Nat} {op : Token} {left right : Node} (hleft : Low 3 k left)
    (hright : Low 3 m right) (h : k + m < n) : Low 3 n (.binary op left right) := by
  unfold Low at hleft hright ⊢
  rw [Node.height]
  omega

theorem weight_pos_of_joining {lexeme : Lexeme} {token : Token}
    (h : joining? lexeme.symbol = some token) : 0 < lexeme.weight := by
  refine Lexeme.weight_pos (?_ : lexeme.token? = some token)
  rw [Lexeme.token?_eq]
  unfold joining? at h
  unfold Symbol.token?
  split at h <;> simp_all

section Statements

variable {command : Grammar Node} (hcommand : Takes command (Low 3))

include hcommand

theorem takes_pipeline : Takes (pipeline command) (Low 3) := by
  refine hcommand.bind fun n first hfirst => takes_remaining.bind fun m bound _ => ?_
  refine (takes_extend (fun k n a h => h.mono n) (fun k left hleft => ?_) bound n hfirst).weaken
    fun i node hnode => hnode.mono_le (by omega)
  refine takes_ifOperator .pipe (fun n hn => takes_skipNewlines.bind fun m _ _ =>
    hcommand.bind fun i right hright => .pure ?_) (.pure (by simp))
  rintro node ⟨⟩
  exact hleft.binary hright (by omega)

theorem takes_andOrList : Takes (andOrList command) (Low 3) := by
  have hpipeline := takes_pipeline hcommand
  refine hpipeline.bind fun n first hfirst => takes_remaining.bind fun m bound _ => ?_
  refine (takes_extend (fun k n a h => h.mono n) (fun k left hleft => ?_) bound n hfirst).weaken
    fun i node hnode => hnode.mono_le (by omega)
  have hnone : Takes (pure none : Grammar (Option Node)) fun n next =>
      ∀ node ∈ next, Low 3 (k + n) node := .pure (by simp)
  rintro ⟨_ | ⟨lexeme, items⟩, finish⟩
  · exact .look (listOperator_eq [] finish) (hnone _)
  refine .look (listOperator_eq (lexeme :: items) finish) ?_
  rw [frontOf_cons, Option.bind_some]
  cases hjoin : joining? lexeme.symbol with
  | none => exact hnone _
  | some token =>
      have hweight := weight_pos_of_joining hjoin
      refine TakesAt.advance (takes_skipNewlines.bind fun m _ _ =>
        hpipeline.bind fun i right hright => .pure ?_)
      rintro node ⟨⟩
      exact hleft.binary hright (by omega)

omit hcommand in
theorem takes_endOfStatement (stops : List Token) :
    Takes (endOfStatement stops) fun _ _ => True := by
  refine takes_current (.pure trivial) fun lexeme items finish => ?_
  refine TakesAt.cond (fun _ => .advance (.pure trivial)) ?_
  exact Takes.cond (.pure trivial) takes_unexpected _

theorem takes_nextStatement (stops : List Token) :
    Takes (nextStatement command stops) fun n found => ∀ next ∈ found, Low 3 n next.1 := by
  refine takes_skipNewlines.bind fun k _ _ => takes_front.bind fun n front _ => ?_
  refine .cond (.pure (by simp)) ((takes_andOrList hcommand).bind fun m statement hstatement => ?_)
  refine (takes_atOperator .ampersand).bind fun i _ _ => .cond ?_ ?_
  · split
    · rename_i args background
      have hlast : ∀ j, Takes (pure (some (Node.command args true, Following.more))) fun l found =>
          ∀ next ∈ found, Low 3 (k + (n + (m + (i + (j + l))))) next.1 := by
        refine fun j => .pure ?_
        rintro next ⟨⟩
        exact Low.mono_le hstatement (by omega)
      refine takes_advance.bind fun j _ _ => (takes_atOperator .semicolon).bind fun l _ _ => ?_
      refine .cond (takes_advance.bind fun o _ _ => ?_) ?_
      · simpa only [Nat.add_assoc] using hlast (j + (l + o))
      · simpa only [Nat.add_assoc] using hlast (j + l)
    · exact takes_failHere
  · refine (takes_endOfStatement stops).bind fun j following _ => .pure ?_
    rintro next ⟨⟩
    exact hstatement.mono_le (by omega)

theorem takes_statements (stops : List Token) (bound : List Lexeme) (k : Nat) {found : List Node}
    (hfound : AllLow 3 k found) :
    Takes (statements command stops bound found) fun n body => AllLow 3 (k + n) body := by
  have hmore : ∀ {k n : Nat} {found : List Node} {statement : Node}, AllLow 3 k found →
      Low 3 n statement → AllLow 3 (k + n) (statement :: found) := by
    intro k n found statement hfound hstatement
    refine List.forall_mem_cons.mpr ⟨hstatement.mono_le (by omega), fun other hother => ?_⟩
    exact (hfound other hother).mono n
  have hlast : ∀ {k n : Nat} {found : List Node}, AllLow 3 k found →
      Takes (pure found.reverse : Grammar (List Node)) fun m body => AllLow 3 (k + (n + m)) body :=
    fun hfound => .pure fun other hother => (hfound other (List.mem_reverse.mp hother)).mono _
  have hend : ∀ {k n : Nat} {found : List Node} {statement : Node}, AllLow 3 k found →
      Low 3 n statement →
      Takes (pure (statement :: found).reverse : Grammar (List Node)) fun m body =>
        AllLow 3 (k + (n + m)) body := by
    intro k n found statement hfound hstatement
    refine .pure fun other hother => ?_
    exact hmore hfound hstatement other (List.mem_reverse.mp hother)
  induction bound generalizing k found with
  | nil =>
      unfold statements
      refine (takes_nextStatement hcommand stops).bind fun n next hnext => ?_
      rcases next with _ | ⟨statement, _ | _⟩
      · exact hlast hfound
      · exact hend hfound (hnext _ rfl)
      · exact hend hfound (hnext _ rfl)
  | cons lexeme bound ih =>
      unfold statements
      refine (takes_nextStatement hcommand stops).bind fun n next hnext => ?_
      rcases next with _ | ⟨statement, _ | _⟩
      · exact hlast hfound
      · refine (ih (k + n) (hmore hfound (hnext _ rfl))).weaken fun m body h => ?_
        rwa [← Nat.add_assoc]
      · exact hend hfound (hnext _ rfl)

theorem takes_statementList (stops : List Token) :
    Takes (statementList command stops) (AllLow 3) :=
  takes_remaining.bind fun n bound _ =>
    (takes_statements hcommand stops bound 0 (by simp [AllLow])).weaken fun m body h node hnode =>
      (h node hnode).mono_le (by omega)

theorem takes_statementBody (stops : List Token) :
    Takes (statementBody command stops) (AllLow 3) :=
  (takes_statementList hcommand stops).bind fun _ _ hbody => .cond takes_unexpected (.pure hbody)

theorem takes_condition (stop : Token) : Takes (condition command stop) (Low 4) := by
  refine (takes_statementBody hcommand [stop]).bind fun n body hbody => ?_
  split
  · rename_i statement
    exact .pure (Nat.le_succ_of_le (hbody statement (by simp)))
  · refine .pure ?_
    have hheights := hbody.heights
    unfold Low
    rw [Node.height]
    omega

end Statements

/-! ## Compound commands -/

section Compounds

variable {level : Level} (hcommand : Takes level.command (Low 3))

section Bodies

include hcommand

theorem takes_subshell : Takes level.subshell (Low 3) := by
  refine (takes_expect .leftParen).bind fun n _ hn => ?_
  refine (takes_statementBody hcommand [.rightParen]).bind fun m body hbody => ?_
  refine (takes_expect .rightParen).bind fun i _ hi => .pure ?_
  have hheights := hbody.heights
  unfold Low
  rw [Node.height]
  omega

theorem takes_group : Takes level.group (Low 3) := by
  refine (takes_expect .leftBrace).bind fun n _ hn => ?_
  refine (takes_statementBody hcommand [.rightBrace]).bind fun m body hbody => ?_
  refine (takes_expect .rightBrace).bind fun i _ hi => .pure ?_
  have hheights := hbody.heights
  unfold Low
  rw [Node.height]
  omega

theorem takes_whileLoop : Takes level.whileLoop (Low 3) := by
  refine (takes_expect .whileWord).bind fun n _ hn => ?_
  refine (takes_condition hcommand .doWord).bind fun m test htest => ?_
  refine (takes_expect .doWord).bind fun i _ hi => ?_
  refine (takes_statementBody hcommand [.doneWord]).bind fun j body hbody => ?_
  refine (takes_expect .doneWord).bind fun l _ hl => .pure ?_
  have hheights := hbody.heights
  unfold Low at htest ⊢
  rw [Node.height]
  omega

theorem takes_elifBranch :
    Takes level.elifBranch fun n found => ∀ branch ∈ found, branch.height ≤ 8 * n := by
  refine (takes_atToken .elifWord).bind fun k _ _ => ?_
  refine .cond (takes_advance.bind fun n _ _ => ?_) (.pure (by simp))
  refine (takes_condition hcommand .thenWord).bind fun m test htest => ?_
  refine (takes_expect .thenWord).bind fun i _ hi => ?_
  refine (takes_statementBody hcommand _).bind fun j body hbody => .pure ?_
  rintro branch ⟨⟩
  have hheights := hbody.heights
  unfold Low at htest
  rw [Branch.height]
  omega

theorem takes_conditional : Takes level.conditional (Low 3) := by
  refine (takes_expect .ifWord).bind fun n _ hn => ?_
  refine (takes_condition hcommand .thenWord).bind fun m test htest => ?_
  refine (takes_expect .thenWord).bind fun i _ hi => ?_
  refine (takes_statementBody hcommand _).bind fun j body hbody => ?_
  refine (takes_many (P := fun n branch => branch.height ≤ 8 * n) (fun k n branch h => by omega)
    (takes_elifBranch hcommand)).bind fun l elifs helifs => ?_
  have hlast : ∀ k {otherwise : List Node}, AllLow 3 k otherwise →
      Takes (do
        expect .fiWord
        return Node.conditional test body elifs otherwise)
        fun o node => Low 3 (n + (m + (i + (j + (l + (k + o)))))) node := by
    intro k otherwise hotherwise
    refine (takes_expect .fiWord).bind fun o _ ho => .pure ?_
    have hbodies := hbody.heights
    have hbranches := Branch.heights_le helifs
    have hothers := hotherwise.heights
    unfold Low at htest ⊢
    rw [Node.height]
    omega
  refine (takes_atToken .elseWord).bind fun k _ _ => .cond ?_ ?_
  · refine takes_advance.bind fun o _ _ => ?_
    refine (takes_statementBody hcommand [.fiWord]).bind fun r otherwise hotherwise => ?_
    refine (hlast (k + (o + r)) fun node hnode => (hotherwise node hnode).mono_le (by omega)).weaken
      fun u node hnode => hnode.mono_le (by omega)
  · exact hlast k fun node hnode => absurd hnode (by simp)

theorem takes_function : Takes level.function (Low 3) := by
  refine takes_current takes_unexpected fun lexeme items finish => .advance (.cond ?_ takes_failAt)
  refine (takes_expect .leftParen).bind fun n _ hn => ?_
  refine (takes_expect .rightParen).bind fun m _ hm => takes_skipNewlines.bind fun i _ _ => ?_
  refine hcommand.bind fun j body hbody => .pure ?_
  unfold Low at hbody ⊢
  rw [Node.height]
  omega

end Bodies

theorem takes_loopName : Takes Level.loopName fun _ _ => True := by
  refine takes_current takes_unexpected fun lexeme items finish => ?_
  refine TakesAt.cond (fun _ => ?_) (takes_unexpected _)
  exact TakesAt.cond (fun _ => .advance (.pure trivial)) (takes_failHere _)

theorem takes_endOfWords : Takes Level.endOfWords fun _ _ => True := by
  refine takes_front.bind fun _ front _ => ?_
  split
  · exact takes_advance.weaken fun _ _ _ => trivial
  · exact takes_advance.weaken fun _ _ _ => trivial
  · exact takes_unexpected

variable (hprogram : level.program.Bounded)

include hcommand hprogram

theorem takes_forLoop : Takes level.forLoop (Low 3) := by
  refine (takes_expect .forWord).bind fun n _ hn => takes_loopName.bind fun m name _ => ?_
  refine takes_skipNewlines.bind fun i _ _ => (takes_expect .inWord).bind fun j _ hj => ?_
  refine (takes_words hprogram).bind fun k values hvalues => takes_endOfWords.bind fun l _ _ => ?_
  refine takes_skipNewlines.bind fun o _ _ => (takes_expect .doWord).bind fun p _ hp => ?_
  refine (takes_statementBody hcommand [.doneWord]).bind fun q body hbody => ?_
  refine (takes_expect .doneWord).bind fun r _ hr => .pure ?_
  have hwords := hvalues.heights
  have hbodies := hbody.heights
  unfold Low
  rw [Node.height]
  omega

theorem takes_arm : Takes level.arm fun n arm => arm.height ≤ 8 * n := by
  have hfurther : Takes level.furtherPattern fun n found => ∀ node ∈ found, Low 1 n node := by
    refine (takes_atOperator .pipe).bind fun k _ _ => ?_
    refine .cond (takes_advance.bind fun n _ _ => ?_) (.pure (by simp))
    refine (takes_anyWord hprogram).bind fun m node hnode => .pure ?_
    rintro other ⟨⟩
    exact hnode.mono_le (by omega)
  have hrest : ∀ k, Takes (do
      let first ← anyWord level.program
      let others ← many level.furtherPattern
      expect .rightParen
      skipEmptyEnd
      let body ← statementList level.command [.doubleSemicolon, .esacWord]
      return Arm.mk (first :: others) body) fun n arm => arm.height ≤ 8 * (k + n) := by
    intro k
    refine (takes_anyWord hprogram).bind fun n first hfirst => ?_
    refine (takes_many (fun k n a h => h.mono n) hfurther).bind fun m others hothers => ?_
    refine (takes_expect .rightParen).bind fun i _ hi => takes_skipEmptyEnd.bind fun j _ _ => ?_
    refine (takes_statementList hcommand _).bind fun l body hbody => .pure ?_
    have hpatterns := AllLow.heights hothers
    have hheights := hbody.heights
    unfold Low at hfirst
    rw [Arm.height, Node.heights]
    omega
  refine (takes_atOperator .leftParen).bind fun k _ _ => .cond ?_ (hrest k)
  exact takes_advance.bind fun n _ _ => (hrest (k + n)).weaken fun m arm h => by omega

theorem takes_nextArm :
    Takes level.nextArm fun n found => ∀ arm ∈ found, arm.height ≤ 8 * n := by
  refine takes_skipNewlines.bind fun k _ _ => (takes_atToken .esacWord).bind fun n _ _ => ?_
  refine .cond (.pure (by simp)) ((takes_arm hcommand hprogram).bind fun m arm harm => ?_)
  have hsome : ∀ l, Takes (pure (some arm) : Grammar (Option Arm)) fun o found =>
      ∀ arm ∈ found, arm.height ≤ 8 * (k + (n + (m + (l + o)))) := by
    refine fun l => .pure ?_
    rintro other ⟨⟩
    omega
  refine (takes_atOperator .doubleSemicolon).bind fun l _ _ => .cond ?_ ?_
  · refine takes_advance.bind fun o _ _ => ?_
    simpa only [Nat.add_assoc] using hsome (l + o)
  · refine takes_skipNewlines.bind fun o _ _ => (takes_atToken .esacWord).bind fun p _ _ => ?_
    refine .cond ?_ takes_unexpected
    simpa only [Nat.add_assoc] using hsome (l + (o + p))

theorem takes_choice : Takes level.choice (Low 3) := by
  refine (takes_expect .caseWord).bind fun n _ hn => ?_
  refine (takes_anyWord hprogram).bind fun m subject hsubject => ?_
  refine takes_skipNewlines.bind fun i _ _ => (takes_expect .inWord).bind fun j _ hj => ?_
  refine takes_skipNewlines.bind fun k _ _ => takes_skipEmptyEnd.bind fun l _ _ => ?_
  refine (takes_many (P := fun n arm => arm.height ≤ 8 * n) (fun k n arm h => by omega)
    (takes_nextArm hcommand hprogram)).bind fun o arms harms => ?_
  refine (takes_expect .esacWord).bind fun p _ hp => .pure ?_
  have hheights := Arm.heights_le harms
  unfold Low at hsubject ⊢
  rw [Node.height]
  omega

theorem takes_compound {items : List Lexeme} {compound : Level → Grammar Node}
    (h : compound? items = some compound) : Takes (compound level) (Low 3) := by
  cases items with
  | nil => cases h
  | cons lexeme items =>
      rcases compound?_eq_some h with ⟨token, htoken⟩ | ⟨rfl, _⟩
      · cases token <;> cases htoken
        · exact takes_subshell hcommand
        · exact takes_group hcommand
        · exact takes_conditional hcommand
        · exact takes_whileLoop hcommand
        · exact takes_forLoop hcommand hprogram
        · exact takes_choice hcommand hprogram
      · exact takes_function hcommand

end Compounds

/-! ## Commands and programs -/

theorem takes_command {below : Option Level} {program : Word.ProgramParser}
    (hbelow : ∀ level ∈ below, Takes level.command (Low 3) ∧ level.program.Bounded)
    (hprogram : program.Bounded) : Takes (commandOn below program) (Low 3) := by
  intro stream node rest h
  rw [commandOn_run] at h
  cases hcompound : compound? stream.items with
  | some compound =>
      simp only [hcompound] at h
      cases below with
      | none => cases h
      | some level =>
          obtain ⟨hcommand, hlevel⟩ := hbelow level rfl
          exact takes_compound hcommand hlevel hcompound stream node rest h
  | none =>
      simp only [hcompound] at h
      split at h
      · exact takes_simpleCommand hprogram stream node rest h
      · exact takes_unexpected stream node rest h

theorem takes_wholeProgram {command : Grammar Node} (hcommand : Takes command (Low 3)) :
    Takes (wholeProgram command) (AllLow 3) := by
  refine (takes_statementList hcommand []).bind fun n body hbody => ?_
  refine takes_current (.pure fun node hnode => (hbody node hnode).mono 0) fun lexeme items finish =>
    ?_
  exact takes_unexpected _

end Grammar

/-! ## Texts -/

theorem Cursor.lexeme_weight {c : Char} {rest : List Char} {position : Position} {found : Lexeme}
    {cursor : Cursor} (h : Cursor.lexeme c rest position = .ok (some found, cursor)) :
    found.weight + cursor.rest.length ≤ rest.length + 1 := by
  unfold Cursor.lexeme at h
  split at h
  · cases h
  split at h
  · cases h
    simp [Lexeme.weight]
  split at h
  · rename_i token size hoperator
    have hsize := operator?_size hoperator
    cases h
    simp only [Lexeme.weight, List.length_drop, List.length_cons]
    omega
  split at h
  · rename_i digits _
    cases h
    simp only [Lexeme.weight, List.length_drop, List.length_cons]
    omega
  · split at h
    · cases h
    · rename_i text _ hword
      cases h
      have hlength := readWord_length hword
      simpa [Lexeme.weight] using hlength

/-- The lexemes of a text weigh no more than the text is long. -/
theorem Lexemes.read_weight {found : List Lexeme} {text : List Char} {position : Position}
    {stream : Lexemes} (h : Lexemes.read found text position = .ok stream) :
    stream.weight ≤ Lexeme.weights found + text.length := by
  fun_induction Lexemes.read found text position with
  | case1 => cases h
  | case2 found text position finish _ =>
      cases h
      exact Nat.le_add_right_of_le (Nat.le_of_eq (Lexeme.weights_reverse found))
  | case3 => cases h
  | case4 found text position c rest position' hskip cursor hlexeme ih =>
      have hblanks := Cursor.skipBlanks_spec hskip
      have hlength := Cursor.lexeme_length_lt (hblanks.2 c rfl) hlexeme
      have hle := ih h
      have hshort := hblanks.1
      simp only at hshort
      omega
  | case5 found text position c rest position' hskip lexeme cursor hlexeme ih =>
      have hshort := (Cursor.skipBlanks_spec hskip).1
      have hweight := Cursor.lexeme_weight hlexeme
      have hle := ih h
      simp only [Lexeme.weights, List.length_cons] at hle hshort
      omega

theorem programOf_height {command : Grammar Node} (hcommand : Grammar.Takes command (Grammar.Low 3))
    {text : List Char} {program : Program} (h : programOf command text = .ok program) :
    Node.heights program ≤ 8 * text.length + 3 := by
  obtain ⟨_, stream, rest, hstream, hread⟩ := programOf_eq_ok.mp h
  obtain ⟨n, hweight, hlow⟩ := Grammar.takes_wholeProgram hcommand stream program rest hread
  have hheights := hlow.heights
  have hlength := Lexemes.read_weight hstream
  rw [Lexeme.weights, Nat.zero_add] at hlength
  omega

theorem Level.atRoom_low (room : Nat) :
    Grammar.Takes (Level.atRoom room).command (Grammar.Low 3) ∧
      (Level.atRoom room).program.Bounded := by
  induction room with
  | zero =>
      have hprogram : (Level.atRoom 0).program.Bounded := fun body program h =>
        absurd (Failure.errorOf_eq_ok h) refusedProgram_ne_ok
      exact ⟨Grammar.takes_command (by simp) hprogram, hprogram⟩
  | succ room ih =>
      have hprogram : (Level.atRoom (room + 1)).program.Bounded := fun body program h =>
        programOf_height ih.1 (Failure.errorOf_eq_ok h)
      refine ⟨Grammar.takes_command ?_ hprogram, hprogram⟩
      rintro level ⟨⟩
      exact ih

/-- What a text spells is lower than the text counts. -/
theorem parseWord_height {text : String} {position : Position} {depth : Nat} {parts : List Node}
    (h : parseWord text position depth = .ok parts) : Node.heights parts < textHeight text := by
  have hheight := Word.parse_height (Level.atRoom_low _).2 h
  rw [String.length_toList] at hheight
  unfold textHeight
  omega

end Conch.Syntax
