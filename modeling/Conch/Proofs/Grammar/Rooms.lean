import Conch.Proofs.Grammar.Sound
import Conch.Proofs.Parsing
import Conch.Proofs.Words.Fragments

/-!
# Programs with other room

The levels that are left matter to the parser only where they are used up.  `g.Repeats h`
says that the grammar `h` reads whatever `g` reads, as far as the result does not nest too
deep; so a program that was read is read again with any room that its nesting allows
(`programOf_atRoom`).
-/

namespace Conch.Syntax

/-! ## Words -/

namespace Word

variable {parse parse' : ProgramParser} {place : List Char → Position} {room : Nat}

/-- The other parser reads the programs that leave a level. -/
def ProgramParser.Repeats (room : Nat) (parse parse' : ProgramParser) : Prop :=
  ∀ source body, parse source = .ok body → Node.nestings body < room → parse' source = .ok body

variable (hparse : parse.Repeats room parse')

theorem flush_nesting (letters : List Char) {found : List Node} :
    (∀ n ∈ flush letters found, n.nesting ≤ room) ↔ ∀ n ∈ found, n.nesting ≤ room := by
  unfold flush
  split
  · exact Iff.rfl
  · simp [Node.nesting]

include hparse

theorem substitution_repeats {body rest after : List Char} {n : Node}
    (h : substitution parse body rest = .ok (some (n, after))) (hn : n.nesting ≤ room) :
    substitution parse' body rest = .ok (some (n, after)) := by
  obtain ⟨program, rfl, hprogram, rfl⟩ := substitution_eq_ok h
  rw [Node.nesting] at hn
  rw [substitution, hparse body program hprogram hn]

theorem expansion_repeats {text : List Char} {found : Option (Node × List Char)}
    (h : expansion parse place text = .ok found)
    (hfound : ∀ n after, found = some (n, after) → n.nesting ≤ room) :
    expansion parse' place text = .ok found := by
  have hsubstitution : ∀ {body rest : List Char}, substitution parse body rest = .ok found →
      substitution parse' body rest = .ok found := by
    intro body rest h
    rcases found with _ | ⟨n, after⟩
    · unfold substitution at h
      split at h <;> cases h
    · exact substitution_repeats hparse h (hfound n after rfl)
  unfold expansion at h ⊢
  split at h
  · split at h
    · cases h
    · split at h
      · exact h
      · exact hsubstitution h
  · split at h
    · cases h
    · exact hsubstitution h
  · exact h
  · exact h
  · exact h

theorem quotedFragments_repeats {letters text rest : List Char} {found nodes : List Node}
    (h : quotedFragments parse place letters found text = .ok (nodes, rest))
    (hnodes : ∀ n ∈ nodes, n.nesting ≤ room) :
    (∀ n ∈ found, n.nesting ≤ room) ∧
      quotedFragments parse' place letters found text = .ok (nodes, rest) := by
  fun_induction quotedFragments parse place letters found text with
  | case1 letters found =>
      cases h
      exact ⟨(flush_nesting _).mp (by simpa using hnodes), by rw [quotedFragments]⟩
  | case2 letters found after =>
      cases h
      exact ⟨(flush_nesting _).mp (by simpa using hnodes), quotedFragments_end after⟩
  | case3 letters found =>
      cases h
      exact ⟨(flush_nesting _).mp (by simpa using hnodes), by rw [quotedFragments]⟩
  | case4 letters found c after ih =>
      rw [quotedFragments_escape]
      exact ih h
  | case5 => cases h
  | case6 letters found after hnone ih =>
      rw [quotedFragments_dollar, expansion_repeats hparse hnone fun _ _ h => by cases h]
      exact ih h
  | case7 letters found after n next hnode ih =>
      obtain ⟨hfound, hnext⟩ := ih h
      rw [quotedFragments_dollar, expansion_repeats hparse hnode ?_]
      · exact ⟨(flush_nesting letters).mp fun n hn => hfound n (by simp [hn]), hnext⟩
      · rintro m after' ⟨⟩
        exact hfound n (by simp)
  | case8 letters found c after hquote hlast hescape hdollar ih =>
      have hslash : c ≠ '\\' := by
        rintro rfl
        cases after with
        | nil => exact hlast rfl rfl
        | cons d more => exact hescape d more rfl rfl
      rw [quotedFragments_letter hquote hslash hdollar]
      exact ih h

theorem fragments_repeats {letters text : List Char} {found nodes : List Node}
    (h : fragments parse place letters found text = .ok nodes)
    (hnodes : ∀ n ∈ nodes, n.nesting ≤ room) :
    (∀ n ∈ found, n.nesting ≤ room) ∧ fragments parse' place letters found text = .ok nodes := by
  fun_induction fragments parse place letters found text with
  | case1 letters found =>
      cases h
      exact ⟨(flush_nesting _).mp (by simpa using hnodes), fragments_nil⟩
  | case2 => cases h
  | case3 => cases h
  | case4 letters found rest inner after hquoted hafter ih =>
      obtain ⟨hfound, hrest⟩ := ih h
      have hinner : ∀ n ∈ inner, n.nesting ≤ room :=
        Node.nestings_le_iff.mp (hfound (.quoted inner) (by simp))
      refine ⟨(flush_nesting letters).mp fun n hn => hfound n (by simp [hn]), ?_⟩
      rw [fragments_quotes, (quotedFragments_repeats hparse hquoted hinner).2]
      simpa [hafter] using hrest
  | case5 letters found =>
      cases h
      exact ⟨(flush_nesting _).mp (by simpa using hnodes), fragments_lastSlash⟩
  | case6 letters found c rest ih =>
      rw [fragments_escape]
      exact ih h
  | case7 => cases h
  | case8 letters found rest inner after hafter ih =>
      have hinner : ∀ c ∈ inner, c ≠ '\'' := fun c hc => by simpa using List.mem_takeWhile_imp hc
      rw [← span_quote hafter, fragments_quote inner after.tail hinner]
      exact ih h
  | case9 => cases h
  | case10 letters found rest hnone ih =>
      rw [fragments_dollar, expansion_repeats hparse hnone fun _ _ h => by cases h]
      exact ih h
  | case11 letters found rest n after hnode ih =>
      obtain ⟨hfound, hrest⟩ := ih h
      rw [fragments_dollar, expansion_repeats hparse hnode ?_]
      · exact ⟨(flush_nesting letters).mp fun n hn => hfound n (by simp [hn]), hrest⟩
      · rintro m after' ⟨⟩
        exact hfound n (by simp)
  | case12 letters found c rest hquotes hlast hescape hquote hdollar ih =>
      have hslash : c ≠ '\\' := by
        rintro rfl
        cases rest with
        | nil => exact hlast rfl rfl
        | cons d more => exact hescape d more rfl rfl
      rw [fragments_letter hquotes hslash hquote hdollar]
      exact ih h

/-- The word is read with both parsers where its programs leave a level. -/
theorem parse_repeats {position : Position} {text : List Char} {parts : List Node}
    (h : Word.parse parse position text = .ok parts) (hparts : Node.nestings parts ≤ room) :
    Word.parse parse' position text = .ok parts :=
  (fragments_repeats hparse h (Node.nestings_le_iff.mp hparts)).2

end Word

namespace Grammar

variable {α β : Type} {I : Prop} {room : Nat}

/-- Where a result is admitted, so is what was read before, and the other grammar has the result. -/
def Repeats (I : Prop) (g h : Grammar α) (O : α → Prop) : Prop :=
  ∀ stream a rest, g stream = .ok (a, rest) → O a → I ∧ h stream = .ok (a, rest)

namespace Repeats

variable {g h : Grammar α} {O M : α → Prop} {R : β → Prop}

theorem same : Repeats I g g fun _ => I := fun _ _ _ hg hI => ⟨hI, hg⟩

theorem pure {a : α} (hO : O a → I) : Repeats I (pure a) (pure a) O := by
  intro stream b rest hg hb
  cases hg
  exact ⟨hO hb, rfl⟩

theorem bind {k l : α → Grammar β} (hg : Repeats I g h M) (hk : ∀ a, Repeats (M a) (k a) (l a) R) :
    Repeats I (g >>= k) (h >>= l) R := by
  intro stream b rest hrun hb
  obtain ⟨a, middle, hfirst, hsecond⟩ := bind_eq_ok hrun
  obtain ⟨hM, hnext⟩ := hk a middle b rest hsecond hb
  obtain ⟨hI, hagain⟩ := hg stream a middle hfirst hM
  exact ⟨hI, (bind_ok hagain).trans hnext⟩

theorem cond {c : Prop} [Decidable c] {g' h' : Grammar α} (hg : Repeats I g h O)
    (hg' : Repeats I g' h' O) : Repeats I (if c then g else g') (if c then h else h') O := by
  split
  · exact hg
  · exact hg'

theorem weaken {J : Prop} {O' : α → Prop} (hg : Repeats I g h O) (hI : I → J)
    (hO : ∀ a, O' a → O a) : Repeats J g h O' := by
  intro stream a rest hrun ha
  obtain ⟨hi, hagain⟩ := hg stream a rest hrun (hO a ha)
  exact ⟨hI hi, hagain⟩

/-- A grammar that never has a result. -/
theorem never (hg : ∀ stream a rest, g stream ≠ .ok (a, rest)) : Repeats I g h O :=
  fun stream a rest hrun => absurd hrun (hg stream a rest)

end Repeats

theorem repeats_unexpected {O : α → Prop} : Repeats I (unexpected : Grammar α) unexpected O := by
  refine .never fun stream a rest h => ?_
  unfold unexpected at h
  split at h <;> cases h

theorem repeats_failHere {cause : ParseError.Cause} {O : α → Prop} :
    Repeats I (failHere cause : Grammar α) (failHere cause) O := .never fun _ _ _ h => nomatch h

theorem repeats_failAt {position : Position} {cause : ParseError.Cause} {O : α → Prop} :
    Repeats I (failAt position cause : Grammar α) (failAt position cause) O :=
  .never fun _ _ _ h => nomatch h

theorem repeats_collect {K : List α → Prop} {step step' : Grammar (Option α)}
    (hstep : ∀ found, Repeats (K found) step step' fun next =>
      next.elim (K found) fun a => K (found ++ [a])) (bound : List Lexeme) (found : List α) :
    Repeats (K found.reverse) (collect step bound found) (collect step' bound found) K := by
  induction bound generalizing found with
  | nil =>
      unfold collect
      refine (hstep found.reverse).bind fun next => ?_
      cases next with
      | none => exact .pure id
      | some a => exact .pure fun h => by simpa using h
  | cons lexeme bound ih =>
      unfold collect
      refine (hstep found.reverse).bind fun next => ?_
      cases next with
      | none => exact .pure id
      | some a => exact (ih (a :: found)).weaken (fun h => by simpa using h) fun _ => id

theorem repeats_many {K : List α → Prop} {step step' : Grammar (Option α)}
    (hstep : ∀ found, Repeats (K found) step step' fun next =>
      next.elim (K found) fun a => K (found ++ [a])) : Repeats (K []) (many step) (many step') K :=
  Repeats.same.bind fun bound => repeats_collect hstep bound []

theorem repeats_extend {K : α → Prop} {step step' : α → Grammar (Option α)}
    (hstep : ∀ a, Repeats (K a) (step a) (step' a) fun next => next.elim (K a) K)
    (bound : List Lexeme) (a : α) :
    Repeats (K a) (extend step bound a) (extend step' bound a) K := by
  induction bound generalizing a with
  | nil =>
      unfold extend
      refine (hstep a).bind fun next => ?_
      cases next with
      | none => exact .pure id
      | some b => exact .pure id
  | cons lexeme bound ih =>
      unfold extend
      refine (hstep a).bind fun next => ?_
      cases next with
      | none => exact .pure id
      | some b => exact ih b

/-- The same of every result of a repetition. -/
theorem repeats_many_all {P : α → Prop} {step step' : Grammar (Option α)}
    (hstep : ∀ I : Prop, Repeats I step step' fun next => next.elim I fun a => I ∧ P a) :
    Repeats I (many step) (many step') fun found => I ∧ ∀ a ∈ found, P a := by
  refine (repeats_many (K := fun found => I ∧ ∀ a ∈ found, P a) fun found => ?_).weaken
    (fun h => h.1) fun _ => id
  refine (hstep _).weaken id fun next hnext => ?_
  cases next with
  | none => exact hnext
  | some a =>
      obtain ⟨hI, hall⟩ := hnext
      exact ⟨⟨hI, fun b hb => hall b (by simp [hb])⟩, hall a (by simp)⟩

theorem repeats_many_nodes {step step' : Grammar (Option Node)}
    (hstep : ∀ I : Prop, Repeats I step step' fun next =>
      next.elim I fun n => I ∧ n.nesting ≤ room) :
    Repeats I (many step) (many step') fun found => I ∧ Node.nestings found ≤ room :=
  (repeats_many_all hstep).weaken id fun _ h => ⟨h.1, Node.nestings_le_iff.mp h.2⟩

/-! ## Simple commands -/

section Words

variable {program program' : Word.ProgramParser} (hprogram : program.Repeats room program')

include hprogram

theorem repeats_wordOf (lexeme : Lexeme) : Repeats I (wordOf program lexeme)
    (wordOf program' lexeme) fun n => I ∧ n.nesting ≤ room := by
  intro stream n rest h hn
  obtain ⟨parts, rfl, hparse⟩ := wordOf_eq_ok h
  obtain rfl := wordOf_rest h
  refine ⟨hn.1, ?_⟩
  have hagain := Word.parse_repeats hprogram hparse hn.2
  rw [wordOf, hagain]
  rfl

theorem repeats_anyWord :
    Repeats I (anyWord program) (anyWord program') fun n => I ∧ n.nesting ≤ room := by
  refine Repeats.same.bind fun front => ?_
  cases front with
  | none => exact repeats_unexpected
  | some lexeme =>
      exact .cond (Repeats.same.bind fun _ => repeats_wordOf hprogram lexeme) repeats_unexpected

theorem repeats_words : Repeats I (words program) (words program') fun found =>
    I ∧ Node.nestings found ≤ room := by
  refine repeats_many_nodes fun I => Repeats.same.bind fun front => ?_
  cases front with
  | none => exact .pure id
  | some lexeme =>
      refine .cond (Repeats.same.bind fun _ => ?_) (.pure id)
      exact (repeats_wordOf hprogram lexeme).bind fun n => .pure id

theorem repeats_redirection (descriptor : Option Nat) : Repeats I (redirection program descriptor)
    (redirection program' descriptor) fun n => I ∧ n.nesting ≤ room := by
  refine Repeats.same.bind fun front => ?_
  split
  · refine .cond (Repeats.same.bind fun _ => ?_) repeats_unexpected
    exact (repeats_anyWord hprogram).bind fun target => .pure id
  · exact repeats_unexpected

theorem repeats_argument : Repeats I (argument program) (argument program') fun next =>
    next.elim I fun n => I ∧ n.nesting ≤ room := by
  refine Repeats.same.bind fun front => ?_
  cases front with
  | none => exact .pure id
  | some lexeme =>
      simp only
      split
      · refine Repeats.same.bind fun _ => ?_
        exact (repeats_wordOf hprogram lexeme).bind fun n => .pure id
      · refine Repeats.same.bind fun _ => .cond ?_ repeats_failHere
        exact (repeats_redirection hprogram _).bind fun n => .pure id
      · refine .cond ?_ (.pure id)
        exact (repeats_redirection hprogram none).bind fun n => .pure id
      · exact .pure id

theorem repeats_simpleCommand : Repeats I (simpleCommand program) (simpleCommand program')
    fun n => I ∧ n.nesting ≤ room := by
  refine (repeats_many_nodes fun I => repeats_argument hprogram).bind fun args => ?_
  exact .cond repeats_unexpected (.pure id)

end Words

/-! ## Lists of statements -/

/-- The other command parser reads what nests so far at most. -/
def Again (room : Nat) (command command' : Grammar Node) : Prop :=
  ∀ I : Prop, Repeats I command command' fun n => I ∧ n.nesting ≤ room

section Statements

variable {command command' : Grammar Node} (hcommand : Again room command command')

include hcommand

theorem repeats_pipeline : Again room (pipeline command) (pipeline command') := by
  intro I
  refine (hcommand I).bind fun first => Repeats.same.bind fun bound => ?_
  refine repeats_extend (K := fun n => I ∧ n.nesting ≤ room) (fun left => ?_) bound first
  refine Repeats.same.bind fun _ => .cond (Repeats.same.bind fun _ => ?_) (.pure id)
  refine Repeats.same.bind fun _ => (hcommand _).bind fun right => .pure fun h => ?_
  simpa [Node.nesting, Nat.max_le, and_assoc] using h

theorem repeats_andOrList : Again room (andOrList command) (andOrList command') := by
  intro I
  refine (repeats_pipeline hcommand I).bind fun first => Repeats.same.bind fun bound => ?_
  refine repeats_extend (K := fun n => I ∧ n.nesting ≤ room) (fun left => ?_) bound first
  refine Repeats.same.bind fun operator => ?_
  cases operator with
  | none => exact .pure id
  | some token =>
      refine Repeats.same.bind fun _ => Repeats.same.bind fun _ => ?_
      refine (repeats_pipeline hcommand _).bind fun right => .pure fun h => ?_
      simpa [Node.nesting, Nat.max_le, and_assoc] using h

theorem repeats_nextStatement (stops : List Token) : Repeats I (nextStatement command stops)
    (nextStatement command' stops) fun found =>
      found.elim I fun statement => I ∧ statement.1.nesting ≤ room := by
  refine Repeats.same.bind fun _ => Repeats.same.bind fun front => ?_
  refine .cond (.pure id) ((repeats_andOrList hcommand I).bind fun statement => ?_)
  refine Repeats.same.bind fun _ => .cond ?_ (Repeats.same.bind fun following => .pure id)
  cases statement with
  | command args background =>
      refine Repeats.same.bind fun _ => Repeats.same.bind fun _ => .cond ?_ ?_
      · exact Repeats.same.bind fun _ => .pure id
      · exact .pure id
  | _ => exact repeats_failHere

theorem repeats_statements (stops : List Token) (bound : List Lexeme) (found : List Node) :
    Repeats (I ∧ Node.nestings found ≤ room) (statements command stops bound found)
      (statements command' stops bound found) fun body => I ∧ Node.nestings body ≤ room := by
  have hreverse : ∀ {nodes : List Node}, I ∧ Node.nestings nodes.reverse ≤ room →
      I ∧ Node.nestings nodes ≤ room := by
    simp [Node.nestings_le_iff]
  have hcons : ∀ {n : Node} {nodes : List Node}, I ∧ Node.nestings (n :: nodes) ≤ room →
      (I ∧ Node.nestings nodes ≤ room) ∧ n.nesting ≤ room := by
    rintro n nodes ⟨hI, h⟩
    rw [Node.nestings, Nat.max_le] at h
    exact ⟨⟨hI, h.2⟩, h.1⟩
  induction bound generalizing found with
  | nil =>
      unfold statements
      refine (repeats_nextStatement hcommand stops).bind fun next => ?_
      rcases next with _ | ⟨statement, _ | _⟩
      · exact .pure hreverse
      · exact .pure fun h => hcons (hreverse h)
      · exact .pure fun h => hcons (hreverse h)
  | cons lexeme bound ih =>
      unfold statements
      refine (repeats_nextStatement hcommand stops).bind fun next => ?_
      rcases next with _ | ⟨statement, _ | _⟩
      · exact .pure hreverse
      · exact (ih (statement :: found)).weaken hcons fun _ => id
      · exact .pure fun h => hcons (hreverse h)

theorem repeats_statementList (stops : List Token) : Repeats I (statementList command stops)
    (statementList command' stops) fun body => I ∧ Node.nestings body ≤ room :=
  Repeats.same.bind fun bound =>
    (repeats_statements hcommand stops bound []).weaken (fun h => h.1) fun _ => id

theorem repeats_statementBody (stops : List Token) : Repeats I (statementBody command stops)
    (statementBody command' stops) fun body => I ∧ Node.nestings body ≤ room :=
  (repeats_statementList hcommand stops).bind fun _ => .cond repeats_unexpected (.pure id)

theorem repeats_condition (stop : Token) : Repeats I (condition command stop)
    (condition command' stop) fun n => I ∧ n.nesting ≤ room := by
  refine (repeats_statementBody hcommand [stop]).bind fun body => ?_
  split
  · exact .pure fun h => by simpa [Node.nestings] using h
  · refine .pure fun h => ⟨h.1, ?_⟩
    have hgroup := h.2
    rw [Node.nesting] at hgroup
    omega

end Statements

/-! ## Compound commands -/

section Compounds

variable {level level' : Level} (hcommand : Again room level.command level'.command)

section Bodies

include hcommand

theorem repeats_subshell : Repeats I level.subshell level'.subshell
    fun n => I ∧ n.nesting ≤ room + 1 := by
  refine Repeats.same.bind fun _ => (repeats_statementBody hcommand _).bind fun body => ?_
  exact Repeats.same.bind fun _ => .pure fun h => by simpa [Node.nesting] using h

theorem repeats_group : Repeats I level.group level'.group fun n => I ∧ n.nesting ≤ room + 1 := by
  refine Repeats.same.bind fun _ => (repeats_statementBody hcommand _).bind fun body => ?_
  exact Repeats.same.bind fun _ => .pure fun h => by simpa [Node.nesting] using h

theorem repeats_whileLoop : Repeats I level.whileLoop level'.whileLoop
    fun n => I ∧ n.nesting ≤ room + 1 := by
  refine Repeats.same.bind fun _ => (repeats_condition hcommand _).bind fun test => ?_
  refine Repeats.same.bind fun _ => (repeats_statementBody hcommand _).bind fun body => ?_
  refine Repeats.same.bind fun _ => .pure fun h => ?_
  simpa [Node.nesting, Nat.max_le, and_assoc] using h

theorem repeats_elifBranch : Repeats I level.elifBranch level'.elifBranch fun next =>
    next.elim I fun branch => I ∧ Branch.nestings [branch] ≤ room := by
  refine Repeats.same.bind fun _ => .cond (Repeats.same.bind fun _ => ?_) (.pure id)
  refine (repeats_condition hcommand _).bind fun test => Repeats.same.bind fun _ => ?_
  refine (repeats_statementBody hcommand _).bind fun body => .pure fun h => ?_
  simpa [Branch.nestings, Nat.max_le, and_assoc] using h

theorem repeats_elifBranches : Repeats I (many level.elifBranch) (many level'.elifBranch)
    fun elifs => I ∧ Branch.nestings elifs ≤ room := by
  refine (repeats_many_all fun I => repeats_elifBranch hcommand).weaken id fun elifs h => ⟨h.1, ?_⟩
  intro branch hbranch
  have hall := Branch.nestings_le_iff.mp h.2
  exact Branch.nestings_le_iff.mpr fun t b hb => hall t b (by simp_all)

theorem repeats_conditional : Repeats I level.conditional level'.conditional
    fun n => I ∧ n.nesting ≤ room + 1 := by
  refine Repeats.same.bind fun _ => (repeats_condition hcommand _).bind fun test => ?_
  refine Repeats.same.bind fun _ => (repeats_statementBody hcommand _).bind fun body => ?_
  refine (repeats_elifBranches hcommand).bind fun elifs => ?_
  have hend : ∀ {J : Prop} (otherwise : List Node), (I ∧
      (Node.conditional test body elifs otherwise).nesting ≤ room + 1 → J) →
        Repeats J (do
          expect .fiWord
          return Node.conditional test body elifs otherwise) (do
          expect .fiWord
          return Node.conditional test body elifs otherwise) fun n => I ∧ n.nesting ≤ room + 1 :=
    fun otherwise hJ => Repeats.same.bind fun _ => .pure hJ
  refine Repeats.same.bind fun _ => .cond ?_ (hend [] fun h => ?_)
  · refine Repeats.same.bind fun _ => (repeats_statementBody hcommand _).bind fun otherwise => ?_
    refine hend otherwise fun h => ?_
    simpa [Node.nesting, Nat.max_le, and_assoc] using h
  · simpa [Node.nesting, Nat.max_le, Node.nestings, and_assoc] using h

theorem repeats_function : Repeats I level.function level'.function
    fun n => I ∧ n.nesting ≤ room + 1 := by
  refine Repeats.same.bind fun front => ?_
  cases front with
  | none => exact repeats_unexpected
  | some lexeme =>
      refine Repeats.same.bind fun _ => .cond ?_ repeats_failAt
      refine Repeats.same.bind fun _ => Repeats.same.bind fun _ => Repeats.same.bind fun _ => ?_
      exact (hcommand I).bind fun body => .pure fun h => by simpa [Node.nesting] using h

end Bodies

variable (hprogram : level.program.Repeats room level'.program)

include hcommand hprogram

theorem repeats_forLoop : Repeats I level.forLoop level'.forLoop
    fun n => I ∧ n.nesting ≤ room + 1 := by
  refine Repeats.same.bind fun _ => Repeats.same.bind fun name => Repeats.same.bind fun _ => ?_
  refine Repeats.same.bind fun _ => (repeats_words hprogram).bind fun values => ?_
  refine Repeats.same.bind fun _ => Repeats.same.bind fun _ => Repeats.same.bind fun _ => ?_
  refine (repeats_statementBody hcommand _).bind fun body => Repeats.same.bind fun _ => ?_
  exact .pure fun h => by simpa [Node.nesting, Nat.max_le, and_assoc] using h

theorem repeats_arm : Repeats I level.arm level'.arm
    fun arm => I ∧ Arm.nestings [arm] ≤ room := by
  have hfurther : ∀ I : Prop, Repeats I level.furtherPattern level'.furtherPattern fun next =>
      next.elim I fun n => I ∧ n.nesting ≤ room := by
    intro I
    refine Repeats.same.bind fun _ => .cond (Repeats.same.bind fun _ => ?_) (.pure id)
    exact (repeats_anyWord hprogram).bind fun n => .pure id
  have hrest : ∀ {I : Prop}, Repeats I (do
      let first ← anyWord level.program
      let others ← many level.furtherPattern
      expect .rightParen
      skipEmptyEnd
      let body ← statementList level.command [.doubleSemicolon, .esacWord]
      return Arm.mk (first :: others) body) (do
      let first ← anyWord level'.program
      let others ← many level'.furtherPattern
      expect .rightParen
      skipEmptyEnd
      let body ← statementList level'.command [.doubleSemicolon, .esacWord]
      return Arm.mk (first :: others) body) fun arm => I ∧ Arm.nestings [arm] ≤ room := by
    intro I
    refine (repeats_anyWord hprogram).bind fun first => (repeats_many_nodes hfurther).bind
      fun others => ?_
    refine Repeats.same.bind fun _ => Repeats.same.bind fun _ => ?_
    refine (repeats_statementList hcommand _).bind fun body => .pure fun h => ?_
    simpa [Arm.nestings, Node.nestings, Nat.max_le, and_assoc] using h
  exact Repeats.same.bind fun _ => .cond (Repeats.same.bind fun _ => hrest) hrest

theorem repeats_nextArm : Repeats I level.nextArm level'.nextArm fun next =>
    next.elim I fun arm => I ∧ Arm.nestings [arm] ≤ room := by
  refine Repeats.same.bind fun _ => Repeats.same.bind fun _ => .cond (.pure id) ?_
  refine (repeats_arm hcommand hprogram).bind fun arm => Repeats.same.bind fun _ => .cond ?_ ?_
  · exact Repeats.same.bind fun _ => .pure id
  · refine Repeats.same.bind fun _ => Repeats.same.bind fun _ => ?_
    exact .cond (.pure id) repeats_unexpected

theorem repeats_arms : Repeats I (many level.nextArm) (many level'.nextArm)
    fun arms => I ∧ Arm.nestings arms ≤ room := by
  refine (repeats_many_all fun I => repeats_nextArm hcommand hprogram).weaken id
    fun arms h => ⟨h.1, ?_⟩
  intro arm harm
  have hall := Arm.nestings_le_iff.mp h.2
  exact Arm.nestings_le_iff.mpr fun ps b hb => hall ps b (by simp_all)

theorem repeats_choice : Repeats I level.choice level'.choice
    fun n => I ∧ n.nesting ≤ room + 1 := by
  refine Repeats.same.bind fun _ => (repeats_anyWord hprogram).bind fun subject => ?_
  refine Repeats.same.bind fun _ => Repeats.same.bind fun _ => Repeats.same.bind fun _ => ?_
  refine Repeats.same.bind fun _ => ?_
  refine (repeats_arms hcommand hprogram).bind fun arms => ?_
  refine Repeats.same.bind fun _ => .pure fun h => ?_
  simpa [Node.nesting, Nat.max_le, and_assoc] using h

theorem repeats_compound {items : List Lexeme} {compound : Level → Grammar Node}
    (hcompound : compound? items = some compound) :
    Repeats I (compound level) (compound level') fun n => I ∧ n.nesting ≤ room + 1 := by
  cases items with
  | nil => cases hcompound
  | cons lexeme items =>
      rcases compound?_eq_some hcompound with ⟨token, htoken⟩ | ⟨rfl, _⟩
      · cases token <;> cases htoken
        · exact repeats_subshell hcommand
        · exact repeats_group hcommand
        · exact repeats_conditional hcommand
        · exact repeats_whileLoop hcommand
        · exact repeats_forLoop hcommand hprogram
        · exact repeats_choice hcommand hprogram
      · exact repeats_function hcommand

end Compounds

/-- A compound command takes a level. -/
theorem nesting_pos {level : Level} {items : List Lexeme} {compound : Level → Grammar Node}
    (hcompound : compound? items = some compound) {stream rest : Lexemes} {n : Node}
    (h : compound level stream = .ok (n, rest)) : 0 < n.nesting := by
  have hpos : Ensures (fun _ => True) (compound level) fun n => 0 < n.nesting := by
    cases items with
    | nil => cases hcompound
    | cons lexeme items =>
        rcases compound?_eq_some hcompound with ⟨token, htoken⟩ | ⟨rfl, _⟩
        · cases token <;> cases htoken
          · exact .last fun _ => .last fun _ => .last fun _ => .pure (by simp [Node.nesting])
          · exact .last fun _ => .last fun _ => .last fun _ => .pure (by simp [Node.nesting])
          · refine .last fun _ => .last fun _ => .last fun _ => .last fun _ => .last fun _ => ?_
            refine .last fun _ => .cond (fun _ => .last fun _ => .last fun _ => ?_) fun _ => ?_
            · exact .last fun _ => .pure (by simp [Node.nesting])
            · exact .last fun _ => .last fun _ => .pure (by simp [Node.nesting])
          · refine .last fun _ => .last fun _ => .last fun _ => .last fun _ => .last fun _ => ?_
            exact .pure (by simp [Node.nesting])
          · refine .last fun _ => .last fun _ => .last fun _ => .last fun _ => .last fun _ => ?_
            refine .last fun _ => .last fun _ => .last fun _ => .last fun _ => .last fun _ => ?_
            exact .pure (by simp [Node.nesting])
          · refine .last fun _ => .last fun _ => .last fun _ => .last fun _ => .last fun _ => ?_
            exact .last fun _ => .last fun _ => .last fun _ => .pure (by simp [Node.nesting])
        · refine .last fun front => ?_
          cases front with
          | none => exact ensures_unexpected
          | some lexeme =>
              refine .last fun _ => .cond (fun _ => ?_) fun _ => ensures_failAt
              refine .last fun _ => .last fun _ => .last fun _ => .last fun _ => ?_
              exact .pure (by simp [Node.nesting])
  exact (hpos stream n rest (fun _ _ => trivial) h).1

/-! ## Every depth -/

theorem repeats_command {below below' : Option Level} {program program' : Word.ProgramParser}
    (hprogram : program.Repeats room program')
    (hbelow : ∀ left, room = left + 1 → ∀ level ∈ below, ∃ level', below' = some level' ∧
      Again left level.command level'.command ∧ level.program.Repeats left level'.program) :
    Again room (commandOn below program) (commandOn below' program') := by
  intro I
  refine Repeats.same.bind fun items => ?_
  cases hcompound : compound? items with
  | some compound =>
      intro stream n rest h hn
      cases below with
      | none => cases h
      | some level =>
          have hpos : 0 < n.nesting := nesting_pos hcompound h
          obtain ⟨left, rfl⟩ : ∃ left, room = left + 1 := ⟨room - 1, by omega⟩
          obtain ⟨level', rfl, hcommand, hlevel⟩ := hbelow left rfl level rfl
          exact repeats_compound hcommand hlevel hcompound stream n rest h hn
  | none =>
      exact Repeats.same.bind fun front => .cond (repeats_simpleCommand hprogram) repeats_unexpected

/-- Programs are read again where the commands in them are. -/
theorem programOf_again {command command' : Grammar Node} (hcommand : Again room command command')
    {text : List Char} {program : Program} (h : programOf command text = .ok program)
    (hnestings : Node.nestings program ≤ room) : programOf command' text = .ok program := by
  obtain ⟨hsize, stream, rest, hstream, hread⟩ := programOf_eq_ok.mp h
  have hwhole : Repeats True (wholeProgram command) (wholeProgram command') fun program =>
      True ∧ Node.nestings program ≤ room := by
    refine (repeats_statementList hcommand []).bind fun body => Repeats.same.bind fun front => ?_
    cases front with
    | none => exact .pure id
    | some lexeme => exact repeats_unexpected
  obtain ⟨_, hagain⟩ := hwhole stream program rest hread ⟨trivial, hnestings⟩
  exact programOf_eq_ok.mpr ⟨hsize, stream, rest, hstream, hagain⟩

theorem again_atRoom (left room : Nat) :
    Again room (Level.atRoom left).command (Level.atRoom room).command ∧
      (Level.atRoom left).program.Repeats room (Level.atRoom room).program := by
  induction left generalizing room with
  | zero =>
      have hprogram : (Level.atRoom 0).program.Repeats room (Level.atRoom room).program :=
        fun source body h => absurd (Failure.errorOf_eq_ok h) refusedProgram_ne_ok
      refine ⟨?_, hprogram⟩
      cases room <;> exact repeats_command hprogram fun _ _ _ h => nomatch h
  | succ left ih =>
      have hprogram : (Level.atRoom (left + 1)).program.Repeats room (Level.atRoom room).program := by
        intro source body h hbody
        obtain ⟨room, rfl⟩ : ∃ more, room = more + 1 := ⟨room - 1, by omega⟩
        have hagain := programOf_again (ih room).1 (Failure.errorOf_eq_ok h) (by omega)
        exact congrArg Failure.errorOf hagain
      refine ⟨?_, hprogram⟩
      cases room with
      | zero => exact repeats_command hprogram fun _ h => nomatch h
      | succ room =>
          refine repeats_command hprogram ?_
          rintro _ ⟨⟩ _ ⟨⟩
          exact ⟨_, rfl, ih room⟩

end Grammar

/-- A program that was read is read with any room that it does not use up. -/
theorem programOf_atRoom {left room : Nat} {text : List Char} {program : Program}
    (h : programOf (Level.atRoom left).command text = .ok program)
    (hnestings : Node.nestings program ≤ room) :
    programOf (Level.atRoom room).command text = .ok program :=
  Grammar.programOf_again (Grammar.again_atRoom left room).1 h hnestings

end Conch.Syntax
