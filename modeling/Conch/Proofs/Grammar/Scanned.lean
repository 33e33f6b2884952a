import Conch.Proofs.Grammar.Openings
import Conch.Proofs.Grammar.Tracks

/-!
# Programs that the scan follows

The scan for the end of a substitution takes note of the words `case`, `in` and `esac`
without the grammar.  A tree is scannable when its words are regular and none of them looks
like the start or the end of a choice where the scan expects one.  Through the lexemes of a
scannable program the scan keeps count of parentheses and choices, and it is outside of all
of them at the end (`wholeProgram_scanned`).
-/

namespace Conch.Syntax

/-! ## Scannable trees -/

namespace Node

/-- The reserved word that the scan takes the word for. -/
def reserved? (n : Node) : Option Token := Token.reserved? n.render

/--
Whether the scan expects a command behind the word.  Where it expects one before, the word may not
be `case` or `esac`.
-/
def wordAfter (start : Bool) (n : Node) : Option Bool :=
  if n.isRegular && !(start && (n.reserved? == some .caseWord || n.reserved? == some .esacWord)) then
    some (Substitution.opensCommand n.reserved?)
  else none

/-- The ampersand of a redirection looks like the end of a command, and a descriptor like a word. -/
def argumentAfter (start : Bool) : Node → Option Bool
  | .redirection descriptor op target =>
      target.wordAfter (op == .lessAnd || op == .greatAnd || start && descriptor.isNone)
  | n => n.wordAfter start

theorem wordAfter_eq_some {start after : Bool} {n : Node} : n.wordAfter start = some after ↔
    n.isRegular = true ∧
      (start = true → n.reserved? ≠ some .caseWord ∧ n.reserved? ≠ some .esacWord) ∧
        after = Substitution.opensCommand n.reserved? := by
  unfold wordAfter
  rw [Option.ite_none_right_eq_some, Option.some.injEq, Bool.and_eq_true, and_assoc,
    eq_comm (a := after)]
  cases start <;> simp

/-- The scan does not take the word for the end of the choice. -/
def isScannablePattern (n : Node) : Bool := n.isRegular && n.reserved? != some .esacWord

end Node

mutual

/-- The scan reads the words of the tree as the grammar does. -/
def Node.isScannable : Node → Bool
  | .command args _ => (args.foldlM Node.argumentAfter true).isSome
  | .subshell body => Node.areScannable body
  | .group body => Node.areScannable body
  | .conditional test body elifs otherwise =>
      test.isScannable && Node.areScannable body && Branch.areScannable elifs &&
        Node.areScannable otherwise
  | .whileLoop test body => test.isScannable && Node.areScannable body
  | .forLoop _ words body =>
      (words.foldlM Node.wordAfter false).isSome && Node.areScannable body
  | .binary _ left right => left.isScannable && right.isScannable
  | .function _ body => body.isScannable
  | .choice subject arms => subject.isRegular && Arm.areScannable arms
  | _ => true

def Node.areScannable : List Node → Bool
  | [] => true
  | n :: rest => n.isScannable && Node.areScannable rest

def Branch.isScannable : Branch → Bool
  | .mk test body => test.isScannable && Node.areScannable body

def Branch.areScannable : List Branch → Bool
  | [] => true
  | branch :: rest => branch.isScannable && Branch.areScannable rest

def Arm.isScannable : Arm → Bool
  | .mk patterns body => patterns.all Node.isScannablePattern && Node.areScannable body

def Arm.areScannable : List Arm → Bool
  | [] => true
  | arm :: rest => arm.isScannable && Arm.areScannable rest

end

theorem Node.areScannable_eq (nodes : List Node) :
    Node.areScannable nodes = nodes.all Node.isScannable := by
  induction nodes with
  | nil => rfl
  | cons n rest ih => rw [Node.areScannable, ih, List.all_cons]

theorem Branch.areScannable_eq (branches : List Branch) :
    Branch.areScannable branches = branches.all Branch.isScannable := by
  induction branches with
  | nil => rfl
  | cons branch rest ih => rw [Branch.areScannable, ih, List.all_cons]

theorem Arm.areScannable_eq (arms : List Arm) :
    Arm.areScannable arms = arms.all Arm.isScannable := by
  induction arms with
  | nil => rfl
  | cons arm rest ih => rw [Arm.areScannable, ih, List.all_cons]

/-! ### Exchanging words -/

section MapWords

open Piece (ForWords ForPatterns)

variable {f : List Node → List Node} {n : Node}

/-- The word keeps its text when its fragments are exchanged, and it stays regular. -/
def Node.Keeps (f : List Node → List Node) (n : Node) : Prop :=
  (n.mapWords f).render = n.render ∧ (n.isRegular = true → (n.mapWords f).isRegular = true)

theorem Node.Keeps.of_layout (hkeeps : ForWords (fun _ => Node.Keeps f) n.layout)
    (h : n.isRegular = true) : n.Keeps f := by
  cases n with
  | word parts => exact hkeeps false (.word parts) (by simp [layout])
  | _ => cases h

theorem Node.Keeps.wordAfter (hkeeps : n.Keeps f) {start after : Bool}
    (h : n.wordAfter start = some after) : (n.mapWords f).wordAfter start = some after := by
  rw [wordAfter_eq_some] at h ⊢
  rw [reserved?, hkeeps.1]
  exact ⟨hkeeps.2 h.1, h.2⟩

theorem Node.wordAfter_mapWords (hkeeps : ForWords (fun _ => Node.Keeps f) n.layout)
    {start after : Bool} (h : n.wordAfter start = some after) :
    (n.mapWords f).wordAfter start = some after :=
  (Keeps.of_layout hkeeps (wordAfter_eq_some.mp h).1).wordAfter h

theorem Node.argumentAfter_mapWords (hkeeps : ForWords (fun _ => Node.Keeps f) n.layout)
    {start after : Bool} (h : n.argumentAfter start = some after) :
    (n.mapWords f).argumentAfter start = some after := by
  cases n with
  | redirection descriptor op target =>
      rw [Piece.forWords_redirection] at hkeeps
      exact wordAfter_mapWords hkeeps h
  | _ => exact wordAfter_mapWords hkeeps h

theorem List.foldlM_map_isSome {α β : Type} {step : β → α → Option β} {f : α → α} {l : List α}
    (hstep : ∀ a ∈ l, ∀ b c, step b a = some c → step b (f a) = some c) {b : β}
    (h : (l.foldlM step b).isSome = true) : ((l.map f).foldlM step b).isSome = true := by
  induction l generalizing b with
  | nil => exact h
  | cons a rest ih =>
      obtain ⟨hfirst, hrest⟩ := List.forall_mem_cons.mp hstep
      rw [List.foldlM_cons] at h
      obtain ⟨result, hresult⟩ := Option.isSome_iff_exists.mp h
      obtain ⟨middle, hmiddle, hbehind⟩ := Option.bind_eq_some_iff.mp hresult
      rw [List.map_cons, List.foldlM_cons, hfirst b middle hmiddle]
      exact ih hrest (by rw [hbehind]; rfl)

theorem Node.Keeps.isScannablePattern (hkeeps : n.Keeps f) (h : n.isScannablePattern = true) :
    (n.mapWords f).isScannablePattern = true := by
  obtain ⟨hregular, hesac⟩ := Bool.and_eq_true_iff.mp h
  refine Bool.and_eq_true_iff.mpr ⟨hkeeps.2 hregular, ?_⟩
  rwa [reserved?, hkeeps.1]

/-- The exchange leaves the tree scannable. -/
def Node.StaysScannable (f : List Node → List Node) (n : Node) : Prop :=
  n.isScannable = true → (n.mapWords f).isScannable = true

theorem Node.areScannable_mapWords {nodes : List Node} (hnodes : ∀ n ∈ nodes, n.StaysScannable f)
    (h : Node.areScannable nodes = true) :
    Node.areScannable (nodes.map (Node.mapWords f)) = true := by
  rw [areScannable_eq, List.all_eq_true] at h ⊢
  intro m hm
  obtain ⟨n, hn, rfl⟩ := List.mem_map.mp hm
  exact hnodes n hn (h n hn)

theorem Branch.areScannable_mapWords {branches : List Branch}
    (hbranches : ∀ t b, Branch.mk t b ∈ branches → t.StaysScannable f ∧ ∀ n ∈ b, n.StaysScannable f)
    (h : Branch.areScannable branches = true) :
    Branch.areScannable (Branch.mapAllWords f branches) = true := by
  induction branches with
  | nil => rfl
  | cons branch rest ih =>
      obtain ⟨test, body⟩ := branch
      obtain ⟨⟨htest, hbody⟩, hrest⟩ := Branch.forall_mem_cons.mp hbranches
      simp only [Branch.areScannable, Branch.isScannable, Bool.and_eq_true] at h
      obtain ⟨⟨htestScans, hbodyScans⟩, hrestScans⟩ := h
      simp [Branch.mapAllWords, Branch.areScannable, Branch.isScannable, htest htestScans,
        Node.areScannable_mapWords hbody hbodyScans, ih hrest hrestScans]

theorem Arm.areScannable_mapWords {arms : List Arm}
    (harms : ∀ ps b, Arm.mk ps b ∈ arms →
      ForPatterns (fun _ => Node.Keeps f) ps ∧ ∀ n ∈ b, n.StaysScannable f)
    (h : Arm.areScannable arms = true) : Arm.areScannable (Arm.mapAllWords f arms) = true := by
  induction arms with
  | nil => rfl
  | cons arm rest ih =>
      obtain ⟨patterns, body⟩ := arm
      obtain ⟨⟨hpatterns, hbody⟩, hrest⟩ := Arm.forall_mem_cons.mp harms
      simp only [Arm.areScannable, Arm.isScannable, Bool.and_eq_true, List.all_eq_true] at h
      obtain ⟨⟨hpatternScans, hbodyScans⟩, hrestScans⟩ := h
      have hpattern : ∀ n ∈ patterns, (n.mapWords f).isScannablePattern = true := by
        intro n hn
        refine Node.Keeps.isScannablePattern ?_ (hpatternScans n hn)
        cases patterns with
        | nil => cases hn
        | cons first others =>
            rcases List.mem_cons.mp hn with rfl | hother
            · exact hpatterns.1
            · exact .of_layout (hpatterns.2 n hother)
                (Bool.and_eq_true_iff.mp (hpatternScans n hn)).1
      simpa [Arm.mapAllWords, Arm.areScannable, Arm.isScannable, ih hrest hrestScans,
        Node.areScannable_mapWords hbody hbodyScans] using hpattern

/-- Words with the same texts in the places of regular ones leave a tree scannable. -/
theorem Node.isScannable_mapWords (hkeeps : ForWords (fun _ => Node.Keeps f) n.layout) :
    n.StaysScannable f := by
  intro h
  induction n using Node.induction with
  | command args background ih =>
      rw [Piece.forWords_command] at hkeeps
      rw [mapWords, mapAllWords_eq]
      have hargs : ∀ n ∈ args, ∀ start after, n.argumentAfter start = some after →
          (n.mapWords f).argumentAfter start = some after :=
        fun n hn _ _ => argumentAfter_mapWords (hkeeps n hn)
      exact List.foldlM_map_isSome hargs h
  | subshell body ih =>
      rw [Piece.forWords_subshell] at hkeeps
      rw [mapWords, mapAllWords_eq]
      exact areScannable_mapWords (fun n hn => ih n hn (hkeeps n hn)) h
  | group body ih =>
      rw [Piece.forWords_group] at hkeeps
      rw [mapWords, mapAllWords_eq]
      exact areScannable_mapWords (fun n hn => ih n hn (hkeeps n hn)) h
  | conditional test body elifs otherwise htest hbody helifs hotherwise =>
      rw [Piece.forWords_conditional] at hkeeps
      obtain ⟨hkeepsTest, hkeepsBody, hkeepsElifs, hkeepsOtherwise⟩ := hkeeps
      simp only [isScannable, Bool.and_eq_true] at h
      obtain ⟨⟨⟨htestScans, hbodyScans⟩, helifsScans⟩, hotherwiseScans⟩ := h
      have hbodyStays : ∀ n ∈ body, n.StaysScannable f := fun n hn => hbody n hn (hkeepsBody n hn)
      have hotherwiseStays : ∀ n ∈ otherwise, n.StaysScannable f :=
        fun n hn => hotherwise n hn (hkeepsOtherwise n hn)
      have helifsStay : ∀ t b, Branch.mk t b ∈ elifs →
          t.StaysScannable f ∧ ∀ n ∈ b, n.StaysScannable f := fun t b hb =>
        ⟨(helifs t b hb).1 (hkeepsElifs t b hb).1,
          fun n hn => (helifs t b hb).2 n hn ((hkeepsElifs t b hb).2 n hn)⟩
      simp [mapWords, isScannable, htest hkeepsTest htestScans,
        areScannable_mapWords hbodyStays hbodyScans,
        areScannable_mapWords hotherwiseStays hotherwiseScans,
        Branch.areScannable_mapWords helifsStay helifsScans]
  | whileLoop test body htest hbody =>
      rw [Piece.forWords_whileLoop] at hkeeps
      obtain ⟨htestScans, hbodyScans⟩ := Bool.and_eq_true_iff.mp h
      have hbodyStays : ∀ n ∈ body, n.StaysScannable f := fun n hn => hbody n hn (hkeeps.2 n hn)
      simp [mapWords, isScannable, htest hkeeps.1 htestScans,
        areScannable_mapWords hbodyStays hbodyScans]
  | forLoop name words body _ hbody =>
      rw [Piece.forWords_forLoop] at hkeeps
      obtain ⟨hwordScans, hbodyScans⟩ := Bool.and_eq_true_iff.mp h
      have hbodyStays : ∀ n ∈ body, n.StaysScannable f := fun n hn => hbody n hn (hkeeps.2 n hn)
      have hwords : ∀ n ∈ words, ∀ start after, n.wordAfter start = some after →
          (n.mapWords f).wordAfter start = some after :=
        fun n hn _ _ => wordAfter_mapWords (hkeeps.1 n hn)
      simp [mapWords, isScannable, areScannable_mapWords hbodyStays hbodyScans,
        List.foldlM_map_isSome hwords hwordScans]
  | binary op left right hleft hright =>
      rw [Piece.forWords_binary] at hkeeps
      obtain ⟨hleftScans, hrightScans⟩ := Bool.and_eq_true_iff.mp h
      simp [mapWords, isScannable, hleft hkeeps.1 hleftScans, hright hkeeps.2 hrightScans]
  | function name body ih =>
      rw [Piece.forWords_function] at hkeeps
      exact ih hkeeps h
  | choice subject arms _ harms =>
      rw [Piece.forWords_choice] at hkeeps
      obtain ⟨hsubjectScans, harmsScan⟩ := Bool.and_eq_true_iff.mp h
      have harmsStay : ∀ ps b, Arm.mk ps b ∈ arms →
          ForPatterns (fun _ => Node.Keeps f) ps ∧ ∀ n ∈ b, n.StaysScannable f := fun ps b hb =>
        ⟨(hkeeps.2 ps b hb).1, fun n hn => (harms ps b hb).2 n hn ((hkeeps.2 ps b hb).2 n hn)⟩
      simp [mapWords, isScannable, (Keeps.of_layout hkeeps.1 hsubjectScans).2 hsubjectScans,
        Arm.areScannable_mapWords harmsStay harmsScan]
  | _ => rfl

theorem Program.areScannable_mapWords {program : Program}
    (hkeeps : ForWords (fun _ => Node.Keeps f) program.layout)
    (h : Node.areScannable program = true) :
    Node.areScannable (program.map (Node.mapWords f)) = true :=
  Node.areScannable_mapWords
    (fun n hn => Node.isScannable_mapWords ((Piece.forWords_list program).mp hkeeps n hn)) h

end MapWords

namespace Grammar

open Track (At IsOpen IsReady IsAt IsAmong IsAsked IsChosen Sends)

variable {G : Prop} {u d : Nat} {program : Word.ProgramParser}

/-! ## Words -/

section Words

variable (hkeeps : program.KeepsOpening) {P : Track → Prop} {Q : Option Token → Track → Prop}
  {C : Option Token → Prop}

include hkeeps

/-- The lexeme is the last one that was read. -/
def Behind (lexeme : Lexeme) (I : List Lexeme → Prop) (read : List Lexeme) : Prop :=
  ∃ before, read = before ++ [lexeme] ∧ I before

/-- A regular word is read, and the scan goes over it. -/
theorem tracks_wordOf
    (hsends : ∀ text, C (Token.reserved? text) → Sends ⟨.word, text⟩ P (Q (Token.reserved? text)))
    {lexeme : Lexeme} (hkind : lexeme.kind = .word) :
    Tracks (fun read _ => Behind lexeme (fun before => G → At P before) read)
      (wordOf program lexeme)
      fun n read _ => G ∧ n.isRegular = true ∧ C n.reserved? → At (Q n.reserved?) read := by
  intro stream n rest _ h
  obtain ⟨parts, rfl, hparse⟩ := wordOf_eq_ok h
  obtain rfl := wordOf_rest h
  refine ⟨[], rfl, ?_⟩
  rintro read ⟨before, rfl, hP⟩ ⟨hG, hregular, hC⟩
  have hreserved : (Node.word parts).reserved? = Token.reserved? lexeme.text :=
    Word.reserved?_render hparse
  rw [hreserved] at hC ⊢
  rw [List.append_nil]
  have hsymbol : lexeme.symbol = ⟨.word, lexeme.text⟩ := by simp [Lexeme.symbol, hkind]
  refine (hP hG).step (fun _ more hmore hread => ?_) (hsymbol ▸ hsends lexeme.text hC)
  exact (Word.parse_regular hkeeps hparse hregular hread).1 hmore

theorem tracks_anyWord
    (hsends : ∀ text, C (Token.reserved? text) → Sends ⟨.word, text⟩ P (Q (Token.reserved? text))) :
    Tracks (fun read _ => G → At P read) (anyWord program)
      fun n read _ => G ∧ n.isRegular = true ∧ C n.reserved? → At (Q n.reserved?) read := by
  refine tracks_current tracks_unexpected fun lexeme items finish _ => ?_
  refine .cond (fun hkind => ?_) fun _ => tracks_unexpected _
  exact TracksAt.advance (fun read hP => ⟨read, rfl, hP⟩)
    (tracks_wordOf hkeeps hsends (eq_of_beq hkind))

/-- The kinds of words that the scan tells apart where a command may start or not. -/
def Passes (start : Bool) (reserved : Option Token) : Prop :=
  start = true → reserved ≠ some .caseWord ∧ reserved ≠ some .esacWord

omit hkeeps in
theorem sends_wordAfter (start : Bool) (text : String)
    (h : Passes start (Token.reserved? text)) : Sends ⟨.word, text⟩ (IsAt u d start)
      (IsAt u d (Substitution.opensCommand (Token.reserved? text))) :=
  fun track htrack => ⟨_, track.step_word text, htrack.word h⟩

omit hkeeps in
/-- What is known behind a word that stands where it is. -/
theorem after_word {start : Bool} {n : Node} {read : List Lexeme}
    (h : G ∧ n.isRegular = true ∧ Passes start n.reserved? →
      At (IsAt u d (Substitution.opensCommand n.reserved?)) read)
    (hafter : G ∧ (n.wordAfter start).isSome = true) :
    At (IsAt u d ((n.wordAfter start).getD true)) read := by
  obtain ⟨hG, hsome⟩ := hafter
  obtain ⟨after, hafter⟩ := Option.isSome_iff_exists.mp hsome
  obtain ⟨hregular, hpasses, hopens⟩ := Node.wordAfter_eq_some.mp hafter
  rw [hafter, Option.getD_some, hopens]
  exact h ⟨hG, hregular, hpasses⟩

theorem tracks_wordAt (start : Bool) {lexeme : Lexeme} (hkind : lexeme.kind = .word) :
    Tracks (fun read _ => Behind lexeme (fun before => G → At (IsAt u d start) before) read)
      (wordOf program lexeme) fun n read _ => G ∧ (n.wordAfter start).isSome = true →
        At (IsAt u d ((n.wordAfter start).getD true)) read :=
  (tracks_wordOf hkeeps (C := Passes start)
    (Q := fun reserved => IsAt u d (Substitution.opensCommand reserved)) (sends_wordAfter start)
      hkind).weaken (fun _ _ h => h) fun _ _ _ => after_word

theorem tracks_anyWordAt (start : Bool) :
    Tracks (fun read _ => G → At (IsAt u d start) read) (anyWord program)
      fun n read _ => G ∧ (n.wordAfter start).isSome = true →
        At (IsAt u d ((n.wordAfter start).getD true)) read :=
  (tracks_anyWord hkeeps (C := Passes start)
    (Q := fun reserved => IsAt u d (Substitution.opensCommand reserved))
      (sends_wordAfter start)).weaken (fun _ _ h => h) fun _ _ _ => after_word

omit hkeeps in
/-- Words that a state is threaded through, as the scan has it. -/
theorem tracks_many_words {f : Bool → Node → Option Bool} {step : Grammar (Option Node)}
    (hstep : ∀ (G : Prop) (start : Bool), Tracks (fun read _ => G → At (IsAt u d start) read) step
      fun next read _ =>
        match next with
        | none => G → At (IsAt u d start) read
        | some n => G ∧ (f start n).isSome = true → At (IsAt u d ((f start n).getD true)) read)
    (start : Bool) :
    Tracks (fun read _ => G → At (IsAt u d start) read) (many step) fun found read _ =>
      G ∧ (found.foldlM f start).isSome = true →
        At (IsAt u d ((found.foldlM f start).getD true)) read := by
  refine (tracks_many (K := fun found read _ => G ∧ (found.foldlM f start).isSome = true →
    At (IsAt u d ((found.foldlM f start).getD true)) read) fun found => ?_).weaken
      (fun _ _ h hG => h hG.1) fun _ _ _ h => h
  refine (hstep _ _).weaken (fun _ _ h => h) fun next read _ h => ?_
  cases next with
  | none => exact h
  | some n =>
      rintro ⟨hG, hsome⟩
      rw [List.foldlM_append] at hsome ⊢
      cases hfound : found.foldlM f start with
      | none => simp [hfound] at hsome
      | some before =>
          simp only [hfound, Option.isSome_some, Option.getD_some] at h hsome ⊢
          simp only [List.foldlM_cons, List.foldlM_nil, bind_pure, Option.bind_eq_bind,
            Option.bind_some] at hsome ⊢
          exact h ⟨⟨hG, trivial⟩, hsome⟩

theorem tracks_words : Tracks (fun read _ => G → At (IsAt u d false) read) (words program)
    fun found read _ => G ∧ (found.foldlM Node.wordAfter false).isSome = true →
      At (IsOpen u d) read := by
  refine (tracks_many_words (f := Node.wordAfter) (fun G start => ?_) false).weaken
    (fun _ _ h => h) fun _ _ _ h hG => (h hG).mono fun _ htrack => htrack.1
  refine tracks_current (.pure fun _ _ h => h) fun lexeme items finish _ => ?_
  refine .cond (fun hkind => ?_) fun _ => .pure fun _ h => h
  exact TracksAt.advance (fun read hP => ⟨read, rfl, hP⟩)
    ((tracks_wordAt hkeeps _ (eq_of_beq hkind)).bind fun n => .pure fun _ _ h => h)

theorem tracks_redirection (descriptor : Option Nat) (start : Bool) :
    Tracks (fun read _ => G → At (IsAt u d (start && descriptor.isNone)) read)
      (redirection program descriptor)
      fun n read _ => G ∧ (n.argumentAfter start).isSome = true →
        At (IsAt u d ((n.argumentAfter start).getD true)) read := by
  refine tracks_current tracks_unexpected fun lexeme items finish hproper => ?_
  simp only [Option.map_some]
  split
  · rename_i token hkind
    refine .cond (fun htoken => ?_) fun _ => tracks_unexpected _
    have htoken? : lexeme.token? = some token := by
      simp [Lexeme.token?, Option.some.inj hkind]
    refine TracksAt.advance (J := fun read _ => G → At (IsAt u d
      (token == .lessAnd || token == .greatAnd || start && descriptor.isNone)) read)
      (fun read hP hG => (hP hG).readToken hproper htoken? (Track.sends_redirection htoken)) ?_
    exact (tracks_anyWordAt hkeeps _).bind fun target => .pure fun _ _ h => h
  · exact tracks_unexpected _

theorem tracks_argument (start : Bool) :
    Tracks (fun read _ => G → At (IsAt u d start) read) (argument program) fun next read _ =>
      match next with
      | none => G → At (IsAt u d start) read
      | some n => G ∧ (n.argumentAfter start).isSome = true →
          At (IsAt u d ((n.argumentAfter start).getD true)) read := by
  refine tracks_current (.pure fun _ _ h => h) fun lexeme items finish _ => ?_
  cases hkind : lexeme.kind with
  | word =>
      simp only [hkind]
      have hparts : ∀ stream n rest, wordOf program lexeme stream = .ok (n, rest) →
          ∃ parts, n = Node.word parts := by
        intro stream n rest h
        obtain ⟨parts, hn, _⟩ := wordOf_eq_ok h
        exact ⟨parts, hn⟩
      have hword := (tracks_wordAt (G := G) (u := u) (d := d) hkeeps start hkind).also hparts
      refine TracksAt.advance (fun read hP => ⟨read, rfl, hP⟩)
        (hword.bind fun n => .pure fun _ _ h => ?_)
      obtain ⟨⟨parts, rfl⟩, h⟩ := h
      exact h
  | descriptor =>
      simp only [hkind]
      refine TracksAt.advance (J := fun read _ => G → At (IsAt u d (start && false)) read)
        (fun read hP hG => ?_) (.cond (fun _ => ?_) fun _ => tracks_failHere)
      · have hsymbol : lexeme.symbol = ⟨.descriptor, lexeme.text⟩ := by
          simp [Lexeme.symbol, hkind]
        rw [Bool.and_false]
        exact (hP hG).step (lexeme.isRegular_of_kind (by simp [hkind]))
          (hsymbol ▸ Track.sends_descriptor lexeme.text)
      · exact (tracks_redirection hkeeps (some _) start).bind fun n => .pure fun _ _ h => h
  | op token =>
      simp only [hkind]
      refine .cond (fun _ => ?_) fun _ => .pure fun _ h => h
      exact (((tracks_redirection hkeeps none start).weaken (fun _ _ h => by simpa using h)
        fun _ _ _ h => h).bind fun n => .pure fun _ _ h => h) _
  | newline =>
      simp only [hkind]
      exact .pure fun _ h => h

theorem tracks_simpleCommand : Tracks (fun read _ => G → At (IsReady u d) read)
    (simpleCommand program) fun n read _ => G ∧ n.isScannable = true → At (IsOpen u d) read := by
  have hargs := tracks_many_words (G := G) (u := u) (d := d) (f := Node.argumentAfter)
    (fun G start => tracks_argument hkeeps (G := G) start) true
  refine (hargs.weaken (fun _ _ h hG => (h hG).mono fun _ => IsReady.isAt) fun _ _ _ h => h).bind
    fun args => ?_
  refine .cond (fun _ => tracks_unexpected) fun _ => .pure fun _ _ h hG => ?_
  exact (h (by simpa [Node.isScannable] using hG)).mono fun _ htrack => htrack.1

end Words

/-! ## Lists of statements -/

/-- Where a command may start, the scan goes over the command. -/
def Scans (command : Grammar Node) : Prop :=
  ∀ (G : Prop) (u d : Nat), Tracks (fun read _ => G → At (IsReady u d) read) command
    fun n read _ => G ∧ n.isScannable = true → At (IsOpen u d) read

section Statements

variable {command : Grammar Node} (hcommand : Scans command)

theorem ready_atCommand (track : Track) (h : track.IsReady u d) : track.atCommand.IsReady u d :=
  h.1.atCommand

include hcommand

theorem tracks_pipeline : Tracks (fun read _ => G → At (IsReady u d) read) (pipeline command)
    fun n read _ => G ∧ n.isScannable = true → At (IsOpen u d) read := by
  refine (hcommand G u d).bind fun first => tracks_remaining.bind fun bound => ?_
  refine tracks_extend (K := fun (n : Node) read _ => G ∧ n.isScannable = true →
    At (IsOpen u d) read) (fun left => ?_) bound first
  refine tracks_ifOperator (Track.sends_atCommand (by decide)) ?_ (.pure fun _ _ h => h)
  refine (tracks_skipNewlines_at ready_atCommand).bind fun _ => ?_
  refine (hcommand _ u d).bind fun right => .pure fun _ _ h hG => h ?_
  simpa [Node.isScannable, and_assoc] using hG

omit hcommand in
/-- Reads the operator that joins two pipelines, if it is the next lexeme. -/
theorem tracks_ifJoined {β : Type} {R : β → List Lexeme → Lexemes → Prop} {next : Token → Grammar β}
    {other : Grammar β}
    (hnext : ∀ token, Tracks (fun read _ => G → At (IsReady u d) read) (next token) R)
    (hother : Tracks (fun read _ => G → At (IsOpen u d) read) other R) :
    Tracks (fun read _ => G → At (IsOpen u d) read) (do
      match ← listOperator with
      | some token => do { advance; next token }
      | none => other) R := by
  rintro ⟨items, finish⟩ b rest hproper h
  rw [bind_ok (listOperator_eq items finish)] at h
  cases hjoining : (frontOf items).bind joining? with
  | none =>
      rw [hjoining] at h
      exact hother _ b rest hproper h
  | some token =>
      rw [hjoining] at h
      cases items with
      | nil => cases hjoining
      | cons lexeme items =>
          have hkind : lexeme.kind = .op token ∧ (token = .andAnd ∨ token = .orOr) := by
            have hjoin : joining? lexeme.symbol = some token := hjoining
            unfold joining? at hjoin
            split at hjoin <;> cases hjoin
            · exact ⟨by assumption, .inl rfl⟩
            · exact ⟨by assumption, .inr rfl⟩
          have hsends : Sends token.symbol (IsOpen u d) (IsReady u d) := by
            rcases hkind.2 with rfl | rfl
            · exact Track.sends_atCommand (by decide)
            · exact Track.sends_atCommand (by decide)
          refine TracksAt.advance (I := fun read _ => G → At (IsOpen u d) read)
            (fun read hP hG => ?_) (hnext token) b rest hproper h
          exact (hP hG).readToken (hproper lexeme (by simp)) (by simp [Lexeme.token?, hkind.1]) hsends

theorem tracks_andOrList : Tracks (fun read _ => G → At (IsReady u d) read) (andOrList command)
    fun n read _ => G ∧ n.isScannable = true → At (IsOpen u d) read := by
  refine (tracks_pipeline hcommand).bind fun first => tracks_remaining.bind fun bound => ?_
  refine tracks_extend (K := fun (n : Node) read _ => G ∧ n.isScannable = true →
    At (IsOpen u d) read) (fun left => ?_) bound first
  refine tracks_ifJoined (fun token => ?_) (.pure fun _ _ h => h)
  refine (tracks_skipNewlines_at ready_atCommand).bind fun _ => ?_
  refine (tracks_pipeline hcommand).bind fun right => .pure fun _ _ h hG => h ?_
  simpa [Node.isScannable, and_assoc] using hG

omit hcommand in
theorem tracks_endOfStatement (stops : List Token) :
    Tracks (fun read _ => G → At (IsOpen u d) read) (endOfStatement stops)
      fun following read _ =>
        match following with
        | .more => G → At (IsReady u d) read
        | .last => G → At (IsOpen u d) read := by
  refine tracks_current (.pure fun _ _ h => h) fun lexeme items finish hproper => ?_
  refine .cond (fun hends => ?_) fun _ =>
    .cond (fun _ => .pure fun _ h => h) fun _ => tracks_unexpected _
  refine TracksAt.advance (J := fun read _ => G → At (IsReady u d) read) (fun read hP hG => ?_)
    (.pure fun _ _ h => h)
  simp only [Bool.or_eq_true, beq_iff_eq] at hends
  rcases hends with hkind | hkind
  · have htoken : lexeme.token? = some .semicolon := by simp [Lexeme.token?, hkind]
    exact (hP hG).readToken hproper htoken (Track.sends_atCommand (by decide))
  · exact (hP hG).newline hkind fun _ h => h.atCommand

theorem tracks_nextStatement (stops : List Token) :
    Tracks (fun read _ => G → At (IsReady u d) read) (nextStatement command stops)
      fun found read _ =>
        match found with
        | none => G → At (IsReady u d) read
        | some (n, .more) => G ∧ n.isScannable = true → At (IsReady u d) read
        | some (n, .last) => G ∧ n.isScannable = true → At (IsOpen u d) read := by
  rw [nextStatement_eq]
  refine (tracks_skipNewlines_at ready_atCommand).bind fun _ => ?_
  refine tracks_front.bind fun front => ?_
  refine .cond (fun _ => .pure fun _ _ h => h) fun _ => ?_
  refine (tracks_andOrList hcommand).bind fun statement => ?_
  cases statement with
  | command args background =>
      refine tracks_ifOperator (Track.sends_atCommand (by decide)) ?_ ?_
      · refine tracks_ifOperator ((Track.sends_atCommand (by decide)).mono fun _ h => h.1) ?_ ?_
        · exact .pure fun _ _ h => h
        · exact .pure fun _ _ h => h
      · refine (tracks_endOfStatement stops).bind fun following => .pure fun _ _ h => ?_
        cases following <;> exact h
  | _ =>
      refine (tracks_atOperator .ampersand).bind fun _ => .cond (fun _ => tracks_failHere) fun _ => ?_
      refine (tracks_endOfStatement stops).bind fun following => .pure fun _ _ h => ?_
      cases following <;> exact h

theorem tracks_statements (stops : List Token) (bound : List Lexeme) (found : List Node) :
    Tracks (fun read _ => G ∧ Node.areScannable found = true → At (IsReady u d) read)
      (statements command stops bound found)
      fun body read _ => G ∧ Node.areScannable body = true → At (IsOpen u d) read := by
  have hreverse : ∀ {nodes : List Node}, Node.areScannable nodes.reverse = true →
      Node.areScannable nodes = true := by
    intro nodes h
    rwa [Node.areScannable_eq, List.all_reverse, ← Node.areScannable_eq] at h
  have hcons : ∀ {n : Node} {nodes : List Node}, G ∧ Node.areScannable (n :: nodes) = true →
      (G ∧ Node.areScannable nodes = true) ∧ n.isScannable = true := by
    rintro n nodes ⟨hG, hnodes⟩
    rw [Node.areScannable, Bool.and_eq_true] at hnodes
    exact ⟨⟨hG, hnodes.2⟩, hnodes.1⟩
  have hopen : ∀ {read : List Lexeme}, At (IsReady u d) read → At (IsOpen u d) read :=
    fun h => h.mono fun _ h => h.1
  induction bound generalizing found with
  | nil =>
      unfold statements
      refine (tracks_nextStatement hcommand stops).bind fun next => ?_
      rcases next with _ | ⟨statement, _ | _⟩
      · exact .pure fun _ _ h hG => hopen (h ⟨hG.1, hreverse hG.2⟩)
      · exact .pure fun _ _ h hG => hopen (h (hcons ⟨hG.1, hreverse hG.2⟩))
      · exact .pure fun _ _ h hG => h (hcons ⟨hG.1, hreverse hG.2⟩)
  | cons lexeme bound ih =>
      unfold statements
      refine (tracks_nextStatement hcommand stops).bind fun next => ?_
      rcases next with _ | ⟨statement, _ | _⟩
      · exact .pure fun _ _ h hG => hopen (h ⟨hG.1, hreverse hG.2⟩)
      · exact (ih (statement :: found)).weaken (fun _ _ h hG => h (hcons hG)) fun _ _ _ h => h
      · exact .pure fun _ _ h hG => h (hcons ⟨hG.1, hreverse hG.2⟩)

theorem tracks_statementList (stops : List Token) :
    Tracks (fun read _ => G → At (IsReady u d) read) (statementList command stops)
      fun body read _ => G ∧ Node.areScannable body = true → At (IsOpen u d) read :=
  tracks_remaining.bind fun bound =>
    (tracks_statements hcommand stops bound []).weaken (fun _ _ h hG => h hG.1) fun _ _ _ h => h

theorem tracks_statementBody (stops : List Token) :
    Tracks (fun read _ => G → At (IsReady u d) read) (statementBody command stops)
      fun body read _ => G ∧ Node.areScannable body = true → At (IsOpen u d) read :=
  (tracks_statementList hcommand stops).bind fun _ =>
    .cond (fun _ => tracks_unexpected) fun _ => .pure fun _ _ h => h

theorem tracks_condition (stop : Token) :
    Tracks (fun read _ => G → At (IsReady u d) read) (condition command stop)
      fun n read _ => G ∧ n.isScannable = true → At (IsOpen u d) read := by
  refine (tracks_statementBody hcommand [stop]).bind fun body => ?_
  split
  · exact .pure fun _ _ h hG => h (by simpa [Node.areScannable] using hG)
  · exact .pure fun _ _ h hG => h (by simpa [Node.isScannable] using hG)

end Statements

/-! ## Compound commands -/

section Compounds

variable {level : Level} (hcommand : Scans level.command)

/-- The word that opens a compound command. -/
theorem tracks_open {token : Token} (htoken : token ∈ [Token.ifWord, .thenWord, .elifWord,
    .elseWord, .whileWord, .doWord, .leftBrace]) :
    Tracks (fun read _ => G → At (IsReady u d) read) (expect token)
      fun _ read _ => G → At (IsReady u d) read :=
  tracks_expect ((Track.sends_word_opening htoken).mono fun _ h => h.1)

/-- The word that closes a compound command, which has been read before it. -/
theorem tracks_closed {token : Token} {G' : Prop} {n : Node}
    (htoken : token ∈ [Token.fiWord, .doneWord, .rightBrace, .forWord, .inWord])
    (hG : G ∧ n.isScannable = true → G') :
    Tracks (fun read _ => G' → At (IsOpen u d) read) (do
        expect token
        return n)
      fun n read _ => G ∧ n.isScannable = true → At (IsOpen u d) read :=
  (tracks_expect (Track.sends_word_closing htoken)).bind fun _ =>
    .pure fun _ _ h hn => (h (hG hn)).mono fun _ h => h.1

section Bodies

include hcommand

theorem tracks_subshell : Tracks (fun read _ => G → At (IsReady u d) read) level.subshell
    fun n read _ => G ∧ n.isScannable = true → At (IsOpen u d) read := by
  refine (tracks_expect (Track.sends_leftParen_open.mono fun _ h => h.1)).bind fun _ => ?_
  refine (tracks_statementBody hcommand _).bind fun body => ?_
  exact (tracks_expect Track.sends_rightParen_open).bind fun _ => .pure fun _ _ h => h

theorem tracks_group : Tracks (fun read _ => G → At (IsReady u d) read) level.group
    fun n read _ => G ∧ n.isScannable = true → At (IsOpen u d) read := by
  refine (tracks_open (by decide)).bind fun _ => ?_
  exact (tracks_statementBody hcommand _).bind fun body => tracks_closed (by decide) id

theorem tracks_whileLoop : Tracks (fun read _ => G → At (IsReady u d) read) level.whileLoop
    fun n read _ => G ∧ n.isScannable = true → At (IsOpen u d) read := by
  refine (tracks_open (by decide)).bind fun _ => ?_
  refine (tracks_condition hcommand .doWord).bind fun test => ?_
  refine (tracks_expect (Track.sends_word_opening (by decide))).bind fun _ => ?_
  refine (tracks_statementBody hcommand _).bind fun body => tracks_closed (by decide) fun hG => ?_
  simpa [Node.isScannable, and_assoc] using hG

theorem tracks_elifBranch : Tracks (fun read _ => G → At (IsOpen u d) read) level.elifBranch
    fun found read _ => found.elim (G → At (IsOpen u d) read) fun branch =>
      G ∧ branch.isScannable = true → At (IsOpen u d) read := by
  refine tracks_ifAtToken (Track.sends_word_opening (by decide)) ?_ (.pure fun _ _ h => h)
  refine (tracks_condition hcommand .thenWord).bind fun test => ?_
  refine (tracks_expect (Track.sends_word_opening (by decide))).bind fun _ => ?_
  refine (tracks_statementBody hcommand _).bind fun body => .pure fun _ _ h hG => h ?_
  simpa [Branch.isScannable, and_assoc] using hG

theorem tracks_conditional : Tracks (fun read _ => G → At (IsReady u d) read) level.conditional
    fun n read _ => G ∧ n.isScannable = true → At (IsOpen u d) read := by
  refine (tracks_open (by decide)).bind fun _ => ?_
  refine (tracks_condition hcommand .thenWord).bind fun test => ?_
  refine (tracks_expect (Track.sends_word_opening (by decide))).bind fun _ => ?_
  refine (tracks_statementBody hcommand _).bind fun body => ?_
  refine (tracks_many_all (S := Branch.isScannable) fun G => tracks_elifBranch hcommand).bind
    fun elifs => ?_
  refine tracks_ifAtToken (Track.sends_word_opening (by decide)) ?_
    (tracks_closed (by decide) fun hG => ?_)
  · refine (tracks_statementBody hcommand _).bind fun otherwise =>
      tracks_closed (by decide) fun hG => ?_
    simpa [Node.isScannable, Branch.areScannable_eq, and_assoc] using hG
  · simpa [Node.isScannable, Branch.areScannable_eq, Node.areScannable, and_assoc] using hG

end Bodies

variable (hkeeps : level.program.KeepsOpening)

theorem tracks_loopName : Tracks (fun read _ => G → At (IsAt u d false) read) Level.loopName
    fun _ read _ => G → At (IsOpen u d) read := by
  refine tracks_current tracks_unexpected fun lexeme items finish _ => ?_
  refine .cond (fun hkind => .cond (fun hname => ?_) fun _ => tracks_failHere _)
    fun _ => tracks_unexpected _
  refine TracksAt.advance (J := fun read _ => G → At (IsOpen u d) read) (fun read hP hG => ?_)
    (.pure fun _ _ h => h)
  have hsymbol : lexeme.symbol = ⟨.word, lexeme.text⟩ := by
    simp [Lexeme.symbol, eq_of_beq hkind]
  refine (hP hG).step (lexeme.isRegular_of_standsAlone (standsAlone_of_isName hname)) ?_
  rw [hsymbol]
  exact fun track h => ⟨_, track.step_word _, (h.word Bool.false_ne_true.elim).1⟩

theorem tracks_endOfWords : Tracks (fun read _ => G → At (IsOpen u d) read) Level.endOfWords
    fun _ read _ => G → At (IsReady u d) read := by
  refine tracks_current tracks_unexpected fun lexeme items finish hproper => ?_
  have hadvance : (∀ read, At (IsOpen u d) read → At (IsReady u d) (read ++ [lexeme])) →
      TracksAt ⟨lexeme :: items, finish⟩ (fun read _ => G → At (IsOpen u d) read) (advance >>= pure)
        fun _ read _ => G → At (IsReady u d) read := fun hread =>
    TracksAt.advance (fun read hP hG => hread read (hP hG)) (.pure fun _ _ h => h)
  simp only [Option.map_some]
  split
  · rename_i hkind
    have htoken : lexeme.token? = some .semicolon := by
      simp [Lexeme.token?, Option.some.inj hkind]
    exact hadvance fun read h => h.readToken hproper htoken (Track.sends_atCommand (by decide))
  · rename_i hkind
    exact hadvance fun read h => h.newline (Option.some.inj hkind) fun _ h => h.atCommand
  · exact tracks_unexpected _

include hcommand hkeeps

theorem tracks_forLoop : Tracks (fun read _ => G → At (IsReady u d) read) level.forLoop
    fun n read _ => G ∧ n.isScannable = true → At (IsOpen u d) read := by
  refine (tracks_expect ((Track.sends_word_closing (by decide)).mono fun _ h => h.1)).bind fun _ => ?_
  refine tracks_loopName.bind fun name => ?_
  refine (tracks_skipNewlines_at fun _ h => h.atCommand.1).bind fun _ => ?_
  refine (tracks_expect (Track.sends_word_closing (by decide))).bind fun _ => ?_
  refine (tracks_words hkeeps).bind fun values => tracks_endOfWords.bind fun _ => ?_
  refine (tracks_skipNewlines_at ready_atCommand).bind fun _ => ?_
  refine (tracks_open (by decide)).bind fun _ => ?_
  refine (tracks_statementBody hcommand _).bind fun body => tracks_closed (by decide) fun hG => ?_
  simpa [Node.isScannable, and_assoc] using hG

/-! ### Choices -/

omit hcommand in
theorem tracks_pattern : Tracks (fun read _ => G → At (IsAmong u d) read) (anyWord level.program)
    fun n read _ => G ∧ n.isScannablePattern = true → At (IsAmong u d) read := by
  refine (tracks_anyWord hkeeps (C := fun reserved => reserved ≠ some .esacWord)
    (Q := fun _ => IsAmong u d) fun text htext track h => ?_).weaken (fun _ _ h => h)
      fun n _ _ h hG => h ?_
  · exact ⟨_, track.step_word text, h.word htext⟩
  · simpa [Node.isScannablePattern] using hG

omit hcommand in
theorem tracks_furtherPattern : Tracks (fun read _ => G → At (IsAmong u d) read)
    level.furtherPattern fun found read _ => found.elim (G → At (IsAmong u d) read) fun n =>
      G ∧ n.isScannablePattern = true → At (IsAmong u d) read := by
  refine tracks_ifOperator (Track.sends_atCommand_among (by decide)) ?_ (.pure fun _ _ h => h)
  exact (tracks_pattern hkeeps).bind fun n => .pure fun _ _ h => h

theorem tracks_arm : Tracks (fun read _ => G → At (IsAmong u d) read) level.arm
    fun arm read _ => G ∧ arm.isScannable = true → At (IsOpen u d) read := by
  have hrest : Tracks (fun read _ => G → At (IsAmong u d) read) (do
      let first ← anyWord level.program
      let others ← many level.furtherPattern
      expect .rightParen
      skipEmptyEnd
      let body ← statementList level.command [.doubleSemicolon, .esacWord]
      return Arm.mk (first :: others) body)
      fun arm read _ => G ∧ arm.isScannable = true → At (IsOpen u d) read := by
    refine (tracks_pattern hkeeps).bind fun first => ?_
    refine (tracks_many_all fun G => tracks_furtherPattern hkeeps).bind fun others => ?_
    refine (tracks_expect Track.sends_rightParen_among).bind fun _ => ?_
    refine (tracks_skipEmptyEnd ((Track.sends_atCommand (by decide)).mono fun _ h => h.1)).bind
      fun _ => ?_
    refine (tracks_statementList hcommand _).bind fun body => .pure fun _ _ h hG => h ?_
    simpa [Arm.isScannable, and_assoc] using hG
  exact tracks_ifOperator Track.sends_leftParen_among hrest hrest

/-- Between two arms the scan is among patterns, or the choice ends without further ones. -/
def BetweenArms (G : Prop) (u d : Nat) (read : List Lexeme) (stream : Lexemes) : Prop :=
  G → At (IsAmong u d) read ∨
    At (IsOpen u d) read ∧
      (stream.items.head?.any fun lexeme => lexeme.token? == some .esacWord) = true

omit hcommand hkeeps in
theorem tracks_skipNewlines_betweenArms :
    Tracks (BetweenArms G u d) skipNewlines fun _ => BetweenArms G u d := by
  refine tracks_skipNewlines fun read lexeme items finish hkind h hG => ?_
  rcases h hG with hamong | ⟨_, hend⟩
  · exact .inl (hamong.newline hkind fun _ h => h.atCommand)
  · simp [Lexeme.token?, hkind] at hend

theorem tracks_nextArm (hd : 0 < d) :
    Tracks (BetweenArms G u d) level.nextArm fun found read stream =>
      found.elim (BetweenArms G u d read stream) fun arm =>
        BetweenArms (G ∧ arm.isScannable = true) u d read stream := by
  obtain ⟨d, rfl⟩ : ∃ k, d = k + 1 := ⟨d - 1, by omega⟩
  refine tracks_skipNewlines_betweenArms.bind fun _ => ?_
  refine (tracks_atToken .esacWord).bind fun found => ?_
  refine .cond (fun _ => .pure fun _ _ h => h.1) fun hgoes => ?_
  have harm : Tracks (fun read _ => G → At (IsAmong u (d + 1)) read) level.arm
      fun arm read _ => G ∧ arm.isScannable = true → At (IsOpen u (d + 1)) read :=
    tracks_arm hcommand hkeeps
  refine (harm.weaken (fun read stream h hG => ?_) fun _ _ _ h => h).bind fun arm => ?_
  · rcases h.1 hG with hamong | ⟨_, hend⟩
    · exact hamong
    · exact absurd (h.2.trans hend) hgoes
  · refine tracks_ifOperator Track.sends_doubleSemicolon (.pure fun _ _ h hG => .inl (h hG)) ?_
    refine (tracks_skipNewlines_at fun _ h => h.atCommand.1).bind fun _ => ?_
    refine (tracks_atToken .esacWord).bind fun found => .cond (fun hfound => ?_)
      fun _ => tracks_unexpected
    exact .pure fun _ _ h hG => .inr ⟨h.1 hG, h.2.symm.trans hfound⟩

theorem tracks_choice : Tracks (fun read _ => G → At (IsReady u d) read) level.choice
    fun n read _ => G ∧ n.isScannable = true → At (IsOpen u d) read := by
  refine (tracks_expect Track.sends_case).bind fun _ => ?_
  refine (tracks_anyWord hkeeps (C := fun _ => True) (Q := fun _ => IsChosen u (d + 1))
    fun text _ => Track.sends_subject text).bind fun subject => ?_
  refine (tracks_skipNewlines_at fun _ h => h.atCommand).bind fun _ => ?_
  refine (tracks_expect Track.sends_in).bind fun _ => ?_
  refine (tracks_skipNewlines_at fun _ h => h.atCommand).bind fun _ => ?_
  refine (tracks_skipEmptyEnd (Track.sends_atCommand_among (by decide))).bind fun _ => ?_
  have harms : ∀ {G : Prop}, Tracks (fun read _ => G → At (IsAmong u (d + 1)) read)
      (many level.nextArm) fun arms read _ => G ∧ Arm.areScannable arms = true →
        At (fun track => track.IsAmong u (d + 1) ∨ track.IsOpen u (d + 1)) read := by
    intro G
    refine (tracks_many (K := fun arms => BetweenArms (G ∧ Arm.areScannable arms = true) u (d + 1))
      fun found => ?_).weaken (fun _ _ h hG => .inl (h hG.1)) fun arms _ _ h hG => ?_
    · refine (tracks_nextArm hcommand hkeeps d.succ_pos).weaken (fun _ _ h => h) fun next _ _ h => ?_
      cases next with
      | none => exact h
      | some arm => exact fun hG => h (by simpa [Arm.areScannable_eq, and_assoc] using hG)
    · rcases h hG with hamong | ⟨hopen, _⟩
      · exact hamong.mono fun _ h => .inl h
      · exact hopen.mono fun _ h => .inr h
  refine harms.bind fun arms => ?_
  have hends : Sends Token.esacWord.symbol
      (fun track => track.IsAmong u (d + 1) ∨ track.IsOpen u (d + 1)) (IsOpen u d) := by
    rintro track (hamong | hopen)
    · exact Track.sends_esac_among track hamong
    · exact Track.sends_esac_open track hopen
  refine (tracks_expect hends).bind fun _ => .pure fun _ _ h hG => h ?_
  simpa [Node.isScannable, and_assoc] using hG

/-! ### Functions -/

omit hkeeps in
/-- The name of a function is a word that neither starts nor ends a choice. -/
theorem tracks_function {lexeme : Lexeme} {items : List Lexeme} {finish : Position}
    (hkind : lexeme.kind = .word) (hstarts : mayStart lexeme.text = true) :
    TracksAt ⟨lexeme :: items, finish⟩ (fun read _ => G → At (IsReady u d) read) level.function
      fun n read _ => G ∧ n.isScannable = true → At (IsOpen u d) read := by
  intro n rest hproper h
  obtain ⟨front, middle, hcurrent, h⟩ := bind_eq_ok h
  cases hcurrent
  have hname : ∀ read, (G → At (IsReady u d) read) → isName lexeme.text = true → G →
      At (IsOpen u d) (read ++ [lexeme]) := by
    intro read hP hname hG
    have hsymbol : lexeme.symbol = ⟨.word, lexeme.text⟩ := by simp [Lexeme.symbol, hkind]
    have hpasses : Token.reserved? lexeme.text ≠ some .caseWord ∧
        Token.reserved? lexeme.text ≠ some .esacWord := by
      unfold mayStart at hstarts
      constructor <;> intro hreserved <;> simp [hreserved] at hstarts
    refine (hP hG).step (lexeme.isRegular_of_standsAlone (standsAlone_of_isName hname)) ?_
    rw [hsymbol]
    exact fun track h => ⟨_, track.step_word _, (h.1.isAt.word fun _ => hpasses).1⟩
  have hdefinition : Tracks (fun read _ => isName lexeme.text = true → G → At (IsOpen u d) read) (do
      if isName lexeme.text then
        expect .leftParen
        expect .rightParen
        skipNewlines
        return Node.function lexeme.text (← level.command)
      else failAt lexeme.position (.notAnIdentifier lexeme.text))
      fun n read _ => G ∧ n.isScannable = true → At (IsOpen u d) read := by
    refine .cond (fun hname => ?_) fun _ => tracks_failAt
    refine ((tracks_expect Track.sends_leftParen_open).weaken (fun _ _ h => h hname)
      fun _ _ _ h => h).bind fun _ => ?_
    refine (tracks_expect Track.sends_rightParen_ready).bind fun _ => ?_
    refine (tracks_skipNewlines_at ready_atCommand).bind fun _ => ?_
    exact (hcommand G u d).bind fun body => .pure fun _ _ h => h
  exact TracksAt.advance (I := fun read _ => G → At (IsReady u d) read) hname hdefinition n rest
    hproper h

theorem tracks_compound {items : List Lexeme} {compound : Level → Grammar Node}
    (hcompound : compound? items = some compound) (finish : Position) :
    TracksAt ⟨items, finish⟩ (fun read _ => G → At (IsReady u d) read) (compound level)
      fun n read _ => G ∧ n.isScannable = true → At (IsOpen u d) read := by
  cases items with
  | nil => cases hcompound
  | cons lexeme items =>
      rcases compound?_eq_some hcompound with ⟨token, htoken⟩ | ⟨rfl, hkind, hstarts⟩
      · cases token <;> cases htoken
        · exact tracks_subshell hcommand _
        · exact tracks_group hcommand _
        · exact tracks_conditional hcommand _
        · exact tracks_whileLoop hcommand _
        · exact tracks_forLoop hcommand hkeeps _
        · exact tracks_choice hcommand hkeeps _
      · exact tracks_function hcommand hkind hstarts

end Compounds

/-! ## Commands and programs -/

theorem scans_command {below : Option Level} {program : Word.ProgramParser}
    (hbelow : ∀ level ∈ below, Scans level.command ∧ level.program.KeepsOpening)
    (hkeeps : program.KeepsOpening) : Scans (commandOn below program) := by
  rintro G u d ⟨items, finish⟩ n rest hproper h
  rw [commandOn_run] at h
  cases hcompound : compound? items with
  | some compound =>
      simp only [hcompound] at h
      cases below with
      | none => cases h
      | some level =>
          obtain ⟨hcommand, hlevel⟩ := hbelow level rfl
          exact tracks_compound hcommand hlevel hcompound finish n rest hproper h
  | none =>
      simp only [hcompound] at h
      split at h
      · exact tracks_simpleCommand hkeeps _ n rest hproper h
      · exact (tracks_unexpected : Tracks (fun read _ => G → At (IsReady u d) read) unexpected
          fun n read _ => G ∧ n.isScannable = true → At (IsOpen u d) read) _ n rest hproper h

theorem scans_atRoom (room : Nat) : Scans (Level.atRoom room).command := by
  induction room with
  | zero => exact scans_command (fun _ h => nomatch h) (keepsOpening_atRoom 0)
  | succ room ih =>
      refine scans_command ?_ (keepsOpening_atRoom (room + 1))
      rintro level ⟨⟩
      exact ⟨ih, keepsOpening_atRoom room⟩

end Grammar

/-- The scan goes over the lexemes of a scannable program, and is outside of its choices and
parentheses at the end. -/
theorem wholeProgram_scanned {room : Nat} {text : List Char} {stream rest : Lexemes}
    {program : Program} (hstream : Lexemes.ofText text = .ok stream)
    (h : wholeProgram (Level.atRoom room).command stream = .ok (program, rest))
    (hscannable : Node.areScannable program = true) :
    (∀ lexeme ∈ stream.items, lexeme.IsRegular) ∧
      ∃ finish, Track.start.steps (stream.items.map Lexeme.symbol) = some finish ∧
        finish.unmatched = 0 ∧ finish.cases.inPattern = false := by
  obtain ⟨hlist, hend⟩ := Grammar.wholeProgram_eq_ok h
  have hproper : Lexemes.All Lexeme.IsProper stream := fun lexeme hlexeme =>
    (Lexemes.ofText_wasRead hstream lexeme hlexeme).isProper
  obtain ⟨new, hnew, hread⟩ := Grammar.tracks_statementList (G := True) (u := 0) (d := 0)
    (Grammar.scans_atRoom room) [] stream program rest hproper hlist
  have hstart : Track.At (Track.IsReady 0 0) [] :=
    ⟨by simp, .start, rfl, ⟨rfl, rfl, rfl, Nat.zero_le _⟩, rfl⟩
  obtain ⟨hregular, finish, hsteps, hopen⟩ := hread [] (fun _ => hstart) ⟨trivial, hscannable⟩
  rw [List.nil_append] at hregular hsteps
  rw [hend, List.append_nil] at hnew
  rw [hnew]
  exact ⟨hregular, finish, hsteps, hopen.unmatched, hopen.inPattern⟩

end Conch.Syntax
