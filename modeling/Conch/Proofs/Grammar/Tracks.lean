import Conch.Proofs.Grammar.Ensures
import Conch.Proofs.Lexing.Tracking

/-!
# Where the scan is when a grammar has read

`g.Tracks I O` says how the scan for the end of a substitution follows the grammar `g`: if
`I` holds of the lexemes that were read before and those still to come, then `O` holds of
them when `g` has read its own.  Between the parts of a program the scan is open, ready for
a command, or among patterns; the rules below say how the tokens lead from one to another.
-/

namespace Conch.Syntax

/-- Reserved words are no operators. -/
def Lexeme.IsProper (lexeme : Lexeme) : Prop :=
  ∀ token, lexeme.kind = .op token → token ∉ Token.reservedWords

theorem Lexeme.WasRead.isProper {lexeme : Lexeme} (h : lexeme.WasRead) : lexeme.IsProper := by
  obtain ⟨c, rest, position, cursor, _, hread⟩ := h
  intro token hkind
  unfold Cursor.lexeme at hread
  split at hread
  · cases hread
  split at hread
  · cases hread
    cases hkind
  split at hread
  · rename_i found size hoperator
    cases hread
    cases hkind
    exact (Cursor.operator?_ends hoperator).1
  split at hread
  · cases hread
    cases hkind
  split at hread <;> cases hread
  cases hkind

namespace Track

/-! ## Tracks -/

/-- No choice waits for its patterns, and so much is unmatched and open at least. -/
structure IsOpen (unmatched depth : Nat) (track : Track) : Prop where
  unmatched : track.unmatched = unmatched
  awaitingIn : track.cases.awaitingIn = false
  inPattern : track.cases.inPattern = false
  depth : depth ≤ track.cases.depth

/-- A command may start. -/
def IsReady (unmatched depth : Nat) (track : Track) : Prop :=
  track.IsOpen unmatched depth ∧ track.cases.commandStart = true

/-- A command starts here at most if it is said to. -/
def IsAt (unmatched depth : Nat) (start : Bool) (track : Track) : Prop :=
  track.IsOpen unmatched depth ∧ (track.cases.commandStart = true → start = true)

/-- The choice before the scan has its patterns still to come. -/
structure IsAmong (unmatched depth : Nat) (track : Track) : Prop where
  unmatched : track.unmatched = unmatched
  awaitingIn : track.cases.awaitingIn = false
  inPattern : track.cases.inPattern = true
  depth : depth ≤ track.cases.depth

/-- The next word is the one that a choice is about. -/
structure IsAsked (unmatched depth : Nat) (track : Track) : Prop where
  unmatched : track.unmatched = unmatched
  awaitingIn : track.cases.awaitingIn = true
  inPattern : track.cases.inPattern = false
  commandStart : track.cases.commandStart = false
  depth : depth ≤ track.cases.depth

/-- The word that a choice is about was read.  If it was `in`, the scan goes on to the patterns. -/
structure IsChosen (unmatched depth : Nat) (track : Track) : Prop where
  unmatched : track.unmatched = unmatched
  awaitingIn : track.cases.awaitingIn = !track.cases.inPattern
  depth : depth ≤ track.cases.depth

/-- The symbol leads from tracks of one kind to tracks of another. -/
def Sends (symbol : Symbol) (P Q : Track → Prop) : Prop :=
  ∀ track, P track → ∃ after, track.step symbol = some after ∧ Q after

variable {u d : Nat} {start : Bool} {track : Track} {token : Token}

theorem Sends.mono {symbol : Symbol} {P Q P' : Track → Prop} (h : Sends symbol P Q)
    (hP : ∀ track, P' track → P track) : Sends symbol P' Q :=
  fun track htrack => h track (hP track htrack)

theorem IsReady.isAt (h : track.IsReady u d) : track.IsAt u d true := ⟨h.1, fun _ => rfl⟩

theorem IsOpen.isAt (h : track.IsOpen u d) : track.IsAt u d true := ⟨h, fun _ => rfl⟩

theorem step_word (track : Track) (text : String) : track.step ⟨.word, text⟩ =
    some { track with cases := track.cases.word (some text) } := rfl

theorem step_reserved (track : Track) (htoken : token ∈ Token.reservedWords) :
    track.step token.symbol =
      some { track with cases := track.cases.word (some token.text) } := by
  rw [Token.symbol, if_pos htoken]
  rfl

/-- A word outside of patterns is only a word. -/
theorem IsAt.word (h : track.IsAt u d start) {text : String}
    (htext : start = true → Token.reserved? text ≠ some .caseWord ∧
      Token.reserved? text ≠ some .esacWord) :
    IsAt u d (Substitution.opensCommand (Token.reserved? text))
      { track with cases := track.cases.word (some text) } := by
  obtain ⟨⟨hunmatched, hawaiting, hpattern, hdepth⟩, hstart⟩ := h
  have hnoted : track.cases.word (some text) =
      { track.cases with commandStart := Substitution.opensCommand (Token.reserved? text) } := by
    unfold Substitution.Cases.word
    simp only [Option.bind_some]
    split
    all_goals simp_all
  rw [hnoted]
  exact ⟨⟨hunmatched, hawaiting, hpattern, hdepth⟩, fun h => h⟩

/-- A word among patterns does not end the choice unless it is spelled so. -/
theorem IsAmong.word (h : track.IsAmong u d) {text : String}
    (htext : Token.reserved? text ≠ some .esacWord) :
    IsAmong u d { track with cases := track.cases.word (some text) } := by
  obtain ⟨hunmatched, hawaiting, hpattern, hdepth⟩ := h
  have hnoted : track.cases.word (some text) =
      { track.cases with commandStart := Substitution.opensCommand (Token.reserved? text) } := by
    unfold Substitution.Cases.word
    simp only [Option.bind_some]
    split
    all_goals simp_all
  rw [hnoted]
  exact ⟨hunmatched, hawaiting, hpattern, hdepth⟩

/-- After the word that a choice is about the scan waits for `in`. -/
theorem sends_subject (text : String) : Sends ⟨.word, text⟩ (IsAsked u d) (IsChosen u d) := by
  rintro track ⟨hunmatched, hawaiting, hpattern, hstart, hdepth⟩
  refine ⟨_, rfl, hunmatched, ?_, ?_⟩
  all_goals
    unfold Substitution.Cases.word
    simp only [Option.bind_some]
    split
    all_goals simp_all

theorem sends_descriptor (text : String) :
    Sends ⟨.descriptor, text⟩ (IsAt u d start) (IsAt u d false) :=
  fun _ h => ⟨_, rfl, ⟨h.1.unmatched, h.1.awaitingIn, h.1.inPattern, h.1.depth⟩,
    fun hstart => absurd hstart Bool.false_ne_true⟩

/-! ## Tokens -/

/-- The ampersand of an operator ends a command for the scan. -/
theorem sends_redirection (htoken : token.isRedirection = true) :
    Sends token.symbol (IsAt u d start)
      (IsAt u d (token == .lessAnd || token == .greatAnd || start)) := by
  rintro track ⟨⟨hunmatched, hawaiting, hpattern, hdepth⟩, hstart⟩
  cases token with
  | less | great | greatGreat =>
      exact ⟨_, rfl, ⟨hunmatched, hawaiting, hpattern, hdepth⟩, by simpa using hstart⟩
  | lessAnd | greatAnd =>
      exact ⟨_, rfl, ⟨hunmatched, hawaiting, hpattern, hdepth⟩, fun _ => rfl⟩
  | _ => cases htoken

theorem sends_word_opening (htoken : token ∈ [Token.ifWord, .thenWord, .elifWord, .elseWord,
    .whileWord, .doWord, .leftBrace]) : Sends token.symbol (IsOpen u d) (IsReady u d) := by
  intro track h
  have hreserved : token ∈ Token.reservedWords ∧ Token.reserved? token.text = some token ∧
      Substitution.opensCommand (some token) = true := by
    revert token
    decide
  obtain ⟨hmem, htext, hopens⟩ := hreserved
  refine ⟨_, step_reserved track hmem, (h.isAt.word fun _ => ?_).1, ?_⟩
  · rw [htext]
    revert token
    decide
  · simpa [Substitution.Cases.word, htext] using hopens

theorem sends_word_closing (htoken : token ∈ [Token.fiWord, .doneWord, .rightBrace, .forWord,
    .inWord]) : Sends token.symbol (IsOpen u d) (IsAt u d false) := by
  intro track h
  have hreserved : token ∈ Token.reservedWords ∧ Token.reserved? token.text = some token ∧
      Substitution.opensCommand (some token) = false := by
    revert token
    decide
  obtain ⟨hmem, htext, hopens⟩ := hreserved
  have hpasses : Token.reserved? token.text ≠ some .caseWord ∧
      Token.reserved? token.text ≠ some .esacWord := by
    rw [htext]
    revert token
    decide
  have hword := h.isAt.word fun _ => hpasses
  rw [htext, hopens] at hword
  exact ⟨_, step_reserved track hmem, hword⟩

theorem sends_case : Sends Token.caseWord.symbol (IsReady u d) (IsAsked u (d + 1)) := by
  rintro track ⟨⟨hunmatched, hawaiting, hpattern, hdepth⟩, hstart⟩
  have hcase : Token.reserved? Token.caseWord.text = some .caseWord := by decide
  refine ⟨_, step_reserved track (by decide), hunmatched, ?_, ?_, ?_, ?_⟩
  all_goals simp [Substitution.Cases.word, hcase, hstart, hpattern, Substitution.opensCommand,
    hdepth]

theorem sends_in : Sends Token.inWord.symbol (IsChosen u d) (IsAmong u d) := by
  rintro track ⟨hunmatched, hawaiting, hdepth⟩
  have hin : Token.reserved? Token.inWord.text = some .inWord := by decide
  refine ⟨_, step_reserved track (by decide), hunmatched, ?_, ?_, ?_⟩
  all_goals
    cases hpattern : track.cases.inPattern <;>
      simp [Substitution.Cases.word, hin, hawaiting, hpattern, hdepth]

theorem sends_esac_among : Sends Token.esacWord.symbol (IsAmong u (d + 1)) (IsOpen u d) := by
  rintro track ⟨hunmatched, hawaiting, hpattern, hdepth⟩
  have hesac : Token.reserved? Token.esacWord.text = some .esacWord := by decide
  have hopen : 0 < track.cases.depth := by omega
  refine ⟨_, step_reserved track (by decide), hunmatched, ?_, ?_, ?_⟩
  · simp [Substitution.Cases.word, hesac, hpattern, hopen, hawaiting]
  · simp [Substitution.Cases.word, hesac, hpattern, hopen]
  · simp only [Substitution.Cases.word, Option.bind_some, hesac, hpattern, hopen, Bool.or_true,
      decide_true, Bool.and_true, if_true]
    omega

/-- The scan may take the word at the end of a choice for another one. -/
theorem sends_esac_open : Sends Token.esacWord.symbol (IsOpen u (d + 1)) (IsOpen u d) := by
  rintro track ⟨hunmatched, hawaiting, hpattern, hdepth⟩
  have hesac : Token.reserved? Token.esacWord.text = some .esacWord := by decide
  refine ⟨_, step_reserved track (by decide), hunmatched, ?_, ?_, ?_⟩
  all_goals
    simp only [Substitution.Cases.word, Option.bind_some, hesac]
    split
    all_goals simp_all
    all_goals omega

theorem step_atCommand (htoken : token ∈ [Token.semicolon, .ampersand, .pipe, .andAnd, .orOr,
    .lessAnd, .greatAnd]) (track : Track) : track.step token.symbol = some track.atCommand := by
  simp only [List.mem_cons, List.not_mem_nil, or_false] at htoken
  rcases htoken with rfl | rfl | rfl | rfl | rfl | rfl | rfl <;> rfl

theorem IsOpen.atCommand (h : track.IsOpen u d) : track.atCommand.IsReady u d :=
  ⟨⟨h.unmatched, h.awaitingIn, h.inPattern, h.depth⟩, rfl⟩

theorem IsAmong.atCommand (h : track.IsAmong u d) : track.atCommand.IsAmong u d :=
  ⟨h.unmatched, h.awaitingIn, h.inPattern, h.depth⟩

theorem IsChosen.atCommand (h : track.IsChosen u d) : track.atCommand.IsChosen u d :=
  ⟨h.unmatched, h.awaitingIn, h.depth⟩

theorem sends_atCommand (htoken : token ∈ [Token.semicolon, .ampersand, .pipe, .andAnd, .orOr,
    .lessAnd, .greatAnd]) : Sends token.symbol (IsOpen u d) (IsReady u d) :=
  fun track h => ⟨_, step_atCommand htoken track, h.atCommand⟩

theorem sends_atCommand_among (htoken : token ∈ [Token.semicolon, .ampersand, .pipe, .andAnd,
    .orOr, .lessAnd, .greatAnd]) : Sends token.symbol (IsAmong u d) (IsAmong u d) :=
  fun track h => ⟨_, step_atCommand htoken track, h.atCommand⟩

theorem sends_leftParen_open : Sends Token.leftParen.symbol (IsOpen u d) (IsReady (u + 1) d) := by
  intro track h
  refine ⟨{ track.atCommand with unmatched := track.unmatched + 1 }, ?_,
    ⟨by rw [h.unmatched], h.awaitingIn, h.inPattern, h.depth⟩, rfl⟩
  exact if_neg (by simp [h.inPattern])

theorem sends_leftParen_among : Sends Token.leftParen.symbol (IsAmong u d) (IsAmong u d) :=
  fun track h => ⟨track.atCommand, if_pos h.inPattern, h.atCommand⟩

theorem step_rightParen (h : track.IsOpen (u + 1) d) :
    track.step Token.rightParen.symbol = some { track with unmatched := u } := by
  obtain ⟨unmatched, cases⟩ := track
  obtain rfl : unmatched = u + 1 := h.unmatched
  have hclosed : ¬cases.inPattern = true := by simpa using h.inPattern
  exact if_neg hclosed

theorem sends_rightParen_open : Sends Token.rightParen.symbol (IsOpen (u + 1) d) (IsOpen u d) :=
  fun _ h => ⟨_, step_rightParen h, rfl, h.awaitingIn, h.inPattern, h.depth⟩

theorem sends_rightParen_ready :
    Sends Token.rightParen.symbol (IsReady (u + 1) d) (IsReady u d) :=
  fun _ h => ⟨_, step_rightParen h.1, ⟨rfl, h.1.awaitingIn, h.1.inPattern, h.1.depth⟩, h.2⟩

theorem sends_rightParen_among : Sends Token.rightParen.symbol (IsAmong u d) (IsReady u d) :=
  fun _ h => ⟨_, if_pos h.inPattern, ⟨h.unmatched, h.awaitingIn, rfl, h.depth⟩, rfl⟩

theorem sends_doubleSemicolon :
    Sends Token.doubleSemicolon.symbol (IsOpen u (d + 1)) (IsAmong u (d + 1)) := by
  rintro track ⟨hunmatched, hawaiting, hpattern, hdepth⟩
  refine ⟨_, rfl, hunmatched, hawaiting, ?_, hdepth⟩
  have hopen : 0 < track.cases.depth := by omega
  simp [hopen]

end Track

/-! ## Lexemes -/

theorem Lexeme.isRegular_of_standsAlone {lexeme : Lexeme} (h : StandsAlone lexeme.text.toList) :
    lexeme.IsRegular := fun _ _ _ _ => .letters fun c hc => by simp [isMarked, h.2.1 c hc]

theorem Lexeme.isRegular_of_kind {lexeme : Lexeme} (h : lexeme.kind ≠ .word) : lexeme.IsRegular :=
  fun hkind => absurd hkind h

/-- The lexemes were read, are regular, and lead to a track of this kind. -/
def Track.At (P : Track → Prop) (read : List Lexeme) : Prop :=
  (∀ lexeme ∈ read, lexeme.IsRegular) ∧
    ∃ track, Track.start.steps (read.map Lexeme.symbol) = some track ∧ P track

namespace Track

variable {P Q : Track → Prop} {read : List Lexeme} {lexeme : Lexeme} {token : Token}

theorem At.mono (h : At P read) (hPQ : ∀ track, P track → Q track) : At Q read := by
  obtain ⟨hregular, track, hsteps, htrack⟩ := h
  exact ⟨hregular, track, hsteps, hPQ track htrack⟩

theorem At.step (h : At P read) (hregular : lexeme.IsRegular) (hsends : Sends lexeme.symbol P Q) :
    At Q (read ++ [lexeme]) := by
  obtain ⟨hread, track, hsteps, htrack⟩ := h
  obtain ⟨after, hafter, hQ⟩ := hsends track htrack
  refine ⟨?_, after, ?_, hQ⟩
  · simpa [or_imp, forall_and] using ⟨hread, hregular⟩
  · rw [List.map_append, steps_append, hsteps]
    simp [steps_cons, hafter]

theorem At.readToken (h : At P read) (hproper : lexeme.IsProper) (htoken : lexeme.token? = some token)
    (hsends : Sends token.symbol P Q) : At Q (read ++ [lexeme]) := by
  cases hkind : lexeme.kind with
  | op found =>
      have hfound : found = token := by simpa [Lexeme.token?, hkind] using htoken
      subst hfound
      have hsymbol : Sends lexeme.symbol P Q := by
        intro track htrack
        have hstep : track.step lexeme.symbol = track.step found.symbol := by
          have hmem := hproper found hkind
          simp only [Track.step, Lexeme.symbol, Token.symbol, hkind, hmem, if_false]
          cases found <;> rfl
        rw [hstep]
        exact hsends track htrack
      exact h.step (lexeme.isRegular_of_kind (by simp [hkind])) hsymbol
  | word =>
      have hreserved : Token.reserved? lexeme.text = some token := by
        simpa [Lexeme.token?, hkind] using htoken
      have hmem : token ∈ Token.reservedWords := List.mem_of_find?_eq_some hreserved
      have hsymbol : lexeme.symbol = token.symbol := by
        simp [Lexeme.symbol, Token.symbol, hmem, hkind, Token.reserved?_text hreserved]
      refine h.step (lexeme.isRegular_of_standsAlone ?_) (hsymbol ▸ hsends)
      rw [← Token.reserved?_text hreserved]
      exact Token.standsAlone hmem
  | descriptor => simp [Lexeme.token?, hkind] at htoken
  | newline => simp [Lexeme.token?, hkind] at htoken

theorem At.newline (h : At P read) (hkind : lexeme.kind = .newline)
    (hnewline : ∀ track, P track → Q track.atCommand) : At Q (read ++ [lexeme]) := by
  refine h.step (lexeme.isRegular_of_kind (by simp [hkind])) fun track htrack =>
    ⟨track.atCommand, ?_, hnewline track htrack⟩
  have hsymbol : lexeme.symbol.kind = .newline := hkind
  simp only [Track.step, hsymbol]

end Track

/-! ## Rules -/

namespace Grammar

variable {α β : Type} {I J : List Lexeme → Lexemes → Prop} {G : Prop}

/-- The same of a grammar that stands before these lexemes. -/
def TracksAt (stream : Lexemes) (I : List Lexeme → Lexemes → Prop) (g : Grammar α)
    (O : α → List Lexeme → Lexemes → Prop) : Prop :=
  ∀ a rest, Lexemes.All Lexeme.IsProper stream → g stream = .ok (a, rest) →
    ∃ new, stream.items = new ++ rest.items ∧ ∀ read, I read stream → O a (read ++ new) rest

def Tracks (I : List Lexeme → Lexemes → Prop) (g : Grammar α)
    (O : α → List Lexeme → Lexemes → Prop) : Prop := ∀ stream, TracksAt stream I g O

theorem TracksAt.pure {stream : Lexemes} {O : α → List Lexeme → Lexemes → Prop} {a : α}
    (h : ∀ read, I read stream → O a read stream) : TracksAt stream I (pure a) O := by
  intro b rest _ hg
  cases hg
  exact ⟨[], rfl, fun read hI => by rw [List.append_nil]; exact h read hI⟩

namespace Tracks

variable {O O' M : α → List Lexeme → Lexemes → Prop} {R : β → List Lexeme → Lexemes → Prop}
  {g : Grammar α}

theorem weaken (h : Tracks I g O) (hI : ∀ read stream, J read stream → I read stream)
    (hO : ∀ a read stream, O a read stream → O' a read stream) : Tracks J g O' := by
  intro stream a rest hproper hg
  obtain ⟨new, hnew, hread⟩ := h stream a rest hproper hg
  exact ⟨new, hnew, fun read hJ => hO _ _ _ (hread read (hI _ _ hJ))⟩

theorem pure {a : α} (h : ∀ read stream, I read stream → O a read stream) :
    Tracks I (pure a) O := fun stream => TracksAt.pure fun read => h read stream

theorem bind {next : α → Grammar β} (hg : Tracks I g M) (hnext : ∀ a, Tracks (M a) (next a) R) :
    Tracks I (g >>= next) R := by
  intro stream b rest hproper h
  obtain ⟨a, middle, hfirst, hsecond⟩ := bind_eq_ok h
  obtain ⟨first, hitems, hM⟩ := hg stream a middle hproper hfirst
  have hmiddle : Lexemes.All Lexeme.IsProper middle := fun lexeme hlexeme =>
    hproper lexeme (by rw [hitems]; exact List.mem_append_right first hlexeme)
  obtain ⟨second, hrest, hR⟩ := hnext a middle b rest hmiddle hsecond
  refine ⟨first ++ second, by rw [hitems, hrest, List.append_assoc], fun read hI => ?_⟩
  rw [← List.append_assoc]
  exact hR _ (hM read hI)

/-- What is known of every result besides. -/
theorem also {P : α → Prop} (h : Tracks I g O)
    (hP : ∀ stream a rest, g stream = .ok (a, rest) → P a) :
    Tracks I g (fun a read stream => P a ∧ O a read stream) := by
  intro stream a rest hproper hg
  obtain ⟨new, hnew, hread⟩ := h stream a rest hproper hg
  exact ⟨new, hnew, fun read hI => ⟨hP stream a rest hg, hread read hI⟩⟩

theorem cond {c : Prop} [Decidable c] {h : Grammar α} (hg : c → Tracks I g O)
    (hh : ¬c → Tracks I h O) : Tracks I (if c then g else h) O := by
  split
  · rename_i hc
    exact hg hc
  · rename_i hc
    exact hh hc

end Tracks

variable {O M : α → List Lexeme → Lexemes → Prop} {R : β → List Lexeme → Lexemes → Prop}

theorem tracks_unexpected : Tracks I unexpected O := by
  intro stream a rest _ h
  unfold unexpected at h
  split at h <;> cases h

theorem tracks_failHere {cause : ParseError.Cause} : Tracks I (failHere cause) O := by
  intro stream a rest _ h
  cases h

theorem tracks_failAt {position : Position} {cause : ParseError.Cause} :
    Tracks I (failAt position cause) O := by
  intro stream a rest _ h
  cases h

/-- Looking ahead reads nothing. -/
theorem tracks_look {a : Lexemes → α}
    (h : ∀ read stream, I read stream → O (a stream) read stream) :
    Tracks I (fun stream => .ok (a stream, stream)) O := by
  intro stream b rest _ hg
  cases hg
  exact ⟨[], rfl, fun read hI => by rw [List.append_nil]; exact h read stream hI⟩

theorem tracks_remaining : Tracks I remaining fun _ => I := tracks_look fun _ _ h => h

theorem tracks_atToken (token : Token) : Tracks I (atToken token) fun found read stream =>
    I read stream ∧ found = stream.items.head?.any fun lexeme => lexeme.token? == some token :=
  tracks_look fun _ _ h => ⟨h, rfl⟩

theorem tracks_front : Tracks I current fun _ => I := tracks_look fun _ _ h => h

theorem tracks_atOperator (token : Token) : Tracks I (atOperator token) fun _ => I :=
  tracks_look fun _ _ h => h

/-- A grammar that looks at the front lexeme first. -/
theorem tracks_current {next : Option Lexeme → Grammar β} (hnone : Tracks I (next none) R)
    (hsome : ∀ lexeme items finish, lexeme.IsProper →
      TracksAt ⟨lexeme :: items, finish⟩ I (next (some lexeme)) R) :
    Tracks I (current >>= next) R := by
  rintro ⟨_ | ⟨lexeme, items⟩, finish⟩ b rest hproper h
  · exact hnone _ b rest hproper h
  · exact hsome lexeme items finish (hproper lexeme (by simp)) b rest hproper h

theorem TracksAt.advance {lexeme : Lexeme} {items : List Lexeme} {finish : Position}
    {next : Unit → Grammar β}
    (hread : ∀ read, I read ⟨lexeme :: items, finish⟩ → J (read ++ [lexeme]) ⟨items, finish⟩)
    (h : Tracks J (next ()) R) :
    TracksAt ⟨lexeme :: items, finish⟩ I (Grammar.advance >>= next) R := by
  intro b rest hproper hnext
  obtain ⟨new, hnew, hR⟩ := h ⟨items, finish⟩ b rest
    (fun lexeme hlexeme => hproper lexeme (by simp [hlexeme])) hnext
  refine ⟨lexeme :: new, by rw [List.cons_append, ← hnew], fun read hI => ?_⟩
  rw [List.append_cons]
  exact hR _ (hread read hI)

theorem TracksAt.cond {c : Prop} [Decidable c] {stream : Lexemes} {g h : Grammar α}
    (hg : c → TracksAt stream I g O) (hh : ¬c → TracksAt stream I h O) :
    TracksAt stream I (if c then g else h) O := by
  split
  · rename_i hc
    exact hg hc
  · rename_i hc
    exact hh hc

/-! ### Tokens -/

variable {P Q : Track → Prop} {token : Token}

/-- Reads a lexeme that stands for a token, if it is the next one. -/
theorem tracks_ifToken {c : Grammar Bool} {test : Lexeme → Bool} {next other : Grammar β}
    (hc : ∀ stream, c stream = .ok (stream.items.head?.any test, stream))
    (htest : ∀ lexeme, test lexeme = true → lexeme.token? = some token)
    (hsends : Track.Sends token.symbol P Q)
    (hnext : Tracks (fun read _ => G → Track.At Q read) next R)
    (hother : Tracks (fun read _ => G → Track.At P read) other R) :
    Tracks (fun read _ => G → Track.At P read) (do if ← c then do { advance; next } else other)
      R := by
  intro stream b rest hproper h
  have hrun : (if stream.items.head?.any test = true then advance >>= fun _ => next else other)
      stream = .ok (b, rest) := by
    rw [← h, bind_ok (hc stream)]
  split at hrun
  · rename_i htrue
    obtain ⟨_ | ⟨lexeme, items⟩, finish⟩ := stream
    · cases htrue
    · have htoken := htest lexeme (by simpa using htrue)
      refine TracksAt.advance (I := fun read _ => G → Track.At P read) (fun read hP hG => ?_) hnext b
        rest hproper hrun
      exact (hP hG).readToken (hproper lexeme (by simp)) htoken hsends
  · exact hother stream b rest hproper hrun

theorem tracks_ifAtToken (hsends : Track.Sends token.symbol P Q) {next other : Grammar β}
    (hnext : Tracks (fun read _ => G → Track.At Q read) next R)
    (hother : Tracks (fun read _ => G → Track.At P read) other R) :
    Tracks (fun read _ => G → Track.At P read)
      (do if ← atToken token then do { advance; next } else other) R :=
  tracks_ifToken (fun _ => rfl) (fun _ h => eq_of_beq h) hsends hnext hother

theorem tracks_ifOperator (hsends : Track.Sends token.symbol P Q) {next other : Grammar β}
    (hnext : Tracks (fun read _ => G → Track.At Q read) next R)
    (hother : Tracks (fun read _ => G → Track.At P read) other R) :
    Tracks (fun read _ => G → Track.At P read)
      (do if ← atOperator token then do { advance; next } else other) R := by
  refine tracks_ifToken (fun _ => rfl) (fun lexeme h => ?_) hsends hnext hother
  simp [Lexeme.token?, eq_of_beq h]

theorem tracks_expect (hsends : Track.Sends token.symbol P Q) :
    Tracks (fun read _ => G → Track.At P read) (expect token)
      fun _ read _ => G → Track.At Q read := by
  have hadvance : Tracks (fun read _ => G → Track.At P read)
      (do if ← atToken token then do { advance; pure () } else unexpected)
      fun _ read _ => G → Track.At Q read :=
    tracks_ifAtToken hsends (.pure fun _ _ h => h) tracks_unexpected
  exact hadvance

theorem tracks_skipNewlines
    (hnewline : ∀ read lexeme items finish, lexeme.kind = .newline →
      I read ⟨lexeme :: items, finish⟩ → I (read ++ [lexeme]) ⟨items, finish⟩) :
    Tracks I skipNewlines fun _ => I := by
  rintro ⟨items, finish⟩ a rest hproper h
  cases h
  refine ⟨items.takeWhile fun lexeme => lexeme.kind == .newline,
    List.takeWhile_append_dropWhile.symm, fun read hI => ?_⟩
  clear hproper
  induction items generalizing read with
  | nil => simpa using hI
  | cons lexeme items ih =>
      by_cases hkind : (lexeme.kind == .newline) = true
      · have hrest := ih (read ++ [lexeme]) (hnewline read lexeme items finish (eq_of_beq hkind) hI)
        simpa [hkind] using hrest
      · simpa [hkind] using hI

theorem tracks_skipNewlines_at (hnewline : ∀ track, P track → P track.atCommand) :
    Tracks (fun read _ => G → Track.At P read) skipNewlines fun _ read _ => G → Track.At P read :=
  tracks_skipNewlines fun _ _ _ _ hkind hP hG => (hP hG).newline hkind hnewline

theorem tracks_skipEmptyEnd (hsends : Track.Sends Token.semicolon.symbol P P) :
    Tracks (fun read _ => G → Track.At P read) skipEmptyEnd fun _ read _ => G → Track.At P read := by
  rintro ⟨items, finish⟩ a rest hproper h
  have hrun : skipEmptyEnd ⟨items, finish⟩ =
      (if items.head?.any (fun lexeme => lexeme.kind == .op .semicolon) &&
        items.tail.head?.any (fun lexeme => lexeme.token? == some .esacWord) then advance
      else pure ()) ⟨items, finish⟩ := rfl
  rw [hrun] at h
  split at h
  · rename_i hfront
    cases items with
    | nil => cases hfront
    | cons lexeme items =>
        have hkind : lexeme.kind = .op .semicolon := by
          simpa using (Bool.and_eq_true_iff.mp hfront).1
        have htoken : lexeme.token? = some .semicolon := by simp [Lexeme.token?, hkind]
        cases h
        refine ⟨[lexeme], rfl, fun read hP hG => ?_⟩
        exact (hP hG).readToken (hproper lexeme (by simp)) htoken hsends
  · cases h
    exact ⟨[], rfl, fun read hP => by rwa [List.append_nil]⟩

/-! ### Repetitions -/

theorem tracks_collect {K : List α → List Lexeme → Lexemes → Prop} {step : Grammar (Option α)}
    (hstep : ∀ found, Tracks (K found) step fun next read stream =>
      match next with
      | none => K found read stream
      | some a => K (found ++ [a]) read stream) (bound : List Lexeme) (found : List α) :
    Tracks (K found.reverse) (collect step bound found) K := by
  induction bound generalizing found with
  | nil =>
      unfold collect
      refine (hstep found.reverse).bind fun next => ?_
      cases next with
      | none => exact .pure fun _ _ h => h
      | some a => exact .pure fun _ _ h => by simpa using h
  | cons lexeme bound ih =>
      unfold collect
      refine (hstep found.reverse).bind fun next => ?_
      cases next with
      | none => exact .pure fun _ _ h => h
      | some a => exact (ih (a :: found)).weaken (fun _ _ h => by simpa using h) fun _ _ _ h => h

theorem tracks_many {K : List α → List Lexeme → Lexemes → Prop} {step : Grammar (Option α)}
    (hstep : ∀ found, Tracks (K found) step fun next read stream =>
      match next with
      | none => K found read stream
      | some a => K (found ++ [a]) read stream) : Tracks (K []) (many step) K :=
  tracks_remaining.bind fun bound => tracks_collect hstep bound []

/-- The same where every result leads back to where the step began. -/
theorem tracks_many_all {S : α → Bool} {step : Grammar (Option α)}
    (hstep : ∀ G : Prop, Tracks (fun read _ => G → Track.At P read) step fun found read _ =>
      found.elim (G → Track.At P read) fun a => G ∧ S a = true → Track.At P read) :
    Tracks (fun read _ => G → Track.At P read) (many step)
      fun found read _ => G ∧ found.all S = true → Track.At P read := by
  refine (tracks_many (K := fun found read _ => G ∧ found.all S = true → Track.At P read)
    fun found => ?_).weaken (fun _ _ h hG => h hG.1) fun _ _ _ h => h
  refine (hstep _).weaken (fun _ _ h => h) fun next _ _ h => ?_
  cases next with
  | none => exact h
  | some a => exact fun hG => h (by simpa [and_assoc] using hG)

theorem tracks_extend {K : α → List Lexeme → Lexemes → Prop} {step : α → Grammar (Option α)}
    (hstep : ∀ a, Tracks (K a) (step a) fun next read stream =>
      match next with
      | none => K a read stream
      | some b => K b read stream) (bound : List Lexeme) (a : α) :
    Tracks (K a) (extend step bound a) K := by
  induction bound generalizing a with
  | nil =>
      unfold extend
      refine (hstep a).bind fun next => ?_
      cases next with
      | none => exact .pure fun _ _ h => h
      | some b => exact .pure fun _ _ h => h
  | cons lexeme bound ih =>
      unfold extend
      refine (hstep a).bind fun next => ?_
      cases next with
      | none => exact .pure fun _ _ h => h
      | some b => exact ih b

end Grammar

end Conch.Syntax
