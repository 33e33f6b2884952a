import Conch.Proofs.Lexing.Layouts
import Conch.Proofs.Lexing.Lines
import Conch.Proofs.Lexing.Spots
import Conch.Proofs.Words.Divisions

/-!
# The scan of a body, symbol by symbol

Between two words the scan for the end of a substitution knows how many parentheses are
unmatched and where it stands among choices.  A `Track` says that much, and goes from one
symbol of the body to the next.  In a text of regular words the scan follows it
(`Laid.scan`): where the symbols lead to a track without unmatched parentheses and outside
of patterns, the parenthesis behind them is the one that ends the body.
-/

namespace Conch.Syntax

open Substitution (Body Frame scan scan_one scan_two)

/-- What the scan knows between two words. -/
structure Track where
  unmatched : Nat
  cases : Substitution.Cases

namespace Track

def start : Track := ⟨0, .start⟩

/-- The next word stands where a command starts. -/
def atCommand (track : Track) : Track :=
  { track with cases := { track.cases with commandStart := true } }

/-- Behind a symbol of the body; none behind a parenthesis that ends it. -/
def step (track : Track) (symbol : Symbol) : Option Track :=
  match symbol.kind with
  | .word => some { track with cases := track.cases.word (some symbol.text) }
  | .descriptor => some { track with cases := track.cases.word none }
  | .op .leftParen =>
      if track.cases.inPattern then some track.atCommand
      else some { track.atCommand with unmatched := track.unmatched + 1 }
  | .op .rightParen =>
      if track.cases.inPattern then
        some { track with cases := { track.cases with inPattern := false, commandStart := true } }
      else
        match track.unmatched with
        | 0 => none
        | n + 1 => some { track with unmatched := n }
  | .op .doubleSemicolon =>
      some { track with
        cases := { track.cases with
          inPattern := track.cases.inPattern || 0 < track.cases.depth
          commandStart := true } }
  | .op .less | .op .great | .op .greatGreat => some track
  | .newline | .op _ => some track.atCommand

def steps (track : Track) (symbols : List Symbol) : Option Track := symbols.foldlM step track

@[simp] theorem steps_nil (track : Track) : track.steps [] = some track := rfl

theorem steps_cons {track : Track} {symbol : Symbol} {symbols : List Symbol} :
    track.steps (symbol :: symbols) = (track.step symbol).bind fun next => next.steps symbols := rfl

theorem steps_append {track : Track} {first second : List Symbol} :
    track.steps (first ++ second) = (track.steps first).bind fun next => next.steps second :=
  List.foldlM_append

/-- The state of the scan where no word has begun. -/
def body (track : Track) : Body := Regular.rested track.unmatched track.cases

theorem endWord_body (track : Track) : track.body.endWord = track.body := rfl

end Track

/--
A text up to a closing parenthesis, with its symbols in a row: blanks and comments are between
them, operators and regular words do not run on into what follows.
-/
inductive Laid : List Char → List Symbol → Prop
  | close : Laid [')'] []
  | blank {c : Char} {text : List Char} {symbols : List Symbol} (hc : c = ' ' ∨ c = '\t')
      (h : Laid text symbols) : Laid (c :: text) symbols
  | comment {comment text : List Char} {symbols : List Symbol} (hcomment : '\n' ∉ comment)
      (h : Laid ('\n' :: text) symbols) : Laid ('#' :: (comment ++ '\n' :: text)) symbols
  | newline {text : List Char} {symbols : List Symbol} (h : Laid text symbols) :
      Laid ('\n' :: text) (⟨.newline, "\n"⟩ :: symbols)
  | operator {token : Token} {text : List Char} {symbols : List Symbol}
      (htoken : token ∉ Token.reservedWords) (hends : token.endsBefore text.head? = true)
      (h : Laid text symbols) : Laid (token.text.toList ++ text) (token.symbol :: symbols)
  | word {kind : LexemeKind} {word text : List Char} {symbols : List Symbol}
      (hkind : kind = .word ∨
        kind = .descriptor ∧ Token.reserved? (String.ofList word) = none)
      (hregular : Regular false text.head? word) (hne : word ≠ []) (hcomment : word.head? ≠ some '#')
      (hends : text.head?.all isWordBoundary = true) (h : Laid text symbols) :
      Laid (word ++ text) (⟨kind, String.ofList word⟩ :: symbols)

theorem Laid.ne_nil {text : List Char} {symbols : List Symbol} (h : Laid text symbols) :
    text ≠ [] := by
  cases h with
  | operator htoken hends h => cases ‹Token› <;> simp [Token.text]
  | word hkind hregular hne => simp [hne]
  | _ => simp

/-! ## The scan between words -/

namespace Track

/-- The scan is behind what the track has gone over; the last word may still be open. -/
structure Fits (track : Track) (state : Body) : Prop where
  word : state.endWord = track.body
  comment : state.comment = false

theorem fits_body (track : Track) : track.Fits track.body := ⟨track.endWord_body, rfl⟩

variable {track after : Track} {state : Body} {c : Char} {seen text : List Char}

/-- A character between words ends the word that is open. -/
theorem Fits.step (h : track.Fits state) (hc : isWordBoundary c = true) (next : Option Char) :
    Substitution.step [.body state] c next = track.body.boundary [] c next := by
  have hsame : ({ state with comment := false } : Body) = state := by
    obtain ⟨_, _, _, _, comment⟩ := state
    obtain rfl := h.comment
    rfl
  have hstep : Substitution.step [.body state] c next = state.boundary [] c next := by
    simp [Substitution.step, h.comment, hc]
  rw [hstep]
  unfold Body.boundary
  rw [hsame, h.word]
  rfl

/-- Behind a character that is neither a parenthesis nor a semicolon. -/
def beyond (track : Track) (c : Char) : Track :=
  if c ∈ ['\n', '&', '|'] then track.atCommand else track

theorem Fits.scan_over (h : track.Fits state) (hc : isWordBoundary c = true)
    (hother : c ∉ ['(', ')', ';']) :
    scan [.body state] seen (c :: text) = scan [.body (track.beyond c).body] (c :: seen) text := by
  refine scan_one ?_ seen
  rw [h.step hc]
  simp only [List.mem_cons, List.not_mem_nil, or_false, not_or] at hother
  unfold Body.boundary beyond
  split
  all_goals simp_all [body, atCommand, Regular.rested, Body.endWord]

theorem Fits.scan_over_over (h : track.Fits state) {d : Char} (hc : isWordBoundary c = true)
    (hd : isWordBoundary d = true) (hcother : c ∉ ['(', ')', ';']) (hdother : d ∉ ['(', ')', ';']) :
    scan [.body state] seen (c :: d :: text) =
      scan [.body ((track.beyond c).beyond d).body] (d :: c :: seen) text := by
  rw [h.scan_over hc hcother, (fits_body _).scan_over hd hdother]

theorem Fits.scan_semicolon (h : track.Fits state) (htext : text.head? ≠ some ';') :
    scan [.body state] seen (';' :: text) = scan [.body track.atCommand.body] (';' :: seen) text := by
  refine scan_one ?_ seen
  rw [h.step rfl]
  exact if_neg htext

theorem Fits.scan_open (h : track.Fits state)
    (hstep : track.step Token.leftParen.symbol = some after) :
    scan [.body state] seen ('(' :: text) = scan [.body after.body] ('(' :: seen) text := by
  refine scan_one ?_ seen
  rw [h.step rfl]
  have hafter : some after = if track.cases.inPattern then some track.atCommand
      else some { track.atCommand with unmatched := track.unmatched + 1 } := hstep.symm
  unfold Body.boundary
  split at hafter <;> cases hafter <;> simp_all [body, atCommand, Regular.rested, Body.endWord]

theorem Fits.scan_close (h : track.Fits state)
    (hstep : track.step Token.rightParen.symbol = some after) :
    scan [.body state] seen (')' :: text) = scan [.body after.body] (')' :: seen) text := by
  refine scan_one ?_ seen
  rw [h.step rfl]
  obtain ⟨unmatched, cases⟩ := track
  cases hpattern : cases.inPattern with
  | true =>
      have hafter : some after = some ⟨unmatched,
          { cases with inPattern := false, commandStart := true }⟩ :=
        hstep.symm.trans (if_pos hpattern)
      cases hafter
      exact if_pos hpattern
  | false =>
      have hclosed : ¬cases.inPattern = true := by simp [hpattern]
      cases unmatched with
      | zero =>
          have hnone : some after = none := hstep.symm.trans (if_neg hclosed)
          cases hnone
      | succ n =>
          have hafter : some after = some ⟨n, cases⟩ := hstep.symm.trans (if_neg hclosed)
          cases hafter
          exact if_neg hclosed

/-- The scan goes over an operator as the track does. -/
theorem Fits.scan_operator (h : track.Fits state) {token : Token}
    (htoken : token ∉ Token.reservedWords) (hends : token.endsBefore text.head? = true)
    (hstep : track.step token.symbol = some after) :
    scan [.body state] seen (token.text.toList ++ text) =
      scan [.body after.body] (token.text.toList.reverse ++ seen) text := by
  cases token with
  | leftParen => exact h.scan_open hstep
  | rightParen => exact h.scan_close hstep
  | semicolon =>
      cases hstep
      exact h.scan_semicolon (by simpa [Token.endsBefore] using hends)
  | doubleSemicolon =>
      cases hstep
      refine scan_two ?_ seen
      rw [h.step rfl]
      rfl
  | less | great | ampersand | pipe =>
      cases hstep
      exact h.scan_over rfl (by decide)
  | greatGreat | lessAnd | greatAnd | andAnd | orOr =>
      cases hstep
      exact h.scan_over_over rfl rfl (by decide) (by decide)
  | _ => exact absurd (by decide) htoken

/-- A regular word may be open behind itself. -/
theorem scan_word (track : Track) {kind : LexemeKind} {word rest : List Char}
    (hkind : kind = .word ∨ kind = .descriptor ∧ Token.reserved? (String.ofList word) = none)
    (hregular : Regular false rest.head? word) (hne : word ≠ [])
    (hcomment : word.head? ≠ some '#') (seen : List Char) :
    ∃ after state, track.step ⟨kind, String.ofList word⟩ = some after ∧ after.Fits state ∧
      scan [.body track.body] seen (word ++ rest) =
        scan [.body state] (word.reverse ++ seen) rest := by
  obtain ⟨state, hover, hscan⟩ : Regular.Passed [] word rest track.body seen :=
    hregular.scan_body rfl rfl rfl (.inr (.inr hcomment)) seen
  refine ⟨⟨track.unmatched, track.cases.word (some (String.ofList word))⟩, state, ?_, ?_, hscan⟩
  · rcases hkind with rfl | ⟨rfl, hnone⟩
    · rfl
    · have hnoted : track.cases.word (some (String.ofList word)) = track.cases.word none := by
        simp [Substitution.Cases.word, hnone]
      rw [hnoted]
      rfl
  · exact ⟨hover.endWord hne, hover.comment⟩

/-- A comment goes up to the end of its line. -/
theorem scan_comment {comment : List Char} (hcomment : '\n' ∉ comment) (track : Track)
    (seen text : List Char) :
    scan [.body track.body] seen ('#' :: (comment ++ '\n' :: text)) =
      scan [.body track.body] (comment.reverse ++ '#' :: seen) ('\n' :: text) := by
  have hinside : ∀ {d : Char}, d ≠ '\n' → ∀ (seen more : List Char),
      scan [.body { track.body with comment := true }] seen (d :: more) =
        scan [.body { track.body with comment := true }] (d :: seen) more := by
    intro d hd seen more
    refine scan_one ?_ seen
    simp [Substitution.step, hd]
  have hover : ∀ (comment seen : List Char), '\n' ∉ comment →
      scan [.body { track.body with comment := true }] seen (comment ++ '\n' :: text) =
        scan [.body { track.body with comment := true }] (comment.reverse ++ seen)
          ('\n' :: text) := by
    intro comment
    induction comment with
    | nil => exact fun _ _ => rfl
    | cons d comment ih =>
        intro seen hcomment
        obtain ⟨hd, hrest⟩ : '\n' ≠ d ∧ '\n' ∉ comment := by simpa using hcomment
        rw [List.cons_append, hinside hd.symm, ih _ hrest]
        simp
  have hstart : ∀ next, Substitution.step [.body track.body] '#' next =
      .one [.body { track.body with comment := true }] := fun _ => rfl
  rw [scan_one (hstart _), hover _ _ hcomment]
  have hend : ∀ next, Substitution.step [.body { track.body with comment := true }] '\n' next =
      Substitution.step [.body track.body] '\n' next := fun _ => rfl
  rw [Substitution.scan, Substitution.scan, hend]

end Track

/-- No regular text starts with a character that ends words. -/
theorem Regular.isWordBoundary_head {next : Option Char} {c : Char} {text : List Char}
    (h : Regular false next (c :: text)) : isWordBoundary c = false := by
  cases h with
  | letter hc => exact isWordBoundary_of_isPlain (by simpa [isMarked] using hc)
  | _ => rfl

/-- The body is found whose symbols lead to the end of it. -/
theorem Laid.scan {text : List Char} {symbols : List Symbol} (h : Laid text symbols)
    {track finish : Track} {state : Body} (hfits : track.Fits state)
    (hstate : state = track.body ∨ text.head?.all isWordBoundary = true)
    (hsteps : track.steps symbols = some finish) (hunmatched : finish.unmatched = 0)
    (hpattern : finish.cases.inPattern = false) (seen : List Char) :
    ∃ inner, text = inner ++ [')'] ∧
      Substitution.scan [.body state] seen text = some (seen.reverse ++ inner, []) := by
  have hmore : ∀ (piece : List Char) {text seen : List Char} {found : Option (List Char × List Char)},
      (∃ inner, text = inner ++ [')'] ∧
        found = some ((piece.reverse ++ seen).reverse ++ inner, [])) →
      ∃ inner, piece ++ text = inner ++ [')'] ∧ found = some (seen.reverse ++ inner, []) := by
    rintro piece text seen found ⟨inner, rfl, hfound⟩
    exact ⟨piece ++ inner, by simp, by simp [hfound]⟩
  have hrested : ∀ {track : Track} {state : Body} {c : Char} {text : List Char},
      isWordBoundary c = false →
        state = track.body ∨ (c :: text).head?.all isWordBoundary = true → state = track.body := by
    rintro track state c text hc (hstate | hboundary)
    · exact hstate
    · exact absurd hboundary (by simp [hc])
  induction h generalizing track state seen with
  | close =>
      obtain rfl : track = finish := Option.some.inj hsteps
      have hclose : Substitution.step [.body state] ')' none = .close := by
        rw [hfits.step rfl]
        obtain ⟨unmatched, cases⟩ := track
        obtain rfl := hunmatched
        have houtside : ¬cases.inPattern = true := by simpa using hpattern
        exact if_neg houtside
      refine ⟨[], rfl, ?_⟩
      rw [Substitution.scan, List.head?_nil, hclose]
      simp
  | @blank c text symbols hc h ih =>
      have hover : track.beyond c = track := by
        rcases hc with rfl | rfl <;> rfl
      rw [hfits.scan_over (by rcases hc with rfl | rfl <;> rfl)
        (by rcases hc with rfl | rfl <;> decide), hover]
      exact hmore [c] (ih track.fits_body (.inl rfl) hsteps _)
  | @comment comment text symbols hcomment h ih =>
      obtain rfl := hrested rfl hstate
      rw [Track.scan_comment hcomment]
      simpa using hmore ('#' :: comment) (ih track.fits_body (.inl rfl) hsteps _)
  | @newline text symbols h ih =>
      rw [hfits.scan_over rfl (by decide)]
      exact hmore ['\n'] (ih (Track.fits_body _) (.inl rfl) hsteps _)
  | @operator token text symbols htoken hends h ih =>
      rw [Track.steps_cons] at hsteps
      obtain ⟨after, hafter, hsteps⟩ := Option.bind_eq_some_iff.mp hsteps
      rw [hfits.scan_operator htoken hends hafter]
      exact hmore _ (ih after.fits_body (.inl rfl) hsteps _)
  | @word kind word text symbols hkind hregular hne hcomment hends h ih =>
      obtain ⟨c, letters, rfl⟩ := List.exists_cons_of_ne_nil hne
      obtain rfl := hrested hregular.isWordBoundary_head hstate
      obtain ⟨after, state, hafter, hfits, hscan⟩ := track.scan_word hkind hregular hne hcomment seen
      rw [Track.steps_cons, hafter] at hsteps
      rw [hscan]
      exact hmore _ (ih hfits (.inr hends) hsteps _)

/-- Symbols that lead to the end of a body end it at the parenthesis behind them. -/
theorem Laid.split {text : List Char} {symbols : List Symbol} (h : Laid (text ++ [')']) symbols)
    {finish : Track} (hsteps : Track.start.steps symbols = some finish)
    (hunmatched : finish.unmatched = 0) (hpattern : finish.cases.inPattern = false) :
    Substitution.split (text ++ [')']) = some (text, []) := by
  obtain ⟨inner, htext, hscan⟩ := h.scan Track.start.fits_body (.inl rfl) hsteps hunmatched
    hpattern []
  obtain rfl := List.append_cancel_right htext
  exact hscan

/-! ## Renderings -/

theorem Token.endsBefore_paren {token : Token} {next : Option Char}
    (h : token.endsBefore next = true) : token.endsBefore (next.or (some ')')) = true := by
  cases next with
  | none => cases token <;> decide
  | some c => exact h

/-- Letters that stand for themselves are laid as a word. -/
theorem Laid.letters {kind : LexemeKind} {word : String}
    (hkind : kind = .word ∨ kind = .descriptor ∧ Token.reserved? word = none)
    {text : List Char} {symbols : List Symbol} (hword : StandsAlone word.toList)
    (hends : text.head?.all isWordBoundary = true) (h : Laid text symbols) :
    Laid (word.toList ++ text) (⟨kind, word⟩ :: symbols) := by
  obtain ⟨hne, hplain, hcomment⟩ := hword
  have hregular : Regular false text.head? word.toList :=
    .letters fun c hc => by simp [isMarked, hplain c hc]
  simpa using Laid.word (by simpa using hkind) hregular hne hcomment hends h

theorem standsAlone_of_digits {text : List Char} (hne : text ≠ [])
    (hdigits : ∀ c ∈ text, c.isDigit = true) : StandsAlone text :=
  ⟨hne, fun c hc => isPlain_of_isNameChar (isNameChar_of_isDigit (hdigits c hc)), fun hcomment =>
    absurd (hdigits '#' (List.mem_of_head? hcomment)) (by decide)⟩

/-- Digits spell no reserved word. -/
theorem reserved?_of_digits {word : String} (hdigits : ∀ c ∈ word.toList, c.isDigit = true) :
    Token.reserved? word = none := by
  cases hreserved : Token.reserved? word with
  | none => rfl
  | some token =>
      have hletters : ∀ token ∈ Token.reservedWords,
          token.text.toList.any (fun c => !c.isDigit) = true := by decide
      obtain ⟨c, hc, hletter⟩ :=
        List.any_eq_true.mp (hletters token (List.mem_of_find?_eq_some hreserved))
      rw [Token.reserved?_text hreserved] at hc
      rw [hdigits c hc] at hletter
      cases hletter

theorem isDigit_toString (value : Nat) :
    (toString value).toList ≠ [] ∧ ∀ c ∈ (toString value).toList, c.isDigit = true := by
  have hdigits : (toString value).toList = Nat.toDigits 10 value := Nat.toList_repr
  rw [hdigits]
  exact ⟨Nat.toDigits_ne_nil, fun c hc =>
    Nat.isDigit_of_mem_toDigits (by decide) (by decide) hc⟩

/-- The word is regular, whatever may follow it in a rendering. -/
def Node.IsRegularWord (n : Node) : Prop :=
  n.render.toList ≠ [] ∧ n.render.toList.head? ≠ some '#' ∧
    ∀ c, c = ' ' ∨ c = ';' ∨ c = ')' → Regular false (some c) n.render.toList

/-- Pieces that do not run on are laid, if their words are regular. -/
theorem Piece.laid {pieces : List Piece} (hspaced : Spaced pieces)
    (hwords : ∀ opensArm n, word opensArm n ∈ pieces → n.IsRegularWord) :
    Laid (spell pieces ++ [')']) (symbols pieces) := by
  induction pieces with
  | nil => exact .close
  | cons piece rest ih =>
      obtain ⟨hends, hrest⟩ := hspaced
      have hlaid := ih hrest fun opensArm n hn => hwords opensArm n (by simp [hn])
      have hnext : (spell rest ++ [')']).head? = (spell rest).head?.or (some ')') := by
        simp
      have hboundary : (spell rest).head?.all isWordBoundary = true →
          (spell rest ++ [')']).head?.all isWordBoundary = true := by
        intro hall
        cases hrest : spell rest with
        | nil => rfl
        | cons c more => simpa [hrest] using hall
      rw [spell_cons, List.append_assoc]
      cases piece with
      | blank => exact .blank (.inl rfl) hlaid
      | mark token =>
          by_cases htoken : token ∈ Token.reservedWords
          · have hmark : symbols (mark token :: rest) = ⟨.word, token.text⟩ :: symbols rest := by
              simp [Token.symbol, htoken]
            rw [hmark]
            refine .letters (.inl rfl) (Token.standsAlone htoken) (hboundary ?_) hlaid
            cases token <;> first | exact hends | exact absurd htoken (by decide)
          · exact .operator htoken (by rw [hnext]; exact Token.endsBefore_paren hends) hlaid
      | number value =>
          obtain ⟨hne, hdigits⟩ := isDigit_toString value
          refine .letters (.inr ⟨rfl, reserved?_of_digits hdigits⟩)
            (standsAlone_of_digits hne hdigits) (hboundary ?_) hlaid
          rcases hends with hless | hgreat
          · rw [hless]
            rfl
          · rw [hgreat]
            rfl
      | name text =>
          exact .letters (.inl rfl) (standsAlone_of_isName hends.1) (hboundary hends.2) hlaid
      | word opensArm n =>
          obtain ⟨hne, hcomment, hregular⟩ := hwords opensArm n (by simp)
          obtain ⟨c, hc, hclosing⟩ : ∃ c, (spell rest ++ [')']).head? = some c ∧
              (c = ' ' ∨ c = ';' ∨ c = ')') := by
            cases hspell : spell rest with
            | nil => exact ⟨')', rfl, by simp⟩
            | cons c more => exact ⟨c, rfl, hends c (by simp [hspell])⟩
          have hends : isWordBoundary c = true := by
            rcases hclosing with rfl | rfl | rfl <;> decide
          have hregular : Regular false (spell rest ++ [')']).head? n.render.toList := by
            rw [hc]
            exact hregular c hclosing
          have hlaid := Laid.word (.inl rfl) hregular hne hcomment (by simp [hc, hends]) hlaid
          rwa [String.ofList_toList] at hlaid

/-! ## Texts -/

/-- No line of the text is continued. -/
def Unbroken (text : List Char) : Prop := ¬ ['\\', '\n'] <:+: text

theorem Unbroken.of_append {first second : List Char} (h : Unbroken (first ++ second)) :
    Unbroken first ∧ Unbroken second :=
  ⟨fun hbroken => h (hbroken.trans (List.prefix_append first second).isInfix),
    fun hbroken => h (hbroken.trans (List.suffix_append first second).isInfix)⟩

instance (text : List Char) : Decidable (Unbroken text) := inferInstanceAs (Decidable (¬ _))

theorem Unbroken.of_cons {c : Char} {text : List Char} (h : Unbroken (c :: text)) : Unbroken text :=
  fun hbroken => h (hbroken.trans (List.suffix_cons c text).isInfix)

namespace Cursor

variable {slice value rest : List Char}

/-- Where no line is continued, nothing is taken out of a word. -/
theorem Written.unbroken (h : Written slice value rest) (hslice : Unbroken slice) :
    value = slice := by
  induction h with
  | done => rfl
  | letter _ _ _ ih => rw [ih hslice.of_cons]
  | escape _ _ ih => rw [ih hslice.of_cons.of_cons]
  | backslash => rfl
  | join => exact absurd ⟨[], _, rfl⟩ hslice
  | quoted _ _ ih => rw [ih hslice.of_cons.of_append.2]
  | doubleQuoted _ _ ih => rw [ih hslice.of_cons.of_append.2]
  | dollar _ _ _ ih => rw [ih hslice.of_cons]
  | substitution _ _ ih => rw [ih hslice.of_cons.of_cons.of_append.2.of_cons]
  | parameter _ _ ih => rw [ih hslice.of_cons.of_cons.of_append.2]

theorem Written.ends (h : Written slice value rest) : rest.head?.all isWordBoundary = true := by
  induction h with
  | done h => exact h
  | backslash => rfl
  | _ => assumption

/-- What is idle before a laid text is laid, if it holds no continued line. -/
theorem Idle.laid {gap rest : List Char} {symbols : List Symbol} (h : Idle gap rest)
    (hgap : Unbroken gap) (hrest : rest ≠ []) (hlaid : Laid (rest ++ [')']) symbols) :
    Laid (gap ++ (rest ++ [')'])) symbols := by
  induction h with
  | nil => exact hlaid
  | blank hc h ih => exact .blank hc (ih hgap.of_cons hrest hlaid)
  | join => exact absurd ⟨[], _, rfl⟩ hgap
  | comment hcomment hend =>
      obtain ⟨c, more, rfl⟩ := List.exists_cons_of_ne_nil hrest
      obtain rfl := hend c rfl
      exact .comment hcomment hlaid

theorem operator?_ends {c : Char} {more : List Char} {token : Token} {size : Nat}
    (h : operator? c more.head? = some (token, size)) :
    token ∉ Token.reservedWords ∧ token.endsBefore ((c :: more).drop size).head? = true := by
  cases more with
  | nil =>
      rw [List.head?_nil] at h
      unfold operator? at h
      split at h <;> cases h <;> decide
  | cons d more =>
      rw [List.head?_cons] at h
      unfold operator? at h
      split at h <;> cases h <;> simp_all [Token.endsBefore, Token.reservedWords]

end Cursor

/-- The lexeme is a regular word wherever it is read. -/
def Lexeme.IsRegular (lexeme : Lexeme) : Prop :=
  lexeme.kind = .word → ∀ rest, rest ≠ [] → ReadsOn false lexeme.text.toList rest →
    Regular false rest.head? lexeme.text.toList

/-- A lexeme is laid before a text that is laid. -/
theorem Cursor.lexeme_laid {c : Char} {more : List Char} {position : Position} {lexeme : Lexeme}
    {cursor : Cursor} {symbols : List Symbol}
    (hskip : skipBlanks (c :: more) position = .ok ⟨c :: more, position⟩)
    (h : Cursor.lexeme c more position = .ok (some lexeme, cursor))
    (hunbroken : Unbroken (c :: more)) (hrest : lexeme.kind = .word → cursor.rest ≠ [])
    (hregular : lexeme.IsRegular) (hlaid : Laid (cursor.rest ++ [')']) symbols) :
    Laid (c :: more ++ [')']) (lexeme.symbol :: symbols) := by
  have hread : lexeme.WasRead := ⟨c, more, position, cursor, hskip, h⟩
  unfold Cursor.lexeme at h
  split at h
  · cases h
  split at h
  · rename_i hnewline
    cases h
    subst hnewline
    exact .newline hlaid
  split at h
  · rename_i token size hoperator
    cases h
    obtain ⟨htoken, hends⟩ := operator?_ends hoperator
    have htext := List.take_append_drop size (c :: more)
    rw [operator?_text hoperator] at htext
    have hsymbol : Lexeme.symbol ⟨.op token, token.text, position⟩ = token.symbol := by
      simp [Lexeme.symbol, Token.symbol, htoken]
    rw [hsymbol, ← htext, List.append_assoc]
    refine .operator htoken ?_ hlaid
    rw [List.head?_append]
    exact Token.endsBefore_paren hends
  split at h
  · rename_i digits hdigits
    cases h
    obtain ⟨d, after, htext, hd, hall⟩ := descriptor?_eq_some hdigits
    have hne : (String.ofList digits).toList ≠ [] := by
      rw [String.toList_ofList]
      exact List.length_pos_iff.mp (descriptor?_ne_nil hdigits)
    rw [← String.toList_ofList (l := digits)] at hall
    rw [htext, List.drop_left] at hlaid
    rw [htext, List.append_assoc]
    have hends : (d :: after ++ [')']).head?.all isWordBoundary = true := by
      rcases hd with rfl | rfl <;> rfl
    have hlaid := Laid.letters (.inr ⟨rfl, reserved?_of_digits hall⟩)
      (standsAlone_of_digits hne hall) hends hlaid
    rwa [String.toList_ofList] at hlaid
  split at h
  · cases h
  · rename_i word cursor' hword
    cases h
    obtain ⟨⟨d, hd, hstart⟩, _⟩ := hread.word rfl
    have hrest := hrest rfl
    obtain ⟨slice, htext, _, hwritten⟩ := readWord_iff_written.mp hword
    rw [htext] at hunbroken ⊢
    obtain rfl := hwritten.unbroken hunbroken.of_append.1
    rw [String.toList_ofList] at hd
    have hreads : ReadsOn false word cursor.rest :=
      ⟨[], .start, _, hwritten.readWord [] .start⟩
    have hregular := hregular rfl cursor.rest hrest (by rwa [String.toList_ofList])
    rw [String.toList_ofList] at hregular
    have hhead : (cursor.rest ++ [')']).head? = cursor.rest.head? :=
      head?_append_of_ne_nil hrest _
    rw [List.append_assoc]
    refine .word (.inl rfl) (by rwa [hhead]) ?_ ?_ (by rw [hhead]; exact hwritten.ends) hlaid
    · rintro rfl
      cases hd
    · rw [Option.mem_def.mp hd]
      exact fun hcomment => hstart.2 (Option.some.inj hcomment)

/-- Whole lines are laid that have regular words and no continued lines. -/
theorem Lexemes.read_laid {found : List Lexeme} {text : List Char} {position : Position}
    {stream : Lexemes} (h : read found text position = .ok stream) (hlines : WholeLines text)
    (hunbroken : Unbroken text) (hregular : ∀ lexeme ∈ stream.items, lexeme.IsRegular) :
    ∃ items, stream.items = found.reverse ++ items ∧
      Laid (text ++ [')']) (items.map Lexeme.symbol) := by
  fun_induction read found text position with
  | case1 => cases h
  | case2 found text position finish hskip =>
      cases h
      by_cases htext : text = []
      · subst htext
        exact ⟨[], by simp, .close⟩
      · exact absurd rfl (Cursor.skipBlanks_lines hskip hlines htext []).1
  | case3 => cases h
  | case4 found text position c rest position' hskip cursor hlexeme ih =>
      obtain ⟨_, hsuffix, _⟩ := Cursor.skipBlanks_lines hskip hlines (ne_nil_of_skip hskip) []
      obtain ⟨hcursor, hend, _⟩ := Cursor.lexeme_lines hlexeme (hlines.suffix hsuffix) []
      obtain ⟨gap, rfl, _, hidle⟩ := Cursor.skipBlanks_idle hskip
      obtain ⟨comment, hcomment, _, hidle'⟩ := Cursor.lexeme_comment hlexeme
      have hrest : cursor.rest ≠ [] := by
        intro hnil
        obtain ⟨_, hnone, _⟩ := hend hnil
        cases hnone
      obtain ⟨hgap, hunbroken⟩ := hunbroken.of_append
      rw [hcomment] at hunbroken
      obtain ⟨items, hitems, hlaid⟩ := ih h (hlines.suffix (hcursor.trans hsuffix))
        hunbroken.of_append.2
      have hafter := hidle'.laid hunbroken.of_append.1 hrest hlaid
      rw [← List.append_assoc, ← hcomment] at hafter
      refine ⟨items, hitems, ?_⟩
      rw [List.append_assoc]
      exact hidle.laid hgap (by simp) hafter
  | case5 found text position c rest position' hskip lexeme cursor hlexeme ih =>
      obtain ⟨_, hsuffix, _⟩ := Cursor.skipBlanks_lines hskip hlines (ne_nil_of_skip hskip) []
      obtain ⟨hcursor, hend, _⟩ := Cursor.lexeme_lines hlexeme (hlines.suffix hsuffix) []
      obtain ⟨gap, rfl, _, hidle⟩ := Cursor.skipBlanks_idle hskip
      obtain ⟨slice, hslice, _⟩ := Cursor.lexeme_covers hlexeme
      obtain ⟨hgap, hunbroken⟩ := hunbroken.of_append
      have hafter : Unbroken cursor.rest := (hslice ▸ hunbroken).of_append.2
      obtain ⟨items, hitems, hlaid⟩ := ih h (hlines.suffix (hcursor.trans hsuffix)) hafter
      have hrest : lexeme.kind = .word → cursor.rest ≠ [] := by
        intro hkind hnil
        obtain ⟨_, hsome, hnewline⟩ := hend hnil
        cases hsome
        rw [hkind] at hnewline
        cases hnewline
      have hfound : lexeme ∈ stream.items := by simp [hitems]
      have hmore := Cursor.lexeme_laid (Cursor.skipBlanks_again hskip) hlexeme hunbroken hrest
        (hregular lexeme hfound) hlaid
      refine ⟨lexeme :: items, by simp [hitems], ?_⟩
      rw [List.append_assoc]
      exact hidle.laid hgap (by simp) hmore

end Conch.Syntax
