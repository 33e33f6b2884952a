import Conch.Proofs.Grammar.Steady
import Conch.Proofs.Lexing.Spots
import Conch.Proofs.Parsing
import Conch.Proofs.Words.Divisions

/-!
# Texts that open with a parenthesis

Two parentheses behind a dollar sign start an arithmetic expansion, so a substituted program
whose rendering starts with a parenthesis is taken for one.  It starts so where the text did
that the program was read from (`keepsOpening_atRoom`): the subshell at the front of a list is
at the front of its rendering.
-/

namespace Conch.Syntax

namespace Grammar

/-- The next lexeme opens a subshell. -/
def Opening (stream : Lexemes) : Prop :=
  stream.items.head?.map Lexeme.kind = some (.op .leftParen)

/-- The layout starts with a subshell. -/
def Opens (n : Node) : Prop := n.layout.head? = some (.mark .leftParen)

theorem command_opens {below : Option Level} {program : Word.ProgramParser} {stream rest : Lexemes}
    {n : Node} (hopening : Opening stream) (h : commandOn below program stream = .ok (n, rest)) :
    Opens n := by
  rw [commandOn_run] at h
  have hcompound : compound? stream.items = some Level.subshell := by
    obtain ⟨lexeme, hlexeme, hkind⟩ := Option.map_eq_some_iff.mp hopening
    obtain ⟨items, hitems⟩ := List.head?_eq_some_iff.mp hlexeme
    simp [hitems, compound?, hkind]
  simp only [hcompound] at h
  cases below with
  | none => cases h
  | some level =>
      obtain ⟨_, _, _, h⟩ := bind_eq_ok h
      obtain ⟨body, _, _, h⟩ := bind_eq_ok h
      obtain ⟨_, _, _, h⟩ := bind_eq_ok h
      cases h
      simp [Opens, Node.layout]

/-- Operators are behind what they join. -/
theorem extend_opens {step : Node → Grammar (Option Node)}
    (hstep : ∀ left, Ensures (fun _ => True) (step left) fun found =>
      ∀ n ∈ found, ∃ op right, n = Node.binary op left right)
    {first n : Node} {bound : List Lexeme} {stream rest : Lexemes} (hfirst : Opens first)
    (h : extend step bound first stream = .ok (n, rest)) : Opens n := by
  have hopens : Ensures (fun _ => True) (extend step bound first) Opens := by
    refine ensures_extend (fun left hleft stream found rest hstream h => ?_) bound hfirst
    obtain ⟨hfound, hrest⟩ := hstep left stream found rest hstream h
    refine ⟨fun n hn => ?_, hrest⟩
    obtain ⟨op, right, rfl⟩ := hfound n hn
    rw [Opens, Node.layout, List.head?_append, hleft]
    rfl
  exact (hopens stream n rest (fun _ _ => trivial) h).1

section

variable {command : Grammar Node} (hcommand : ∀ stream rest n, Opening stream →
  command stream = .ok (n, rest) → Opens n) {stream rest : Lexemes} (hopening : Opening stream)

include hcommand hopening

theorem pipeline_opens {n : Node} (h : pipeline command stream = .ok (n, rest)) : Opens n := by
  obtain ⟨first, middle, hfirst, h⟩ := bind_eq_ok h
  obtain ⟨bound, _, hbound, h⟩ := bind_eq_ok h
  cases hbound
  refine extend_opens (fun left => ?_) (hcommand _ _ _ hopening hfirst) h
  refine .last fun _ => .cond (fun _ => ?_) fun _ => .pure (by simp)
  exact .last fun _ => .last fun _ => .last fun right => .pure (by simp)

theorem andOrList_opens {n : Node} (h : andOrList command stream = .ok (n, rest)) : Opens n := by
  obtain ⟨first, middle, hfirst, h⟩ := bind_eq_ok h
  obtain ⟨bound, _, hbound, h⟩ := bind_eq_ok h
  cases hbound
  refine extend_opens (fun left => ?_) (pipeline_opens hcommand hopening hfirst) h
  refine .last fun operator => ?_
  cases operator with
  | none => exact .pure (by simp)
  | some token => exact .last fun _ => .last fun _ => .last fun right => .pure (by simp)

omit hcommand hopening in
theorem opens_background {args : List Node} {background : Bool}
    (h : Opens (.command args background)) : Opens (.command args true) := by
  unfold Opens at h ⊢
  rw [Node.layout] at h ⊢
  cases hargs : Node.layouts [.blank] args with
  | nil =>
      rw [hargs] at h
      cases background <;> cases h
  | cons piece pieces => simpa [hargs] using h

theorem nextStatement_opens {found : Option (Node × Following)}
    (h : nextStatement command [] stream = .ok (found, rest)) :
    ∃ n following, found = some (n, following) ∧ Opens n := by
  obtain ⟨lexeme, hlexeme, hkind⟩ := Option.map_eq_some_iff.mp hopening
  obtain ⟨items, hitems⟩ := List.head?_eq_some_iff.mp hlexeme
  have hskip : skipNewlines stream = .ok ((), stream) := by
    obtain ⟨_, finish⟩ := stream
    obtain rfl : _ = lexeme :: items := hitems
    simp [skipNewlines_run, Lexemes.pastNewlines, hkind]
  have hstops : stopsAt [] lexeme = false := by simp [stopsAt]
  rw [nextStatement_eq, bind_ok hskip, bind_ok (show current stream = _ from rfl), hlexeme,
    Option.all_some, hstops] at h
  obtain ⟨statement, middle, hstatement, h⟩ := bind_eq_ok h
  have hopens := andOrList_opens hcommand hopening hstatement
  unfold endStatement at h
  obtain ⟨found, after, hfound, h⟩ := bind_eq_ok h
  cases hfound
  split at h
  · cases statement with
    | command args background =>
        obtain ⟨_, _, _, h⟩ := bind_eq_ok h
        obtain ⟨_, _, hsemicolon, h⟩ := bind_eq_ok h
        cases hsemicolon
        refine ⟨.command args true, .more, ?_, opens_background hopens⟩
        split at h
        · obtain ⟨_, _, _, h⟩ := bind_eq_ok h
          cases h
          rfl
        · cases h
          rfl
    | _ => cases h
  · obtain ⟨following, _, _, h⟩ := bind_eq_ok h
    cases h
    exact ⟨statement, following, rfl, hopens⟩

omit hcommand hopening in
theorem statements_prefix {stops : List Token} {bound : List Lexeme} {found body : List Node}
    {stream rest : Lexemes} (h : statements command stops bound found stream = .ok (body, rest)) :
    found.reverse <+: body := by
  induction bound generalizing found stream with
  | nil =>
      unfold statements at h
      obtain ⟨next, middle, _, h⟩ := bind_eq_ok h
      rcases next with _ | ⟨n, _ | _⟩ <;> cases h <;> simp
  | cons lexeme bound ih =>
      unfold statements at h
      obtain ⟨next, middle, _, h⟩ := bind_eq_ok h
      rcases next with _ | ⟨n, _ | _⟩
      · cases h
        simp
      · exact (List.prefix_append found.reverse [n]).trans (by simpa using ih h)
      · cases h
        simp

theorem statements_opens {bound : List Lexeme} {body : List Node}
    (h : statements command [] bound [] stream = .ok (body, rest)) :
    ∃ n more, body = n :: more ∧ Opens n := by
  have hfirst : ∃ n, Opens n ∧ [n] <+: body := by
    unfold statements at h
    obtain ⟨next, middle, hnext, h⟩ := bind_eq_ok h
    obtain ⟨n, following, rfl, hopens⟩ := nextStatement_opens hcommand hopening hnext
    refine ⟨n, hopens, ?_⟩
    cases following with
    | last =>
        cases h
        simp
    | more =>
        cases bound with
        | nil =>
            cases h
            simp
        | cons lexeme bound => exact statements_prefix h
  obtain ⟨n, hopens, more, rfl⟩ := hfirst
  exact ⟨n, more, rfl, hopens⟩

end

/-- A whole program is a list of statements up to the end of the text. -/
theorem wholeProgram_eq_ok {command : Grammar Node} {stream rest : Lexemes} {program : Program}
    (h : wholeProgram command stream = .ok (program, rest)) :
    statementList command [] stream = .ok (program, rest) ∧ rest.items = [] := by
  obtain ⟨body, middle, hbody, h⟩ := bind_eq_ok h
  obtain ⟨front, _, hfront, h⟩ := bind_eq_ok h
  cases hfront
  cases hitems : middle.items with
  | nil =>
      rw [hitems] at h
      cases h
      exact ⟨hbody, hitems⟩
  | cons lexeme items =>
      rw [hitems] at h
      have hfails : Ensures (fun _ => True) (unexpected : Grammar Program) fun _ => False :=
        ensures_unexpected
      exact (hfails _ _ _ (fun _ _ => trivial) h).1.elim

/-- A text that opens with a parenthesis has it for its first lexeme. -/
theorem opening_ofText {source : List Char} {stream : Lexemes}
    (h : Lexemes.ofText ('(' :: source) = .ok stream) : Opening stream := by
  have hskip : Cursor.skipBlanks ('(' :: source) .start = .ok ⟨'(' :: source, .start⟩ :=
    Cursor.skipBlanks_of_ne (by decide) (by decide) (fun h => absurd h (by decide)) .start
  have hlexeme : Cursor.lexeme '(' source .start =
      .ok (some ⟨.op .leftParen, "(", .start⟩, ⟨source, Position.start.after '('⟩) := rfl
  rw [Lexemes.ofText, Lexemes.read_lexeme hskip hlexeme] at h
  have hstands : Cursor.StandsAt ⟨source, Position.start.after '('⟩ ('(' :: source) 1 := ⟨rfl, rfl⟩
  obtain ⟨slices, hslices, _⟩ := Lexemes.read_accounted h hstands
  simp [Opening, hslices]

/-- What a program renders to starts with a parenthesis where its text does. -/
theorem keepsOpening_atRoom (room : Nat) : (Level.atRoom room).program.KeepsOpening := by
  intro source program h
  cases room with
  | zero => exact absurd (Failure.errorOf_eq_ok h) refusedProgram_ne_ok
  | succ room =>
      obtain ⟨_, stream, rest, hstream, hread⟩ := programOf_eq_ok.mp (Failure.errorOf_eq_ok h)
      obtain ⟨hbody, _⟩ := wholeProgram_eq_ok hread
      obtain ⟨bound, _, hbound, hbody⟩ := bind_eq_ok hbody
      cases hbound
      have hcommand : ∀ stream rest n, Opening stream →
          (Level.atRoom room).command stream = .ok (n, rest) → Opens n := by
        intro stream rest n hopening h
        cases room <;> exact command_opens hopening h
      obtain ⟨n, more, rfl, hopens⟩ := statements_opens hcommand (opening_ofText hstream) hbody
      obtain ⟨pieces, hpieces⟩ := List.head?_eq_some_iff.mp hopens
      simp [Program.render_toList, Program.layout, Node.layouts, hpieces, Piece.text,
        Token.text]

end Grammar

end Conch.Syntax
