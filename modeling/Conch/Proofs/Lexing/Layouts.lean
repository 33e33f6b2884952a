import Conch.Proofs.Lexing.Pieces
import Conch.Proofs.Tree.Shape
import Conch.Proofs.Tree.Words

/-!
# Lexing a rendering

In the layout of a tree no piece runs on into the piece after it.  So the
lexer finds in a rendering the symbols of its layout as soon as it finds the words
(`read_layout`).
-/

namespace Conch.Syntax

namespace Piece

/-- What comes after a word or a statement in a layout. -/
def endsWord (next : Option Char) : Prop := ∀ c ∈ next, c = ' ' ∨ c = ';' ∨ c = ')'

theorem endsWord.boundary {next : Option Char} (h : endsWord next) :
    next.all isWordBoundary = true := by
  cases next with
  | none => rfl
  | some c => rcases h c rfl with rfl | rfl | rfl <;> rfl

/-- The text of the piece ends before this character. -/
def EndsBefore (next : Option Char) : Piece → Prop
  | blank => True
  | mark token => token.endsBefore next = true
  | number _ => next = some '<' ∨ next = some '>'
  | name text => isName text = true ∧ next.all isWordBoundary = true
  | word _ _ => endsWord next

/-- No piece runs on into the next one. -/
def Spaced : List Piece → Prop
  | [] => True
  | piece :: rest => piece.EndsBefore (spell rest).head? ∧ Spaced rest

/-- Pieces that can stand after a statement or a word. -/
def Continues (after : List Piece) : Prop :=
  Spaced after ∧ endsWord (spell after).head?

theorem EndsBefore.lexed {piece : Piece} {rest : List Char} (h : piece.EndsBefore rest.head?)
    (hword : piece.word? = none) : piece.Lexed rest := by
  cases piece with
  | blank => exact lexed_blank rest
  | mark token => exact lexed_mark h
  | number value => exact lexed_number h
  | name text => exact lexed_name h.1 h.2
  | word opensArm node => simp [word?] at hword

/-- Each of the pieces is read as its symbol before the others and the rest. -/
def AllLexed : List Piece → List Char → Prop
  | [], _ => True
  | piece :: after, rest => piece.Lexed (spell after ++ rest) ∧ AllLexed after rest

theorem AllLexed.read {pieces : List Piece} {rest : List Char} (h : AllLexed pieces rest)
    (found : List Lexeme) (position : Position) :
    ∃ (items : List Lexeme) (after : Position), items.map Lexeme.symbol = symbols pieces ∧
      Lexemes.read found (spell pieces ++ rest) position =
        Lexemes.read (items.reverse ++ found) rest after := by
  induction pieces generalizing found position with
  | nil => exact ⟨[], position, rfl, rfl⟩
  | cons piece pieces ih =>
      obtain ⟨hpiece, hpieces⟩ := h
      obtain ⟨items, after, hitems, hread⟩ := hpiece found position
      obtain ⟨others, finish, hsymbols, hfinish⟩ := ih hpieces (items.reverse ++ found) after
      refine ⟨items ++ others, finish, ?_, ?_⟩
      · rw [List.map_append, hitems, hsymbols]
        cases piece <;> rfl
      · rw [spell_cons, List.append_assoc, hread, hfinish]
        simp

/-- Where the words of some pieces are read as words, the pieces are read as their symbols. -/
theorem read_pieces {pieces : List Piece} (hspaced : Spaced pieces)
    (hwords : ∀ before opensArm n after, pieces = before ++ word opensArm n :: after →
      endsWord (spell after).head? → (word opensArm n).Lexed (spell after))
    (found : List Lexeme) (position : Position) :
    ∃ (items : List Lexeme) (after : Position), items.map Lexeme.symbol = symbols pieces ∧
      Lexemes.read found (spell pieces) position =
        .ok ⟨found.reverse ++ items, after⟩ := by
  have hlexed : AllLexed pieces [] := by
    clear found position
    induction pieces with
    | nil => trivial
    | cons piece rest ih =>
        obtain ⟨hends, hrest⟩ := hspaced
        refine ⟨?_, ih hrest fun before opensArm n after h =>
          hwords (piece :: before) opensArm n after (by rw [h, List.cons_append])⟩
        rw [List.append_nil]
        cases piece with
        | word opensArm n => exact hwords [] opensArm n rest rfl hends
        | _ => exact hends.lexed rfl
  obtain ⟨items, after, hitems, hread⟩ := hlexed.read found position
  refine ⟨items, after, hitems, ?_⟩
  rw [List.append_nil] at hread
  rw [hread, Lexemes.read_eq]
  simp [Cursor.skipBlanks]

/-! ## The layouts of trees -/

@[simp] theorem spaced_blank (after : List Piece) : Spaced (blank :: after) ↔ Spaced after := by
  simp [Spaced, EndsBefore]

@[simp] theorem spaced_mark_blank (token : Token) (after : List Piece) :
    Spaced (mark token :: blank :: after) ↔ Spaced after := by
  have hends : token.endsBefore (some ' ') = true := by cases token <;> decide
  simp [Spaced, EndsBefore, Piece.text, hends]

@[simp] theorem spaced_separator (after : List Piece) :
    Spaced (separator ++ after) ↔ Spaced after := spaced_mark_blank .semicolon after

theorem continues_blank {after : List Piece} (h : Spaced after) : Continues (blank :: after) :=
  ⟨by simpa using h, by simp [endsWord, Piece.text]⟩

theorem continues_separator {after : List Piece} (h : Spaced after) :
    Continues (separator ++ after) :=
  ⟨by simpa using h, by simp [endsWord, separator, Piece.text, Token.text]⟩

/-- The tokens at the end of a construct. -/
theorem Continues.spaced_mark {token : Token} {after : List Piece} (h : Continues after)
    (htoken : token = .rightParen ∨ token = .ampersand ∨ token ∈ Token.reservedWords) :
    Spaced (mark token :: after) := by
  refine ⟨?_, h.1⟩
  have hafter := h.2
  change token.endsBefore (spell after).head? = true
  cases hnext : (spell after).head? with
  | none => cases token <;> rfl
  | some c =>
      have hc := hafter c (by simp [hnext])
      rcases hc with rfl | rfl | rfl <;> cases token <;>
        first | decide | simp [Token.reservedWords] at htoken

variable {nodes : List Node}

theorem spaced_layoutMore {between after : List Piece}
    (hbetween : ∀ rest, Spaced rest → Continues (between ++ rest))
    (hnodes : ∀ n ∈ nodes, ∀ after, Continues after → Spaced (n.layout ++ after))
    (hafter : Continues after) : Continues (Node.layoutMore between nodes ++ after) := by
  induction nodes with
  | nil => exact hafter
  | cons node rest ih =>
      have hrest := ih (fun n hn => hnodes n (by simp [hn]))
      rw [Node.layoutMore, List.append_assoc, List.append_assoc]
      exact hbetween _ (hnodes node (by simp) _ hrest)

theorem spaced_layouts {between after : List Piece}
    (hbetween : ∀ rest, Spaced rest → Continues (between ++ rest))
    (hnodes : ∀ n ∈ nodes, ∀ after, Continues after → Spaced (n.layout ++ after))
    (hafter : Continues after) : Spaced (Node.layouts between nodes ++ after) := by
  cases nodes with
  | nil => exact hafter.1
  | cons node rest =>
      rw [Node.layouts, List.append_assoc]
      exact hnodes node (by simp) _
        (spaced_layoutMore hbetween (fun n hn => hnodes n (by simp [hn])) hafter)

/-- The text of the word begins with a character of words. -/
def StartsWord (_opensArm : Bool) (n : Node) : Prop :=
  ∃ c rest, n.render.toList = c :: rest ∧ isWordBoundary c = false

/-- Whatever may follow a statement can follow the tree. -/
def SpacedBefore (n : Node) : Prop := ∀ after, Continues after → Spaced (n.layout ++ after)

theorem spaced_redirection {descriptor : Option Nat} {op : Token} {target : Node}
    (hop : op.isRedirection = true) (htarget : target.IsWord)
    (hwords : ForWords StartsWord target.layout) : SpacedBefore (.redirection descriptor op target) := by
  intro after hafter
  have hlayout : target.layout = [word false target] := by
    cases target <;> first | exact htarget.elim | rfl
  obtain ⟨c, rest, hrender, hc⟩ := hwords false target (by simp [hlayout])
  have hends : op.endsBefore (some c) = true := by
    have hand : c ≠ '&' := by
      rintro rfl
      exact absurd hc (by decide)
    have hgreater : c ≠ '>' := by
      rintro rfl
      exact absurd hc (by decide)
    cases op <;> simp_all [Token.endsBefore, Token.isRedirection, Token.reservedWords]
  have hspell : (spell (word false target :: after)).head? = some c := by
    simp [Piece.text, hrender]
  have hmark : Spaced (mark op :: word false target :: after) :=
    ⟨by rwa [hspell], hafter.2, hafter.1⟩
  cases descriptor with
  | none => simpa [Node.layout, hlayout] using hmark
  | some value =>
      have hnumber : EndsBefore (spell (mark op :: word false target :: after)).head?
          (number value) := by
        cases op <;> first | exact .inl rfl | exact .inr rfl | exact Bool.noConfusion hop
      have hall : Spaced (number value :: mark op :: word false target :: after) :=
        ⟨hnumber, hmark⟩
      simpa [Node.layout, hlayout] using hall

theorem spaced_argument {n : Node} (hn : n.IsArgument)
    (hwords : ForWords StartsWord n.layout) : SpacedBefore n := by
  cases n with
  | word parts => exact fun after hafter => ⟨hafter.2, hafter.1⟩
  | redirection descriptor op target =>
      exact spaced_redirection hn.2.1 hn.2.2 ((forWords_redirection descriptor op target).mp hwords)
  | _ => exact hn.elim

theorem spaced_word {n : Node} (hn : n.IsWord) : SpacedBefore n := by
  cases n <;> first | exact hn.elim | exact fun after hafter => ⟨hafter.2, hafter.1⟩

theorem spaced_command {args : List Node} {background : Bool} (hargs : ∀ n ∈ args, n.IsArgument)
    (hwords : ∀ n ∈ args, ForWords StartsWord n.layout) :
    SpacedBefore (.command args background) := by
  intro after hafter
  have hspaced := fun n hn => spaced_argument (hargs n hn) (hwords n hn)
  rw [Node.layout, List.append_assoc]
  refine spaced_layouts (fun _ h => continues_blank h) hspaced ?_
  cases background with
  | false => exact hafter
  | true => exact continues_blank (hafter.spaced_mark (by simp))

theorem spaced_subshell {body : List Node} (ih : ∀ n ∈ body, SpacedBefore n) :
    SpacedBefore (.subshell body) := by
  intro after hafter
  have hclose : Continues (mark .rightParen :: after) :=
    ⟨hafter.spaced_mark (by simp), by simp [endsWord, Piece.text, Token.text]⟩
  simp only [Node.layout, List.cons_append, List.append_assoc]
  exact ⟨rfl, spaced_layouts (fun _ h => continues_separator h) ih hclose⟩

/-- A list of statements, the semicolon after it and the reserved word that goes on. -/
theorem spaced_body {body : List Node} {token : Token} {after : List Piece}
    (ih : ∀ n ∈ body, SpacedBefore n) (hafter : Spaced (mark token :: after)) :
    Spaced (Node.layouts separator body ++ (separator ++ mark token :: after)) :=
  spaced_layouts (fun _ h => continues_separator h) ih (continues_separator hafter)

theorem spaced_group {body : List Node} (ih : ∀ n ∈ body, SpacedBefore n) :
    SpacedBefore (.group body) := by
  intro after hafter
  simp only [Node.layout, List.cons_append, List.append_assoc, spaced_mark_blank]
  exact spaced_body ih (hafter.spaced_mark (by decide))

theorem spaced_whileLoop {test : Node} {body : List Node} (ihtest : SpacedBefore test)
    (ih : ∀ n ∈ body, SpacedBefore n) : SpacedBefore (.whileLoop test body) := by
  intro after hafter
  simp only [Node.layout, List.cons_append, List.append_assoc, spaced_mark_blank]
  refine ihtest _ (continues_separator ?_)
  rw [spaced_mark_blank]
  exact spaced_body ih (hafter.spaced_mark (by decide))

theorem spaced_forLoop {name : String} {words body : List Node} (hname : isName name = true)
    (hwords : ∀ n ∈ words, n.IsWord) (ih : ∀ n ∈ body, SpacedBefore n) :
    SpacedBefore (.forLoop name words body) := by
  intro after hafter
  simp only [Node.layout, List.cons_append, List.append_assoc, spaced_mark_blank]
  refine ⟨⟨hname, rfl⟩, ?_⟩
  simp only [spaced_blank, spaced_mark_blank]
  refine spaced_layouts (fun _ h => continues_blank h) (fun n hn => spaced_word (hwords n hn))
    (continues_separator ?_)
  rw [spaced_mark_blank]
  exact spaced_body ih (hafter.spaced_mark (by decide))

theorem spaced_branches {branches : List Branch} {after : List Piece}
    (ih : ∀ t b, Branch.mk t b ∈ branches → SpacedBefore t ∧ ∀ n ∈ b, SpacedBefore n)
    (hafter : Continues after) : Continues (Branch.layouts branches ++ after) := by
  induction branches with
  | nil => exact hafter
  | cons branch rest ihrest =>
      obtain ⟨test, body⟩ := branch
      obtain ⟨htest, hbody⟩ := ih test body (by simp)
      have hrest := ihrest (fun t b h => ih t b (by simp [h]))
      simp only [Branch.layouts, Branch.layout, List.append_assoc, List.cons_append]
      refine continues_separator ?_
      rw [spaced_mark_blank]
      refine htest _ (continues_separator ?_)
      rw [spaced_mark_blank]
      exact spaced_layouts (fun _ h => continues_separator h) hbody hrest

theorem spaced_conditional {test : Node} {body otherwise : List Node} {elifs : List Branch}
    (ihtest : SpacedBefore test) (ihbody : ∀ n ∈ body, SpacedBefore n)
    (ihelifs : ∀ t b, Branch.mk t b ∈ elifs → SpacedBefore t ∧ ∀ n ∈ b, SpacedBefore n)
    (ihotherwise : ∀ n ∈ otherwise, SpacedBefore n) :
    SpacedBefore (.conditional test body elifs otherwise) := by
  intro after hafter
  have hend : Continues (separator ++ mark .fiWord :: after) :=
    continues_separator (hafter.spaced_mark (by decide))
  cases otherwise with
  | nil =>
      simp only [Node.layout, List.cons_append, List.append_assoc, spaced_mark_blank,
        List.nil_append]
      refine ihtest _ (continues_separator ?_)
      rw [spaced_mark_blank]
      exact spaced_layouts (fun _ h => continues_separator h) ihbody
        (spaced_branches ihelifs hend)
  | cons statement rest =>
      simp only [Node.layout, List.cons_append, List.append_assoc, spaced_mark_blank,
        List.nil_append]
      refine ihtest _ (continues_separator ?_)
      rw [spaced_mark_blank]
      refine spaced_layouts (fun _ h => continues_separator h) ihbody
        (spaced_branches ihelifs (continues_separator ?_))
      rw [spaced_mark_blank]
      exact ihotherwise statement (by simp) _ (spaced_layoutMore
        (fun _ h => continues_separator h) (fun n hn => ihotherwise n (by simp [hn])) hend)

theorem spaced_binary {op : Token} {left right : Node} (ihleft : SpacedBefore left)
    (ihright : SpacedBefore right) : SpacedBefore (.binary op left right) := by
  intro after hafter
  simp only [Node.layout, List.append_assoc, List.cons_append]
  refine ihleft _ (continues_blank ?_)
  rw [spaced_mark_blank]
  exact ihright after hafter

theorem spaced_function {name : String} {body : Node} (hname : isName name = true)
    (ih : SpacedBefore body) : SpacedBefore (.function name body) := by
  intro after hafter
  simp only [Node.layout, List.cons_append]
  refine ⟨⟨hname, rfl⟩, rfl, ?_⟩
  rw [spaced_mark_blank]
  exact ih after hafter

theorem spaced_arm {patterns body : List Node} {after : List Piece}
    (hpatterns : ∀ n ∈ patterns, n.IsWord) (ih : ∀ n ∈ body, SpacedBefore n)
    (hafter : Continues after) : Spaced ((Arm.mk patterns body).layout ++ after) := by
  have hbody : Spaced (mark .rightParen :: blank :: (Node.layouts separator body ++ after)) := by
    rw [spaced_mark_blank]
    exact spaced_layouts (fun _ h => continues_separator h) ih hafter
  cases patterns with
  | nil => simpa [Arm.layout] using hbody
  | cons first others =>
      simp only [Arm.layout, List.cons_append, List.append_assoc]
      have hclose : Continues
          (mark .rightParen :: blank :: (Node.layouts separator body ++ after)) :=
        ⟨hbody, by simp [endsWord, Piece.text, Token.text]⟩
      have hbetween : ∀ rest, Spaced rest → Continues ([blank, mark .pipe, blank] ++ rest) :=
        fun _ h => continues_blank (by simpa using h)
      have hspaced : ∀ n ∈ others, ∀ after, Continues after → Spaced (n.layout ++ after) :=
        fun n hn => spaced_word (hpatterns n (by simp [hn]))
      have hothers := spaced_layoutMore hbetween hspaced hclose
      exact ⟨hothers.2, hothers.1⟩

theorem spaced_arms {arms : List Arm} {after : List Piece}
    (ih : ∀ ps b, Arm.mk ps b ∈ arms → (∀ n ∈ ps, n.IsWord) ∧ ∀ n ∈ b, SpacedBefore n)
    (hafter : Continues after) : Continues (Arm.layoutMore arms ++ after) := by
  induction arms with
  | nil => exact hafter
  | cons arm rest ihrest =>
      obtain ⟨patterns, body⟩ := arm
      obtain ⟨hpatterns, hbody⟩ := ih patterns body (by simp)
      have hrest := ihrest (fun ps b h => ih ps b (by simp [h]))
      simp only [Arm.layoutMore, List.cons_append, List.append_assoc]
      refine ⟨?_, by simp [endsWord, Piece.text, Token.text]⟩
      rw [spaced_mark_blank]
      exact spaced_arm hpatterns hbody hrest

theorem spaced_choice {subject : Node} {arms : List Arm} (hsubject : subject.IsWord)
    (ih : ∀ ps b, Arm.mk ps b ∈ arms → (∀ n ∈ ps, n.IsWord) ∧ ∀ n ∈ b, SpacedBefore n) :
    SpacedBefore (.choice subject arms) := by
  intro after hafter
  have hend : Continues (separator ++ mark .esacWord :: after) :=
    continues_separator (hafter.spaced_mark (by decide))
  simp only [Node.layout, List.cons_append, List.append_assoc, spaced_mark_blank]
  refine spaced_word hsubject _ (continues_blank ?_)
  rw [spaced_mark_blank]
  rcases arms with _ | ⟨⟨patterns, body⟩, rest⟩
  · exact hend.1
  · obtain ⟨hpatterns, hbody⟩ := ih patterns body (by simp)
    rw [Arm.layouts, List.append_assoc]
    exact spaced_arm hpatterns hbody (spaced_arms (fun ps b h => ih ps b (by simp [h])) hend)

/-- Nothing in the layout of a tree that the grammar can build runs on. -/
theorem spaced_fits {n : Node} {rank : Rank} (hfits : n.Fits rank)
    (hwords : ForWords StartsWord n.layout) : SpacedBefore n := by
  induction n using Node.induction generalizing rank with
  | command args background _ =>
      exact spaced_command hfits.2.2.1 ((forWords_command args background).mp hwords)
  | subshell body ih =>
      have hbody := Node.allFit_iff.mp hfits.2
      exact spaced_subshell (fun n hn =>
        ih n hn (hbody n hn) ((forWords_subshell body).mp hwords n hn))
  | group body ih =>
      have hbody := Node.allFit_iff.mp hfits.2
      exact spaced_group (fun n hn => ih n hn (hbody n hn) ((forWords_group body).mp hwords n hn))
  | conditional test body elifs otherwise ihtest ihbody ihelifs ihotherwise =>
      obtain ⟨htest, ⟨_, hbody⟩, helifs, hotherwise⟩ := hfits
      obtain ⟨htestWords, hbodyWords, helifsWords, hotherwiseWords⟩ :=
        (forWords_conditional test body elifs otherwise).mp hwords
      refine spaced_conditional (ihtest htest htestWords)
        (fun n hn => ihbody n hn (Node.allFit_iff.mp hbody n hn) (hbodyWords n hn))
        (fun t b hmem => ?_)
        (fun n hn => ihotherwise n hn (Node.allFit_iff.mp hotherwise n hn) (hotherwiseWords n hn))
      obtain ⟨ht, _, hb⟩ := Branch.allFit_iff.mp helifs t b hmem
      obtain ⟨htWords, hbWords⟩ := helifsWords t b hmem
      exact ⟨(ihelifs t b hmem).1 ht htWords,
        fun n hn => (ihelifs t b hmem).2 n hn (Node.allFit_iff.mp hb n hn) (hbWords n hn)⟩
  | whileLoop test body ihtest ih =>
      obtain ⟨htest, _, hbody⟩ := hfits
      obtain ⟨htestWords, hbodyWords⟩ := (forWords_whileLoop test body).mp hwords
      exact spaced_whileLoop (ihtest htest htestWords)
        (fun n hn => ih n hn (Node.allFit_iff.mp hbody n hn) (hbodyWords n hn))
  | forLoop name words body _ ih =>
      obtain ⟨hname, hvalues, _, hbody⟩ := hfits
      obtain ⟨_, hbodyWords⟩ := (forWords_forLoop name words body).mp hwords
      exact spaced_forLoop hname hvalues
        (fun n hn => ih n hn (Node.allFit_iff.mp hbody n hn) (hbodyWords n hn))
  | binary op left right ihleft ihright =>
      obtain ⟨hleftWords, hrightWords⟩ := (forWords_binary op left right).mp hwords
      obtain ⟨leftRank, rightRank, hleft, hright⟩ :
          ∃ leftRank rightRank, left.Fits leftRank ∧ right.Fits rightRank := by
        cases op <;> simp [Node.Fits] at hfits <;> exact ⟨_, _, hfits.2⟩
      exact spaced_binary (ihleft hleft hleftWords) (ihright hright hrightWords)
  | function name body ih =>
      exact spaced_function hfits.1 (ih hfits.2.2 ((forWords_function name body).mp hwords))
  | choice subject arms _ ih =>
      obtain ⟨hsubject, harms⟩ := hfits
      obtain ⟨_, harmsWords⟩ := (forWords_choice subject arms).mp hwords
      refine spaced_choice hsubject (fun ps b hmem => ?_)
      obtain ⟨_, hpatterns, hb⟩ := Arm.allFit_iff.mp harms ps b hmem
      exact ⟨hpatterns, fun n hn => (ih ps b hmem).2 n hn (Node.allFit_iff.mp hb n hn)
        ((harmsWords ps b hmem).2 n hn)⟩
  | _ => exact hfits.elim

end Piece

/-- Nothing in the layout of a program runs on. -/
theorem Program.spaced {program : Program} (hfits : Node.AllFit program)
    (hstarts : Piece.ForWords Piece.StartsWord program.layout) : Piece.Spaced program.layout := by
  have hspaced : Piece.Spaced (program.layout ++ []) :=
    Piece.spaced_layouts (fun _ h => Piece.continues_separator h)
      (fun n hn => Piece.spaced_fits (Node.allFit_iff.mp hfits n hn)
        ((Piece.forWords_list program).mp hstarts n hn))
      ⟨trivial, by simp [Piece.endsWord]⟩
  rwa [List.append_nil] at hspaced

/-- A program whose words are read as words is read as the symbols of its layout. -/
theorem Program.lexemes {program : Program} (hfits : Node.AllFit program)
    (hstarts : Piece.ForWords Piece.StartsWord program.layout)
    (hwords : ∀ before opensArm n after, program.layout = before ++ .word opensArm n :: after →
      Piece.endsWord (Piece.spell after).head? →
        (Piece.word opensArm n).Lexed (Piece.spell after)) :
    ∃ stream, Lexemes.ofText (Program.render program).toList = .ok stream ∧
      stream.items.map Lexeme.symbol = Piece.symbols program.layout := by
  obtain ⟨items, after, hitems, hread⟩ :=
    Piece.read_pieces (spaced hfits hstarts) hwords [] .start
  rw [Program.render_toList]
  exact ⟨_, hread, hitems⟩

end Conch.Syntax
