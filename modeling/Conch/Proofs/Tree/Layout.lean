import Conch.Syntax.Lexeme
import Conch.Syntax.Rendering

/-!
# The layout of a rendering

A rendering is put together from blanks, tokens, descriptor numbers, names and
words.  `Node.layout` lists these pieces for a tree; their texts in a row are the
rendering (`Node.render_toList`), and the pieces other than blanks are the symbols
that a lexer should find in it.
-/

namespace Conch.Syntax

/-- A lexeme without its place. -/
structure Symbol where
  kind : LexemeKind
  text : String
  deriving DecidableEq, Repr

def Lexeme.symbol (lexeme : Lexeme) : Symbol := ⟨lexeme.kind, lexeme.text⟩

/-- How a token is read: reserved words are words, all other tokens are operators. -/
def Token.symbol (token : Token) : Symbol :=
  ⟨if token ∈ Token.reservedWords then .word else .op token, token.text⟩

inductive Piece where
  | blank
  | mark (token : Token)
  | number (value : Nat)
  /-- The name of a function or of the variable of a loop. -/
  | name (text : String)
  /-- A word; `opensArm` says that it is the first pattern of an arm. -/
  | word (opensArm : Bool) (node : Node)

namespace Piece

def text : Piece → String
  | blank => " "
  | mark token => token.text
  | number value => toString value
  | name text => text
  | word _ node => node.render

def symbol? : Piece → Option Symbol
  | blank => none
  | mark token => some token.symbol
  | number value => some ⟨.descriptor, toString value⟩
  | name text => some ⟨.word, text⟩
  | word _ node => some ⟨.word, node.render⟩

def word? : Piece → Option Node
  | word _ node => some node
  | _ => none

def opening? : Piece → Option Node
  | word true node => some node
  | _ => none

def separator : List Piece := [mark .semicolon, blank]

/-- The texts of some pieces in a row. -/
def spell (pieces : List Piece) : List Char := pieces.flatMap (fun piece => piece.text.toList)

def symbols (pieces : List Piece) : List Symbol := pieces.filterMap symbol?

@[simp] theorem spell_nil : spell [] = [] := rfl

@[simp] theorem spell_cons (piece : Piece) (pieces : List Piece) :
    spell (piece :: pieces) = piece.text.toList ++ spell pieces := rfl

@[simp] theorem spell_append (first second : List Piece) :
    spell (first ++ second) = spell first ++ spell second := by
  simp [spell]

@[simp] theorem symbols_nil : symbols [] = [] := rfl

@[simp] theorem symbols_blank (pieces : List Piece) : symbols (blank :: pieces) = symbols pieces :=
  rfl

@[simp] theorem symbols_mark (token : Token) (pieces : List Piece) :
    symbols (mark token :: pieces) = token.symbol :: symbols pieces := rfl

@[simp] theorem symbols_number (value : Nat) (pieces : List Piece) :
    symbols (number value :: pieces) = ⟨.descriptor, toString value⟩ :: symbols pieces := rfl

@[simp] theorem symbols_name (text : String) (pieces : List Piece) :
    symbols (name text :: pieces) = ⟨.word, text⟩ :: symbols pieces := rfl

@[simp] theorem symbols_word (opensArm : Bool) (node : Node) (pieces : List Piece) :
    symbols (word opensArm node :: pieces) = ⟨.word, node.render⟩ :: symbols pieces := rfl

@[simp] theorem symbols_append (first second : List Piece) :
    symbols (first ++ second) = symbols first ++ symbols second := by
  simp [symbols]

@[simp] theorem symbols_separator : symbols separator = [Token.semicolon.symbol] := rfl

end Piece

open Piece

mutual

def Node.layout : Node → List Piece
  | .command args background =>
      Node.layouts [blank] args ++ (if background then [blank, mark .ampersand] else [])
  | .redirection descriptor op target =>
      (descriptor.map number).toList ++ mark op :: target.layout
  | .subshell body =>
      mark .leftParen :: (Node.layouts separator body ++ [mark .rightParen])
  | .group body =>
      mark .leftBrace :: blank ::
        (Node.layouts separator body ++ separator ++ [mark .rightBrace])
  | .conditional test body elifs otherwise =>
      mark .ifWord :: blank :: (test.layout ++ separator ++ mark .thenWord :: blank ::
        (Node.layouts separator body ++ Branch.layouts elifs ++
          (match otherwise with
            | [] => []
            | statement :: rest =>
                separator ++ mark .elseWord :: blank ::
                  (statement.layout ++ Node.layoutMore separator rest)) ++
          separator ++ [mark .fiWord]))
  | .whileLoop test body =>
      mark .whileWord :: blank :: (test.layout ++ separator ++ mark .doWord :: blank ::
        (Node.layouts separator body ++ separator ++ [mark .doneWord]))
  | .forLoop variableName words body =>
      mark .forWord :: blank :: name variableName :: blank :: mark .inWord :: blank ::
        (Node.layouts [blank] words ++ separator ++ mark .doWord :: blank ::
          (Node.layouts separator body ++ separator ++ [mark .doneWord]))
  | .binary op left right => left.layout ++ blank :: mark op :: blank :: right.layout
  | .function functionName body =>
      name functionName :: mark .leftParen :: mark .rightParen :: blank :: body.layout
  | .choice subject arms =>
      mark .caseWord :: blank :: (subject.layout ++ blank :: mark .inWord :: blank ::
        (Arm.layouts arms ++ separator ++ [mark .esacWord]))
  | node => [word false node]

/-- The layouts of a list of nodes with the separator between neighbours. -/
def Node.layouts (between : List Piece) : List Node → List Piece
  | [] => []
  | node :: rest => node.layout ++ Node.layoutMore between rest

/-- The layouts of a list of nodes with the separator before each. -/
def Node.layoutMore (between : List Piece) : List Node → List Piece
  | [] => []
  | node :: rest => between ++ node.layout ++ Node.layoutMore between rest

def Branch.layout : Branch → List Piece
  | .mk test body =>
      separator ++ mark .elifWord :: blank :: (test.layout ++ separator ++
        mark .thenWord :: blank :: Node.layouts separator body)

def Branch.layouts : List Branch → List Piece
  | [] => []
  | branch :: rest => branch.layout ++ Branch.layouts rest

def Arm.layout : Arm → List Piece
  | .mk [] body => mark .rightParen :: blank :: Node.layouts separator body
  | .mk (first :: others) body =>
      word true first :: (Node.layoutMore [blank, mark .pipe, blank] others ++
        mark .rightParen :: blank :: Node.layouts separator body)

def Arm.layouts : List Arm → List Piece
  | [] => []
  | arm :: rest => arm.layout ++ Arm.layoutMore rest

def Arm.layoutMore : List Arm → List Piece
  | [] => []
  | arm :: rest => mark .doubleSemicolon :: blank :: (arm.layout ++ Arm.layoutMore rest)

end

namespace Program

def layout (program : Program) : List Piece := Node.layouts separator program

/-- The words of a program in reading order, those inside other words left out. -/
def words (program : Program) : List Node := program.layout.filterMap word?

/-- The first patterns of the arms of a program. -/
def openings (program : Program) : List Node := program.layout.filterMap opening?

end Program

/-! ## A rendering is its layout spelled out -/

section Spelling

attribute [local simp] Node.layout Node.layouts Node.layoutMore Branch.layout Branch.layouts
  Arm.layouts Arm.layoutMore Piece.text Token.text

theorem Node.renderMore_toList {separator : String} {between : List Piece}
    (hbetween : spell between = separator.toList) {nodes : List Node}
    (hnodes : ∀ n ∈ nodes, n.render.toList = spell n.layout) (written : String) :
    (Node.renderMore separator written nodes).toList =
      written.toList ++ spell (Node.layoutMore between nodes) := by
  induction nodes generalizing written with
  | nil => simp [Node.renderMore]
  | cons node rest ih =>
      have hnode := hnodes node (by simp)
      rw [Node.renderMore, ih (fun n hn => hnodes n (by simp [hn]))]
      simp [hbetween, hnode]

theorem Node.renderList_toList {separator : String} {between : List Piece}
    (hbetween : spell between = separator.toList) {nodes : List Node}
    (hnodes : ∀ n ∈ nodes, n.render.toList = spell n.layout) :
    (Node.renderList separator nodes).toList = spell (Node.layouts between nodes) := by
  cases nodes with
  | nil => rfl
  | cons node rest =>
      rw [Node.renderList, Node.renderMore_toList hbetween (fun n hn => hnodes n (by simp [hn])),
        hnodes node (by simp)]
      simp

theorem spell_separator : spell separator = "; ".toList := by decide

theorem Branch.renderMore_toList {branches : List Branch}
    (h : ∀ t b, Branch.mk t b ∈ branches → t.render.toList = spell t.layout ∧
      ∀ n ∈ b, n.render.toList = spell n.layout) (written : String) :
    (Branch.renderMore written branches).toList =
      written.toList ++ spell (Branch.layouts branches) := by
  induction branches generalizing written with
  | nil => simp [Branch.renderMore]
  | cons branch rest ih =>
      obtain ⟨test, body⟩ := branch
      obtain ⟨htest, hbody⟩ := h test body (by simp)
      rw [Branch.renderMore, ih (fun t b hb => h t b (by simp [hb]))]
      simp [Branch.render, htest, spell_separator, Node.renderList_toList spell_separator hbody]

theorem Arm.render_toList {patterns body : List Node}
    (hpatterns : ∀ n ∈ patterns, n.render.toList = spell n.layout)
    (hbody : ∀ n ∈ body, n.render.toList = spell n.layout) :
    (Arm.mk patterns body).render.toList = spell (Arm.mk patterns body).layout := by
  have hpipe : spell [blank, mark .pipe, blank] = " | ".toList := by decide
  cases patterns with
  | nil =>
      simp [Arm.render, Arm.layout, Node.renderList, Node.renderList_toList spell_separator hbody]
  | cons first others =>
      have hothers : ∀ n ∈ others, n.render.toList = spell n.layout :=
        fun n hn => hpatterns n (by simp [hn])
      simp [Arm.render, Arm.layout, Node.renderList, Node.renderMore_toList hpipe hothers,
        Node.renderList_toList spell_separator hbody]

theorem Arm.renderMore_toList {arms : List Arm}
    (h : ∀ ps b, Arm.mk ps b ∈ arms → (∀ n ∈ ps, n.render.toList = spell n.layout) ∧
      ∀ n ∈ b, n.render.toList = spell n.layout) (written : String) :
    (Arm.renderMore written arms).toList = written.toList ++ spell (Arm.layoutMore arms) := by
  induction arms generalizing written with
  | nil => simp [Arm.renderMore]
  | cons arm rest ih =>
      obtain ⟨patterns, body⟩ := arm
      obtain ⟨hpatterns, hbody⟩ := h patterns body (by simp)
      rw [Arm.renderMore, ih (fun ps b hb => h ps b (by simp [hb]))]
      simp [Arm.render_toList hpatterns hbody]

theorem Arm.renderList_toList {arms : List Arm}
    (h : ∀ ps b, Arm.mk ps b ∈ arms → (∀ n ∈ ps, n.render.toList = spell n.layout) ∧
      ∀ n ∈ b, n.render.toList = spell n.layout) :
    (Arm.renderList arms).toList = spell (Arm.layouts arms) := by
  cases arms with
  | nil => rfl
  | cons arm rest =>
      obtain ⟨patterns, body⟩ := arm
      obtain ⟨hpatterns, hbody⟩ := h patterns body (by simp)
      rw [Arm.renderList, Arm.renderMore_toList (fun ps b hb => h ps b (by simp [hb])),
        Arm.render_toList hpatterns hbody]
      simp

theorem Node.render_toList (n : Node) : n.render.toList = spell n.layout := by
  have hblank : spell [blank] = " ".toList := by decide
  induction n using Node.induction with
  | command args background ih =>
      cases background <;> simp [Node.render, Node.renderList_toList hblank ih]
  | redirection descriptor op target ih =>
      cases descriptor <;> simp [Node.render, ih]
  | subshell body ih =>
      simp [Node.render, Node.renderList_toList spell_separator ih]
  | group body ih =>
      simp [Node.render, Node.renderList_toList spell_separator ih, spell_separator]
  | conditional test body elifs otherwise htest hbody helifs hotherwise =>
      cases otherwise with
      | nil =>
          simp [Node.render, Branch.renderMore_toList helifs, htest,
            Node.renderList_toList spell_separator hbody, spell_separator]
      | cons statement rest =>
          have hrest : ∀ n ∈ rest, n.render.toList = spell n.layout :=
            fun n hn => hotherwise n (by simp [hn])
          simp [Node.render, Branch.renderMore_toList helifs, htest,
            Node.renderList_toList spell_separator hbody, spell_separator,
            Node.renderMore_toList spell_separator hrest, hotherwise statement]
  | whileLoop test body htest hbody =>
      simp [Node.render, htest, Node.renderList_toList spell_separator hbody, spell_separator]
  | forLoop name words body hwords hbody =>
      simp [Node.render, Node.renderList_toList hblank hwords,
        Node.renderList_toList spell_separator hbody, spell_separator]
  | binary op left right hleft hright =>
      simp [Node.render, hleft, hright]
  | function name body ih =>
      simp [Node.render, ih]
  | choice subject arms hsubject harms =>
      simp [Node.render, hsubject, Arm.renderList_toList harms, spell_separator]
  | _ => simp

theorem Program.render_toList (program : Program) :
    (Program.render program).toList = spell (Program.layout program) :=
  Node.renderList_toList spell_separator (fun n _ => n.render_toList)

end Spelling

end Conch.Syntax
