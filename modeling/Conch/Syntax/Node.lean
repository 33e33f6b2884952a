import Conch.Syntax.Token

/-!
# The syntax tree

One type of node for statements, words and the fragments of words.  The grammar
builds only some of these trees (a command holds words and redirections, a word
holds fragments), but every tree has a rendering and can be executed, so that trees
built by hand behave as well as parsed ones.
-/

namespace Conch.Syntax

mutual

inductive Node where
  /-- A simple command: words and redirections in source order. -/
  | command (args : List Node) (background : Bool)
  /-- A redirection such as `2>file`; without a descriptor the operator has a default. -/
  | redirection (descriptor : Option Nat) (op : Token) (target : Node)
  | subshell (body : List Node)
  | group (body : List Node)
  | conditional (test : Node) (body : List Node) (elifs : List Branch) (otherwise : List Node)
  | whileLoop (test : Node) (body : List Node)
  | forLoop (name : String) (words : List Node) (body : List Node)
  /-- Two statements joined by an operator of lists or pipelines. -/
  | binary (op : Token) (left right : Node)
  | function (name : String) (body : Node)
  | choice (subject : Node) (arms : List Arm)
  | word (parts : List Node)
  /-- Text without expansions; single quotes and backslashes are kept as written. -/
  | literal (text : String)
  | quoted (parts : List Node)
  | substitution (body : List Node)
  /-- A parameter: a name after the dollar sign, or the text between its braces. -/
  | parameter (short : Bool) (text : String)
  | arithmetic (text : String)

/-- A further test of a conditional with the statements it guards. -/
inductive Branch where
  | mk (test : Node) (body : List Node)

/-- One arm of a choice: alternative patterns and the statements they select. -/
inductive Arm where
  | mk (patterns : List Node) (body : List Node)

end

deriving instance BEq, Repr, Inhabited for Node
deriving instance BEq, Repr, Inhabited for Branch
deriving instance BEq, Repr, Inhabited for Arm

/-- A parsed program: the statements at the top. -/
abbrev Program := List Node

namespace Node

/-- The word made of one literal. -/
def plain (text : String) : Node := .word [.literal text]

/-- The fragments of a word; any other node is a word of one fragment. -/
def fragments : Node → List Node
  | .word parts => parts
  | node => [node]

end Node

/-! ## Heights

How many levels a tree has.  The texts of parameter and arithmetic expansions are
parsed when they are expanded, so they count as high as anything that they can spell.
-/

/-- A bound on the height of what a text can spell. -/
def textHeight (text : String) : Nat := 8 * text.length + 8

mutual

def Node.height : Node → Nat
  | .command args _ => Node.heights args + 1
  | .redirection _ _ target => target.height + 1
  | .subshell body => Node.heights body + 1
  | .group body => Node.heights body + 1
  | .conditional test body elifs otherwise =>
      max (max test.height (Node.heights body))
        (max (Branch.heights elifs) (Node.heights otherwise)) + 1
  | .whileLoop test body => max test.height (Node.heights body) + 1
  | .forLoop _ words body => max (Node.heights words) (Node.heights body) + 1
  | .binary _ left right => max left.height right.height + 1
  | .function _ body => body.height + 1
  | .choice subject arms => max subject.height (Arm.heights arms) + 1
  | .word parts => Node.heights parts + 1
  | .literal _ => 1
  | .quoted parts => Node.heights parts + 1
  | .substitution body => Node.heights body + 1
  | .parameter _ text => textHeight text
  | .arithmetic text => textHeight text

def Node.heights : List Node → Nat
  | [] => 0
  | node :: rest => max node.height (Node.heights rest)

def Branch.height : Branch → Nat
  | .mk test body => max test.height (Node.heights body) + 1

def Branch.heights : List Branch → Nat
  | [] => 0
  | branch :: rest => max branch.height (Branch.heights rest)

def Arm.height : Arm → Nat
  | .mk patterns body => max (Node.heights patterns) (Node.heights body) + 1

def Arm.heights : List Arm → Nat
  | [] => 0
  | arm :: rest => max arm.height (Arm.heights rest)

end

/-! ## Induction

A tree holds lists of trees, of branches and of arms.  The principle below has one case for each
kind of node and gives the hypothesis for every node inside it, so a proof about trees names its
cases and never meets the lists' own recursion.
-/

theorem Node.induction {P : Node → Prop}
    (command : ∀ args background, (∀ n ∈ args, P n) → P (.command args background))
    (redirection : ∀ descriptor op target, P target → P (.redirection descriptor op target))
    (subshell : ∀ body, (∀ n ∈ body, P n) → P (.subshell body))
    (group : ∀ body, (∀ n ∈ body, P n) → P (.group body))
    (conditional : ∀ test body elifs otherwise, P test → (∀ n ∈ body, P n) →
      (∀ t b, Branch.mk t b ∈ elifs → P t ∧ ∀ n ∈ b, P n) → (∀ n ∈ otherwise, P n) →
      P (.conditional test body elifs otherwise))
    (whileLoop : ∀ test body, P test → (∀ n ∈ body, P n) → P (.whileLoop test body))
    (forLoop : ∀ name words body, (∀ n ∈ words, P n) → (∀ n ∈ body, P n) →
      P (.forLoop name words body))
    (binary : ∀ op left right, P left → P right → P (.binary op left right))
    (function : ∀ name body, P body → P (.function name body))
    (choice : ∀ subject arms, P subject →
      (∀ ps b, Arm.mk ps b ∈ arms → (∀ n ∈ ps, P n) ∧ ∀ n ∈ b, P n) → P (.choice subject arms))
    (word : ∀ parts, (∀ n ∈ parts, P n) → P (.word parts))
    (literal : ∀ text, P (.literal text))
    (quoted : ∀ parts, (∀ n ∈ parts, P n) → P (.quoted parts))
    (substitution : ∀ body, (∀ n ∈ body, P n) → P (.substitution body))
    (parameter : ∀ short text, P (.parameter short text))
    (arithmetic : ∀ text, P (.arithmetic text)) (n : Node) : P n := by
  refine @Node.rec P (fun branch => ∀ t b, .mk t b = branch → P t ∧ ∀ n ∈ b, P n)
    (fun arm => ∀ ps b, .mk ps b = arm → (∀ n ∈ ps, P n) ∧ ∀ n ∈ b, P n)
    (fun nodes => ∀ n ∈ nodes, P n)
    (fun branches => ∀ t b, Branch.mk t b ∈ branches → P t ∧ ∀ n ∈ b, P n)
    (fun arms => ∀ ps b, Arm.mk ps b ∈ arms → (∀ n ∈ ps, P n) ∧ ∀ n ∈ b, P n)
    command redirection subshell group conditional whileLoop forLoop binary function choice
    word literal quoted substitution parameter arithmetic ?_ ?_ ?_ ?_ ?_ ?_ ?_ ?_ n
  · rintro _ _ ht hb _ _ ⟨rfl, rfl⟩
    exact ⟨ht, hb⟩
  · rintro _ _ hp hb _ _ ⟨rfl, rfl⟩
    exact ⟨hp, hb⟩
  · simp
  · intro node rest hnode hrest n hn
    rcases List.mem_cons.mp hn with rfl | hn
    · exact hnode
    · exact hrest n hn
  · simp
  · intro branch rest hbranch hrest t b hb
    rcases List.mem_cons.mp hb with hb | hb
    · exact hbranch t b hb
    · exact hrest t b hb
  · simp
  · intro arm rest harm hrest ps b hb
    rcases List.mem_cons.mp hb with hb | hb
    · exact harm ps b hb
    · exact hrest ps b hb

theorem Branch.forall_mem_cons {Q : Node → List Node → Prop} {test : Node} {body : List Node}
    {rest : List Branch} :
    (∀ t b, Branch.mk t b ∈ Branch.mk test body :: rest → Q t b) ↔
      Q test body ∧ ∀ t b, Branch.mk t b ∈ rest → Q t b := by
  constructor
  · intro h
    exact ⟨h test body (by simp), fun t b hb => h t b (by simp [hb])⟩
  · rintro ⟨hhead, hrest⟩ t b hb
    rcases List.mem_cons.mp hb with hb | hb
    · cases hb
      exact hhead
    · exact hrest t b hb

theorem Arm.forall_mem_cons {Q : List Node → List Node → Prop} {patterns body : List Node}
    {rest : List Arm} :
    (∀ ps b, Arm.mk ps b ∈ Arm.mk patterns body :: rest → Q ps b) ↔
      Q patterns body ∧ ∀ ps b, Arm.mk ps b ∈ rest → Q ps b := by
  constructor
  · intro h
    exact ⟨h patterns body (by simp), fun ps b hb => h ps b (by simp [hb])⟩
  · rintro ⟨hhead, hrest⟩ ps b hb
    rcases List.mem_cons.mp hb with hb | hb
    · cases hb
      exact hhead
    · exact hrest ps b hb

end Conch.Syntax
