import Conch.Proofs.Tree.Layout
import Conch.Syntax.Grammar

/-!
# The shape of parsed trees

The grammar builds only some trees: a list of statements joins pipelines, a pipeline
joins commands, the body of a construct is not empty, a name is a name.
`Node.Fits` says so for a tree in a place of the grammar and leaves the fragments of
words open.  `Node.nesting` counts the levels that the rendering of a tree needs, and
`Node.mapWords` exchanges the fragments of its words.
-/

namespace Conch.Syntax

/-- The places of the grammar, each wider than the one before. -/
inductive Rank where
  | command | pipeline | list | statement
  deriving DecidableEq, Repr

/-- A word that is not reserved may start a simple command, and so may `in`. -/
def mayStart (text : String) : Bool := (Token.reserved? text).all (fun token => token == .inWord)

namespace Node

def IsWord : Node → Prop
  | .word _ => True
  | _ => False

/-- A word, or a redirection with a descriptor of 32 bits and a word for its target. -/
def IsArgument : Node → Prop
  | .word _ => True
  | .redirection descriptor op target =>
      (∀ n ∈ descriptor, n < descriptorLimit) ∧ op.isRedirection = true ∧ target.IsWord
  | _ => False

/-- The arguments of a simple command. -/
def Arguments (args : List Node) : Prop :=
  args ≠ [] ∧ (∀ n ∈ args, n.IsArgument) ∧
    ∀ parts, args.head? = some (.word parts) → mayStart (Node.render (.word parts)) = true

/-- A command that does nothing. -/
def idle : Node := .command [.word [.literal ":"]] false

end Node

mutual

/-- The grammar can build the tree in a place of the given rank. -/
def Node.Fits : Rank → Node → Prop
  | rank, .command args background =>
      (background = true → rank = .statement) ∧ Node.Arguments args
  | _, .subshell body => body ≠ [] ∧ Node.AllFit body
  | _, .group body => body ≠ [] ∧ Node.AllFit body
  | _, .conditional test body elifs otherwise =>
      test.Fits .statement ∧ (body ≠ [] ∧ Node.AllFit body) ∧ Branch.AllFit elifs ∧
        Node.AllFit otherwise
  | _, .whileLoop test body => test.Fits .statement ∧ body ≠ [] ∧ Node.AllFit body
  | _, .forLoop name words body =>
      isName name = true ∧ (∀ n ∈ words, n.IsWord) ∧ body ≠ [] ∧ Node.AllFit body
  | rank, .binary .pipe left right =>
      rank ≠ .command ∧ left.Fits .pipeline ∧ right.Fits .command
  | rank, .binary op left right =>
      (op = .andAnd ∨ op = .orOr) ∧ (rank = .list ∨ rank = .statement) ∧ left.Fits .list ∧
        right.Fits .pipeline
  | _, .function name body => isName name = true ∧ mayStart name = true ∧ body.Fits .command
  | _, .choice subject arms => subject.IsWord ∧ Arm.AllFit arms
  | _, _ => False

def Node.AllFit : List Node → Prop
  | [] => True
  | node :: rest => node.Fits .statement ∧ Node.AllFit rest

def Branch.AllFit : List Branch → Prop
  | [] => True
  | .mk test body :: rest =>
      (test.Fits .statement ∧ body ≠ [] ∧ Node.AllFit body) ∧ Branch.AllFit rest

def Arm.AllFit : List Arm → Prop
  | [] => True
  | .mk patterns body :: rest =>
      (patterns ≠ [] ∧ (∀ n ∈ patterns, n.IsWord) ∧ Node.AllFit body) ∧ Arm.AllFit rest

end

mutual

/-- How many levels of nesting the rendering of a tree takes. -/
def Node.nesting : Node → Nat
  | .command args _ => Node.nestings args
  | .redirection _ _ target => target.nesting
  | .subshell body => Node.nestings body + 1
  | .group body => Node.nestings body + 1
  | .conditional test body elifs otherwise =>
      max (max test.nesting (Node.nestings body))
        (max (Branch.nestings elifs) (Node.nestings otherwise)) + 1
  | .whileLoop test body => max test.nesting (Node.nestings body) + 1
  | .forLoop _ words body => max (Node.nestings words) (Node.nestings body) + 1
  | .binary _ left right => max left.nesting right.nesting
  | .function _ body => body.nesting + 1
  | .choice subject arms => max subject.nesting (Arm.nestings arms) + 1
  | .word parts => Node.nestings parts
  | .quoted parts => Node.nestings parts
  | .substitution body => Node.nestings body + 1
  | .literal _ => 0
  | .parameter _ _ => 0
  | .arithmetic _ => 0

def Node.nestings : List Node → Nat
  | [] => 0
  | node :: rest => max node.nesting (Node.nestings rest)

def Branch.nestings : List Branch → Nat
  | [] => 0
  | .mk test body :: rest =>
      max (max test.nesting (Node.nestings body)) (Branch.nestings rest)

def Arm.nestings : List Arm → Nat
  | [] => 0
  | .mk patterns body :: rest =>
      max (max (Node.nestings patterns) (Node.nestings body)) (Arm.nestings rest)

end

mutual

/-- The tree with the fragments of its words exchanged; words inside words are left alone. -/
def Node.mapWords (f : List Node → List Node) : Node → Node
  | .command args background => .command (Node.mapAllWords f args) background
  | .redirection descriptor op target => .redirection descriptor op (target.mapWords f)
  | .subshell body => .subshell (Node.mapAllWords f body)
  | .group body => .group (Node.mapAllWords f body)
  | .conditional test body elifs otherwise =>
      .conditional (test.mapWords f) (Node.mapAllWords f body) (Branch.mapAllWords f elifs)
        (Node.mapAllWords f otherwise)
  | .whileLoop test body => .whileLoop (test.mapWords f) (Node.mapAllWords f body)
  | .forLoop name words body => .forLoop name (Node.mapAllWords f words) (Node.mapAllWords f body)
  | .binary op left right => .binary op (left.mapWords f) (right.mapWords f)
  | .function name body => .function name (body.mapWords f)
  | .choice subject arms => .choice (subject.mapWords f) (Arm.mapAllWords f arms)
  | .word parts => .word (f parts)
  | node => node

def Node.mapAllWords (f : List Node → List Node) : List Node → List Node
  | [] => []
  | node :: rest => node.mapWords f :: Node.mapAllWords f rest

def Branch.mapAllWords (f : List Node → List Node) : List Branch → List Branch
  | [] => []
  | .mk test body :: rest =>
      .mk (test.mapWords f) (Node.mapAllWords f body) :: Branch.mapAllWords f rest

def Arm.mapAllWords (f : List Node → List Node) : List Arm → List Arm
  | [] => []
  | .mk patterns body :: rest =>
      .mk (Node.mapAllWords f patterns) (Node.mapAllWords f body) :: Arm.mapAllWords f rest

end

/-! ## The companions for lists -/

section Companions

attribute [local simp] Node.Fits Node.AllFit Branch.AllFit Arm.AllFit Node.nesting Node.nestings
  Branch.nestings Arm.nestings Node.mapAllWords

theorem Node.allFit_iff {nodes : List Node} :
    Node.AllFit nodes ↔ ∀ n ∈ nodes, n.Fits .statement := by
  induction nodes with
  | nil => simp
  | cons node rest ih => simp [ih]

theorem Branch.allFit_iff {branches : List Branch} :
    Branch.AllFit branches ↔ ∀ t b, Branch.mk t b ∈ branches →
      t.Fits .statement ∧ b ≠ [] ∧ Node.AllFit b := by
  induction branches with
  | nil => simp
  | cons branch rest ih =>
      obtain ⟨test, body⟩ := branch
      rw [Branch.AllFit, ih, Branch.forall_mem_cons]

theorem Arm.allFit_iff {arms : List Arm} :
    Arm.AllFit arms ↔ ∀ ps b, Arm.mk ps b ∈ arms →
      ps ≠ [] ∧ (∀ n ∈ ps, n.IsWord) ∧ Node.AllFit b := by
  induction arms with
  | nil => simp
  | cons arm rest ih =>
      obtain ⟨patterns, body⟩ := arm
      rw [Arm.AllFit, ih, Arm.forall_mem_cons]

theorem Node.nestings_le_iff {nodes : List Node} {room : Nat} :
    Node.nestings nodes ≤ room ↔ ∀ n ∈ nodes, n.nesting ≤ room := by
  induction nodes with
  | nil => simp
  | cons node rest ih => rw [Node.nestings, Nat.max_le, ih, List.forall_mem_cons]

theorem Branch.nestings_le_iff {branches : List Branch} {room : Nat} :
    Branch.nestings branches ≤ room ↔ ∀ t b, Branch.mk t b ∈ branches →
      t.nesting ≤ room ∧ Node.nestings b ≤ room := by
  induction branches with
  | nil => simp
  | cons branch rest ih =>
      obtain ⟨test, body⟩ := branch
      rw [Branch.nestings, Nat.max_le, Nat.max_le, ih, Branch.forall_mem_cons]

theorem Arm.nestings_le_iff {arms : List Arm} {room : Nat} :
    Arm.nestings arms ≤ room ↔ ∀ ps b, Arm.mk ps b ∈ arms →
      Node.nestings ps ≤ room ∧ Node.nestings b ≤ room := by
  induction arms with
  | nil => simp
  | cons arm rest ih =>
      obtain ⟨patterns, body⟩ := arm
      rw [Arm.nestings, Nat.max_le, Nat.max_le, ih, Arm.forall_mem_cons]

@[simp] theorem Node.mapAllWords_eq (f : List Node → List Node) (nodes : List Node) :
    Node.mapAllWords f nodes = nodes.map (Node.mapWords f) := by
  induction nodes with
  | nil => rfl
  | cons node rest ih => simp [ih]

end Companions

/-! ## Words that stay the same -/

section Identity

attribute [local simp] Node.mapWords Branch.mapAllWords Arm.mapAllWords

theorem Node.mapAllWords_id {nodes : List Node} (h : ∀ n ∈ nodes, n.mapWords id = n) :
    nodes.map (Node.mapWords id) = nodes :=
  (List.map_congr_left h).trans (List.map_id' nodes)

theorem Branch.mapAllWords_id {branches : List Branch}
    (h : ∀ t b, Branch.mk t b ∈ branches → t.mapWords id = t ∧ ∀ n ∈ b, n.mapWords id = n) :
    Branch.mapAllWords id branches = branches := by
  induction branches with
  | nil => rfl
  | cons branch rest ih =>
      obtain ⟨test, body⟩ := branch
      obtain ⟨htest, hbody⟩ := h test body (by simp)
      simp [htest, Node.mapAllWords_id hbody, ih (fun t b hb => h t b (by simp [hb]))]

theorem Arm.mapAllWords_id {arms : List Arm}
    (h : ∀ ps b, Arm.mk ps b ∈ arms →
      (∀ n ∈ ps, n.mapWords id = n) ∧ ∀ n ∈ b, n.mapWords id = n) :
    Arm.mapAllWords id arms = arms := by
  induction arms with
  | nil => rfl
  | cons arm rest ih =>
      obtain ⟨patterns, body⟩ := arm
      obtain ⟨hpatterns, hbody⟩ := h patterns body (by simp)
      simp [Node.mapAllWords_id hpatterns, Node.mapAllWords_id hbody,
        ih (fun ps b hb => h ps b (by simp [hb]))]

@[simp] theorem Node.mapWords_id (n : Node) : n.mapWords id = n := by
  induction n using Node.induction with
  | conditional test body elifs otherwise htest hbody helifs hotherwise =>
      simp [htest, Node.mapAllWords_id hbody, Branch.mapAllWords_id helifs,
        Node.mapAllWords_id hotherwise]
  | choice subject arms hsubject harms => simp [hsubject, Arm.mapAllWords_id harms]
  | command args background ih => simp [Node.mapAllWords_id ih]
  | redirection descriptor op target ih => simp [ih]
  | subshell body ih => simp [Node.mapAllWords_id ih]
  | group body ih => simp [Node.mapAllWords_id ih]
  | whileLoop test body htest hbody => simp [htest, Node.mapAllWords_id hbody]
  | forLoop name words body hwords hbody =>
      simp [Node.mapAllWords_id hwords, Node.mapAllWords_id hbody]
  | binary op left right hleft hright => simp [hleft, hright]
  | function name body ih => simp [ih]
  | _ => rfl

end Identity

end Conch.Syntax
