import Conch.Proofs.Tree.Layout

/-!
# The words of a layout

What holds of every word in the layout of a tree holds of the words in the layouts of
the trees inside it.  `Piece.ForWords` states such a property; the lemmas below take it
apart along the constructs.
-/

namespace Conch.Syntax.Piece

/-- The property holds of every word among the pieces, given whether it opens an arm. -/
def ForWords (P : Bool → Node → Prop) (pieces : List Piece) : Prop :=
  ∀ opensArm n, word opensArm n ∈ pieces → P opensArm n

variable {P Q : Bool → Node → Prop}

theorem ForWords.mono {pieces : List Piece} (h : ForWords P pieces)
    (hPQ : ∀ opensArm n, P opensArm n → Q opensArm n) : ForWords Q pieces :=
  fun opensArm n hn => hPQ opensArm n (h opensArm n hn)

@[simp] theorem forWords_nil : ForWords P [] := fun _ _ h => absurd h (by simp)

theorem forWords_cons (piece : Piece) (pieces : List Piece) :
    ForWords P (piece :: pieces) ↔
      (∀ opensArm n, piece = word opensArm n → P opensArm n) ∧ ForWords P pieces := by
  constructor
  · intro h
    exact ⟨fun opensArm n hn => h opensArm n (by simp [hn]),
      fun opensArm n hn => h opensArm n (by simp [hn])⟩
  · rintro ⟨hpiece, hpieces⟩ opensArm n hn
    rcases List.mem_cons.mp hn with hn | hn
    · exact hpiece opensArm n hn.symm
    · exact hpieces opensArm n hn

@[simp] theorem forWords_append (first second : List Piece) :
    ForWords P (first ++ second) ↔ ForWords P first ∧ ForWords P second := by
  induction first with
  | nil => simp
  | cons piece rest ih => rw [List.cons_append, forWords_cons, forWords_cons, ih, and_assoc]

@[simp] theorem forWords_blank (pieces : List Piece) :
    ForWords P (blank :: pieces) ↔ ForWords P pieces := by simp [forWords_cons]

@[simp] theorem forWords_mark (token : Token) (pieces : List Piece) :
    ForWords P (mark token :: pieces) ↔ ForWords P pieces := by simp [forWords_cons]

@[simp] theorem forWords_number (value : Nat) (pieces : List Piece) :
    ForWords P (number value :: pieces) ↔ ForWords P pieces := by simp [forWords_cons]

@[simp] theorem forWords_name (text : String) (pieces : List Piece) :
    ForWords P (name text :: pieces) ↔ ForWords P pieces := by simp [forWords_cons]

@[simp] theorem forWords_word (opensArm : Bool) (n : Node) (pieces : List Piece) :
    ForWords P (word opensArm n :: pieces) ↔ P opensArm n ∧ ForWords P pieces := by
  rw [forWords_cons]
  constructor
  · rintro ⟨h, hpieces⟩
    exact ⟨h opensArm n rfl, hpieces⟩
  · rintro ⟨h, hpieces⟩
    refine ⟨?_, hpieces⟩
    rintro _ _ ⟨rfl, rfl⟩
    exact h

@[simp] theorem forWords_separator : ForWords P separator := by simp [separator]

theorem forWords_layoutMore {between : List Piece} (hbetween : ForWords P between)
    {nodes : List Node} :
    ForWords P (Node.layoutMore between nodes) ↔ ∀ n ∈ nodes, ForWords P n.layout := by
  induction nodes with
  | nil => simp [Node.layoutMore]
  | cons node rest ih => simp [Node.layoutMore, hbetween, ih]

theorem forWords_layouts {between : List Piece} (hbetween : ForWords P between)
    {nodes : List Node} :
    ForWords P (Node.layouts between nodes) ↔ ∀ n ∈ nodes, ForWords P n.layout := by
  cases nodes with
  | nil => simp [Node.layouts]
  | cons node rest => simp [Node.layouts, forWords_layoutMore hbetween]

@[simp] theorem forWords_list (nodes : List Node) :
    ForWords P (Node.layouts separator nodes) ↔ ∀ n ∈ nodes, ForWords P n.layout :=
  forWords_layouts forWords_separator

@[simp] theorem forWords_blanked (nodes : List Node) :
    ForWords P (Node.layouts [blank] nodes) ↔ ∀ n ∈ nodes, ForWords P n.layout :=
  forWords_layouts (by simp)

/-! ## Along the constructs -/

theorem forWords_command (args : List Node) (background : Bool) :
    ForWords P (Node.command args background).layout ↔ ∀ n ∈ args, ForWords P n.layout := by
  cases background <;> simp [Node.layout]

theorem forWords_redirection (descriptor : Option Nat) (op : Token) (target : Node) :
    ForWords P (Node.redirection descriptor op target).layout ↔ ForWords P target.layout := by
  cases descriptor <;> simp [Node.layout]

theorem forWords_subshell (body : List Node) :
    ForWords P (Node.subshell body).layout ↔ ∀ n ∈ body, ForWords P n.layout := by
  simp [Node.layout]

theorem forWords_group (body : List Node) :
    ForWords P (Node.group body).layout ↔ ∀ n ∈ body, ForWords P n.layout := by
  simp [Node.layout]

theorem forWords_branches (branches : List Branch) :
    ForWords P (Branch.layouts branches) ↔ ∀ t b, Branch.mk t b ∈ branches →
      ForWords P t.layout ∧ ∀ n ∈ b, ForWords P n.layout := by
  induction branches with
  | nil => simp [Branch.layouts]
  | cons branch rest ih =>
      obtain ⟨test, body⟩ := branch
      rw [Branch.forall_mem_cons]
      simp [Branch.layouts, Branch.layout, ih, and_assoc]

theorem forWords_conditional (test : Node) (body : List Node) (elifs : List Branch)
    (otherwise : List Node) :
    ForWords P (Node.conditional test body elifs otherwise).layout ↔
      ForWords P test.layout ∧ (∀ n ∈ body, ForWords P n.layout) ∧
        (∀ t b, Branch.mk t b ∈ elifs → ForWords P t.layout ∧ ∀ n ∈ b, ForWords P n.layout) ∧
        ∀ n ∈ otherwise, ForWords P n.layout := by
  rw [← forWords_branches]
  cases otherwise with
  | nil => simp [Node.layout]
  | cons statement rest => simp [Node.layout, forWords_layoutMore forWords_separator]

theorem forWords_whileLoop (test : Node) (body : List Node) :
    ForWords P (Node.whileLoop test body).layout ↔
      ForWords P test.layout ∧ ∀ n ∈ body, ForWords P n.layout := by
  simp [Node.layout]

theorem forWords_forLoop (variableName : String) (words body : List Node) :
    ForWords P (Node.forLoop variableName words body).layout ↔
      (∀ n ∈ words, ForWords P n.layout) ∧ ∀ n ∈ body, ForWords P n.layout := by
  simp [Node.layout]

theorem forWords_binary (op : Token) (left right : Node) :
    ForWords P (Node.binary op left right).layout ↔
      ForWords P left.layout ∧ ForWords P right.layout := by
  simp [Node.layout]

theorem forWords_function (functionName : String) (body : Node) :
    ForWords P (Node.function functionName body).layout ↔ ForWords P body.layout := by
  simp [Node.layout]

/-- The property holds of the patterns of an arm. -/
def ForPatterns (P : Bool → Node → Prop) : List Node → Prop
  | [] => True
  | first :: others => P true first ∧ ∀ n ∈ others, ForWords P n.layout

theorem forWords_arm (patterns body : List Node) :
    ForWords P (Arm.mk patterns body).layout ↔
      ForPatterns P patterns ∧ ∀ n ∈ body, ForWords P n.layout := by
  cases patterns with
  | nil => simp [Arm.layout, ForPatterns]
  | cons first others =>
      have hpipe : ForWords P [blank, mark .pipe, blank] := by simp
      simp [Arm.layout, ForPatterns, forWords_layoutMore hpipe, and_assoc]

theorem forWords_armMore (arms : List Arm) :
    ForWords P (Arm.layoutMore arms) ↔ ∀ ps b, Arm.mk ps b ∈ arms →
      ForPatterns P ps ∧ ∀ n ∈ b, ForWords P n.layout := by
  induction arms with
  | nil => simp [Arm.layoutMore]
  | cons arm rest ih =>
      obtain ⟨patterns, body⟩ := arm
      rw [Arm.forall_mem_cons]
      simp [Arm.layoutMore, forWords_arm, ih]

theorem forWords_choice (subject : Node) (arms : List Arm) :
    ForWords P (Node.choice subject arms).layout ↔
      ForWords P subject.layout ∧ ∀ ps b, Arm.mk ps b ∈ arms →
        ForPatterns P ps ∧ ∀ n ∈ b, ForWords P n.layout := by
  rw [← forWords_armMore]
  cases arms with
  | nil => simp [Node.layout, Arm.layouts, Arm.layoutMore]
  | cons arm rest => simp [Node.layout, Arm.layouts, Arm.layoutMore]

end Conch.Syntax.Piece
