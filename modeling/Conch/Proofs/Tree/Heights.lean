import Conch.Syntax.Node

/-!
# Heights of the parts of a tree

A list of trees is as high as the highest of them.  Operators lean to the left, so a chain of
them makes a high tree; its descent is the height with the step from an operator to its
left operand counting as much as it is said to.  With nothing for that step a chain of
operators goes down no further than its operands do.
-/

namespace Conch.Syntax

theorem Node.height_pos (n : Node) : 0 < n.height := by
  cases n <;> simp [Node.height, textHeight]

theorem Node.height_le {nodes : List Node} {n : Node} (h : n ∈ nodes) :
    n.height ≤ Node.heights nodes := by
  induction nodes with
  | nil => cases h
  | cons first nodes ih =>
      rw [Node.heights]
      rcases List.mem_cons.mp h with rfl | h
      · exact Nat.le_max_left ..
      · exact Nat.le_trans (ih h) (Nat.le_max_right ..)

theorem Node.heights_le {nodes : List Node} {bound : Nat} (h : ∀ n ∈ nodes, n.height ≤ bound) :
    Node.heights nodes ≤ bound := by
  induction nodes with
  | nil => exact Nat.zero_le _
  | cons first nodes ih =>
      rw [Node.heights]
      obtain ⟨hfirst, hrest⟩ := List.forall_mem_cons.mp h
      exact Nat.max_le.mpr ⟨hfirst, ih hrest⟩

theorem Branch.height_le {branches : List Branch} {test : Node} {body : List Node}
    (h : .mk test body ∈ branches) :
    max test.height (Node.heights body) ≤ Branch.heights branches := by
  induction branches with
  | nil => cases h
  | cons first branches ih =>
      rw [Branch.heights]
      rcases List.mem_cons.mp h with rfl | h
      · rw [Branch.height]
        omega
      · exact Nat.le_trans (ih h) (Nat.le_max_right ..)

theorem Branch.heights_le {branches : List Branch} {bound : Nat}
    (h : ∀ branch ∈ branches, branch.height ≤ bound) : Branch.heights branches ≤ bound := by
  induction branches with
  | nil => exact Nat.zero_le _
  | cons first branches ih =>
      rw [Branch.heights]
      obtain ⟨hfirst, hrest⟩ := List.forall_mem_cons.mp h
      exact Nat.max_le.mpr ⟨hfirst, ih hrest⟩

theorem Arm.height_le {arms : List Arm} {patterns body : List Node}
    (h : .mk patterns body ∈ arms) :
    max (Node.heights patterns) (Node.heights body) ≤ Arm.heights arms := by
  induction arms with
  | nil => cases h
  | cons first arms ih =>
      rw [Arm.heights]
      rcases List.mem_cons.mp h with rfl | h
      · rw [Arm.height]
        omega
      · exact Nat.le_trans (ih h) (Nat.le_max_right ..)

theorem Arm.heights_le {arms : List Arm} {bound : Nat} (h : ∀ arm ∈ arms, arm.height ≤ bound) :
    Arm.heights arms ≤ bound := by
  induction arms with
  | nil => exact Nat.zero_le _
  | cons first arms ih =>
      rw [Arm.heights]
      obtain ⟨hfirst, hrest⟩ := List.forall_mem_cons.mp h
      exact Nat.max_le.mpr ⟨hfirst, ih hrest⟩

theorem Node.heights_fragments (word : Node) : Node.heights word.fragments ≤ word.height := by
  cases word with
  | word parts => exact Nat.le_succ _
  | _ => simp [Node.fragments, Node.heights]

/-! ## Ways down a tree -/

mutual

/-- The nodes on the longest way down, an operator counting `left` above its left operand. -/
def Node.descent (left : Nat) : Node → Nat
  | .command args _ => Node.descents left args + 1
  | .redirection _ _ target => target.descent left + 1
  | .subshell body => Node.descents left body + 1
  | .group body => Node.descents left body + 1
  | .conditional test body elifs otherwise =>
      max (max (test.descent left) (Node.descents left body))
        (max (Branch.descents left elifs) (Node.descents left otherwise)) + 1
  | .whileLoop test body => max (test.descent left) (Node.descents left body) + 1
  | .forLoop _ words body => max (Node.descents left words) (Node.descents left body) + 1
  | .binary _ first second => max (first.descent left + left) (second.descent left + 1)
  | .function _ body => body.descent left + 1
  | .choice subject arms => max (subject.descent left) (Arm.descents left arms) + 1
  | .word parts => Node.descents left parts + 1
  | .literal _ => 1
  | .quoted parts => Node.descents left parts + 1
  | .substitution body => Node.descents left body + 1
  | .parameter _ _ => 1
  | .arithmetic _ => 1

def Node.descents (left : Nat) : List Node → Nat
  | [] => 0
  | node :: rest => max (node.descent left) (Node.descents left rest)

def Branch.descent (left : Nat) : Branch → Nat
  | .mk test body => max (test.descent left) (Node.descents left body) + 1

def Branch.descents (left : Nat) : List Branch → Nat
  | [] => 0
  | branch :: rest => max (branch.descent left) (Branch.descents left rest)

def Arm.descent (left : Nat) : Arm → Nat
  | .mk patterns body => max (Node.descents left patterns) (Node.descents left body) + 1

def Arm.descents (left : Nat) : List Arm → Nat
  | [] => 0
  | arm :: rest => max (arm.descent left) (Arm.descents left rest)

end

section

variable {left bound : Nat}

/-- Only the left operands of an operator are counted otherwise than by one more. -/
theorem Node.descent_binary_le {op : Token} {first second : Node}
    (hfirst : first.descent left + left ≤ bound) (hsecond : second.descent left + 1 ≤ bound) :
    (Node.binary op first second).descent left ≤ bound := by
  rw [Node.descent]
  exact Nat.max_le.mpr ⟨hfirst, hsecond⟩

theorem Node.descents_le {nodes : List Node} (h : ∀ n ∈ nodes, n.descent left ≤ bound) :
    Node.descents left nodes ≤ bound := by
  induction nodes with
  | nil => exact Nat.zero_le _
  | cons first nodes ih =>
      rw [Node.descents]
      obtain ⟨hfirst, hrest⟩ := List.forall_mem_cons.mp h
      exact Nat.max_le.mpr ⟨hfirst, ih hrest⟩

theorem Branch.descents_le {branches : List Branch}
    (h : ∀ branch ∈ branches, branch.descent left ≤ bound) :
    Branch.descents left branches ≤ bound := by
  induction branches with
  | nil => exact Nat.zero_le _
  | cons first branches ih =>
      rw [Branch.descents]
      obtain ⟨hfirst, hrest⟩ := List.forall_mem_cons.mp h
      exact Nat.max_le.mpr ⟨hfirst, ih hrest⟩

theorem Arm.descents_le {arms : List Arm} (h : ∀ arm ∈ arms, arm.descent left ≤ bound) :
    Arm.descents left arms ≤ bound := by
  induction arms with
  | nil => exact Nat.zero_le _
  | cons first arms ih =>
      rw [Arm.descents]
      obtain ⟨hfirst, hrest⟩ := List.forall_mem_cons.mp h
      exact Nat.max_le.mpr ⟨hfirst, ih hrest⟩

end

end Conch.Syntax
