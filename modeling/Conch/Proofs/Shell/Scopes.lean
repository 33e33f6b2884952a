import Conch.Proofs.Shell.Expansions
import Conch.Proofs.Tree.Heights
import Conch.Shell.Execution

/-!
# Scopes

A statement gives back what it set up: the streams, the depths of loops and calls, and
the parameters, which it may only shift.  Control flow that leaves it belongs to a
construct around it.  For `break` and `continue` this is so as long as the test of a
loop is not left by them: a loop takes a level off what leaves its body, but not off
what leaves its test.

The statements below are told with three settings.  If the levels are not `counted`,
nothing is asked of the statements and nothing is said of the number of levels.  If
they are, only the given functions may be defined, and tests have to be calm: they
never end in `break` or `continue`.
-/

namespace Conch

open Syntax (Node Branch Arm)

/-! ## Calm statements -/

/-- The text stands for itself as the name of a command. -/
def isBare (text : String) : Bool :=
  !text.isEmpty && text.toList.all fun c => !(['\'', '\\', '~', '*', '?', '['].contains c)

/-- The name of the command is written out, and it leaves no loop and calls none of the
functions. -/
def CommandParts.isCalm (functions : List String) (command : CommandParts) : Bool :=
  match command.words with
  | [] => true
  | .word [.literal text] :: _ =>
      isBare text && !functions.contains text && text != "break" && text != "continue"
  | _ => false

namespace Syntax

section

variable (functions : List String)

mutual

/-- The statement defines only the given functions, and the tests of its loops are calm.  A calm
statement is itself never left by `break` or `continue`.  What runs on a copy of the shell is
left out. -/
def Node.isOrderly (isCalm : Bool) : Node → Bool
  | .command args background =>
      background || !isCalm || (CommandParts.ofArgs args).isCalm functions
  | .group body => Node.areOrderly isCalm body
  | .conditional test body elifs otherwise =>
      test.isOrderly isCalm && Node.areOrderly isCalm body && Branch.areOrderly isCalm elifs &&
        Node.areOrderly isCalm otherwise
  | .whileLoop test body => test.isOrderly true && Node.areOrderly isCalm body
  | .forLoop _ _ body => Node.areOrderly isCalm body
  | .binary op left right => op == .pipe || (left.isOrderly isCalm && right.isOrderly isCalm)
  | .function name body => functions.contains name && body.isOrderly false
  | .choice _ arms => Arm.areOrderly isCalm arms
  | _ => true

def Node.areOrderly (isCalm : Bool) : List Node → Bool
  | [] => true
  | node :: rest => node.isOrderly isCalm && Node.areOrderly isCalm rest

def Branch.areOrderly (isCalm : Bool) : List Branch → Bool
  | [] => true
  | branch :: rest => branch.isOrderly isCalm && Branch.areOrderly isCalm rest

def Branch.isOrderly (isCalm : Bool) : Branch → Bool
  | .mk test body => test.isOrderly isCalm && Node.areOrderly isCalm body

def Arm.areOrderly (isCalm : Bool) : List Arm → Bool
  | [] => true
  | arm :: rest => arm.isOrderly isCalm && Arm.areOrderly isCalm rest

def Arm.isOrderly (isCalm : Bool) : Arm → Bool
  | .mk _ body => Node.areOrderly isCalm body

end

end

section Parts

attribute [local simp] Node.isOrderly Node.areOrderly Branch.areOrderly Branch.isOrderly
  Arm.areOrderly Arm.isOrderly Node.height Node.heights Branch.height Branch.heights Arm.height
  Arm.heights

/-- The statement is of this height at most, and orderly if the levels are counted. -/
structure Suits (counted : Prop) (functions : List String) (height : Nat) (isCalm : Bool)
    (node : Node) : Prop where
  low : node.height ≤ height
  orderly : counted → node.isOrderly functions isCalm = true

variable {functions : List String} {isCalm : Bool}

theorem Node.areOrderly_iff {nodes : List Node} :
    Node.areOrderly functions isCalm nodes = true ↔
      ∀ n ∈ nodes, n.isOrderly functions isCalm = true := by
  induction nodes with
  | nil => simp
  | cons first nodes ih => simp [ih]

theorem Branch.areOrderly_iff {branches : List Branch} :
    Branch.areOrderly functions isCalm branches = true ↔
      ∀ test body, .mk test body ∈ branches →
        test.isOrderly functions isCalm = true ∧
          Node.areOrderly functions isCalm body = true := by
  induction branches with
  | nil => simp
  | cons first branches ih =>
      cases first
      rw [Branch.forall_mem_cons, ← ih]
      simp

theorem Arm.areOrderly_iff {arms : List Arm} :
    Arm.areOrderly functions isCalm arms = true ↔
      ∀ patterns body, .mk patterns body ∈ arms →
        Node.areOrderly functions isCalm body = true := by
  induction arms with
  | nil => simp
  | cons first arms ih =>
      cases first
      rw [Arm.forall_mem_cons, ← ih]
      simp

namespace Suits

variable {counted : Prop} {height : Nat}

theorem all {nodes : List Node} (hlow : Node.heights nodes ≤ height)
    (horderly : counted → Node.areOrderly functions isCalm nodes = true) :
    ∀ n ∈ nodes, Suits counted functions height isCalm n :=
  fun n hn => ⟨Nat.le_trans (Node.height_le hn) hlow,
    fun hcounted => Node.areOrderly_iff.mp (horderly hcounted) n hn⟩

theorem group {body : List Node} (h : Suits counted functions (height + 1) isCalm (.group body)) :
    ∀ n ∈ body, Suits counted functions height isCalm n :=
  all (by simpa using h.low) (by simpa using h.orderly)

theorem conditional {test : Node} {body otherwise : List Node} {elifs : List Branch}
    (h : Suits counted functions (height + 1) isCalm (.conditional test body elifs otherwise)) :
    (∀ t b, Branch.mk t b ∈ Branch.mk test body :: elifs →
      Suits counted functions height isCalm t ∧ ∀ n ∈ b, Suits counted functions height isCalm n) ∧
      ∀ n ∈ otherwise, Suits counted functions height isCalm n := by
  obtain ⟨hlow, horderly⟩ := h
  simp only [Node.height, Node.isOrderly, Bool.and_eq_true] at hlow horderly
  refine ⟨Branch.forall_mem_cons.mpr ⟨⟨⟨by omega, fun hc => (horderly hc).1.1.1⟩,
    all (by omega) fun hc => (horderly hc).1.1.2⟩, fun t b hb => ?_⟩,
    all (by omega) fun hc => (horderly hc).2⟩
  have hheight := Branch.height_le hb
  have hbranch := fun hc => Branch.areOrderly_iff.mp (horderly hc).1.2 t b hb
  exact ⟨⟨by omega, fun hc => (hbranch hc).1⟩, all (by omega) fun hc => (hbranch hc).2⟩

theorem whileLoop {test : Node} {body : List Node}
    (h : Suits counted functions (height + 1) isCalm (.whileLoop test body)) :
    Suits counted functions height true test ∧
      ∀ n ∈ body, Suits counted functions height isCalm n := by
  obtain ⟨hlow, horderly⟩ := h
  simp only [Node.height, Node.isOrderly, Bool.and_eq_true] at hlow horderly
  exact ⟨⟨by omega, fun hc => (horderly hc).1⟩, all (by omega) fun hc => (horderly hc).2⟩

theorem forLoop {name : String} {words body : List Node}
    (h : Suits counted functions (height + 1) isCalm (.forLoop name words body)) :
    ∀ n ∈ body, Suits counted functions height isCalm n := by
  obtain ⟨hlow, horderly⟩ := h
  simp only [Node.height, Node.isOrderly] at hlow horderly
  exact all (by omega) horderly

theorem binary {op : Token} {left right : Node}
    (h : Suits counted functions (height + 1) isCalm (.binary op left right)) (hop : op ≠ .pipe) :
    Suits counted functions height isCalm left ∧ Suits counted functions height isCalm right := by
  obtain ⟨hlow, horderly⟩ := h
  simp only [Node.height, Node.isOrderly, Bool.or_eq_true, Bool.and_eq_true, beq_iff_eq, hop,
    false_or] at hlow horderly
  exact ⟨⟨by omega, fun hc => (horderly hc).1⟩, ⟨by omega, fun hc => (horderly hc).2⟩⟩

theorem choice {subject : Node} {arms : List Arm}
    (h : Suits counted functions (height + 1) isCalm (.choice subject arms)) :
    ∀ ps b, Arm.mk ps b ∈ arms → ∀ n ∈ b, Suits counted functions height isCalm n := by
  obtain ⟨hlow, horderly⟩ := h
  simp only [Node.height, Node.isOrderly] at hlow horderly
  intro ps b hb
  have hheight := Arm.height_le hb
  exact all (by omega) fun hc => Arm.areOrderly_iff.mp (horderly hc) ps b hb

theorem function {name : String} {body : Node}
    (h : Suits counted functions (height + 1) isCalm (.function name body)) (hcounted : counted) :
    name ∈ functions ∧ body.isOrderly functions false = true := by
  simpa using h.orderly hcounted

theorem command {args : List Node} {background : Bool}
    (h : Suits counted functions (height + 1) isCalm (.command args background)) :
    Node.heights args ≤ height ∧ (counted → isCalm = true → background = false →
      (CommandParts.ofArgs args).isCalm functions = true) := by
  obtain ⟨hlow, horderly⟩ := h
  refine ⟨by simpa using hlow, fun hcounted hcalm hbackground => ?_⟩
  simpa [hcalm, hbackground] using horderly hcounted

end Suits

end Parts

end Syntax

namespace State

/-- Only the given functions are defined, and their bodies are orderly. -/
def Orderly (functions : List String) (state : State) : Prop :=
  ∀ name body, state.functions.get? name = some body →
    name ∈ functions ∧ body.isOrderly functions false = true

/-- The scopes that were entered were left again. -/
structure Scope (counted : Prop) (functions : List String) (state final : State) : Prop where
  loopDepth : final.loopDepth = state.loopDepth
  callDepth : final.callDepth = state.callDepth
  positional : final.positional <:+ state.positional
  orderly : (counted → state.Orderly functions) → counted → final.Orderly functions

/-- Which control flow may leave a statement: as many levels as there are loops around it, apart
from those inside which the levels are not taken off yet. -/
def Allows (counted : Prop) (isCalm : Bool) (inside : Nat) (state : State) : Interruption → Prop
  | .breakLoops levels | .continueLoop levels =>
      0 < levels ∧ (counted → isCalm = false ∧ levels + inside ≤ state.loopDepth)
  | .leaveFunction _ => 0 < state.callDepth
  | _ => True

section

variable {counted : Prop} {functions : List String} {state next final : State}

theorem Frame.scope (h : state.Frame final) : state.Scope counted functions final where
  loopDepth := h.loopDepth
  callDepth := h.callDepth
  positional := by simp [h.positional]
  orderly horderly hcounted name body hbody := by
    rw [h.functions] at hbody
    exact horderly hcounted name body hbody

theorem Scope.trans (h : state.Scope counted functions next)
    (h' : next.Scope counted functions final) : state.Scope counted functions final where
  loopDepth := h'.loopDepth.trans h.loopDepth
  callDepth := h'.callDepth.trans h.callDepth
  positional := h'.positional.trans h.positional
  orderly horderly := h'.orderly (h.orderly horderly)

theorem Scope.allows {isCalm : Bool} {inside : Nat} {interruption : Interruption}
    (h : state.Scope counted functions next) (hallows : next.Allows counted isCalm inside interruption) :
    state.Allows counted isCalm inside interruption := by
  cases interruption with
  | breakLoops levels => rwa [Allows, ← h.loopDepth]
  | continueLoop levels => rwa [Allows, ← h.loopDepth]
  | leaveFunction status => rwa [Allows, ← h.callDepth]
  | _ => trivial

end

end State

namespace Contract

/-- Gives back its scopes. -/
def tidy (counted : Prop) (functions : List String) (isCalm : Bool) (inside : Nat) : Contract where
  ready shell := counted → shell.state.Orderly functions
  keeps shell final := final.streams = shell.streams ∧ final.limits = shell.limits ∧
    shell.state.Scope counted functions final.state
  allows shell := shell.state.Allows counted isCalm inside
  refl shell := ⟨rfl, rfl, (State.Frame.refl shell.state).scope⟩
  trans h h' := ⟨h'.1.trans h.1, h'.2.1.trans h.2.1, h.2.2.trans h'.2.2⟩
  stays h := h.2.2.orderly
  inherits h := h.2.2.allows

/-- The same, where the failures of single commands were reported. -/
def reported (contract : Contract) : Contract :=
  { contract with
    allows := fun shell interruption =>
      contract.allows shell interruption ∧ interruption.isLocal = false
    inherits := fun h hallows => ⟨contract.inherits h hallows.1, hallows.2⟩ }

section

variable {counted : Prop} {functions : List String} {isCalm : Bool} {inside : Nat}

theorem quiet_implies : quiet.Implies (tidy counted functions isCalm inside) where
  ready _ _ := trivial
  keeps _ _ h := ⟨h.streams, h.limits, h.state.scope⟩
  allows shell interruption h := by
    cases interruption with
    | breakLoops levels => cases h
    | continueLoop levels => cases h
    | leaveFunction status => cases h
    | _ => trivial

theorem reported_implies (contract : Contract) : contract.reported.Implies contract where
  ready _ h := h
  keeps _ _ h := h
  allows _ _ h := h.1

end

end Contract

end Conch
