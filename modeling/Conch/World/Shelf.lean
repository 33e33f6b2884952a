import Std.Data.TreeMap

/-!
# Shelves

Things by number.  A new one gets the next number, and none is ever taken away, so a
number keeps its meaning.
-/

namespace Conch

universe u

structure Shelf (α : Type u) where
  items : Std.TreeMap Nat α
  /-- The number of the next one. -/
  next : Nat

namespace Shelf

variable {α : Type u}

def empty : Shelf α := ⟨∅, 0⟩

instance : Inhabited (Shelf α) := ⟨empty⟩

def get? (shelf : Shelf α) (id : Nat) : Option α := shelf.items[id]?

/-- Puts one more thing there and gives its number. -/
def push (shelf : Shelf α) (a : α) : Nat × Shelf α :=
  (shelf.next, ⟨shelf.items.insert shelf.next a, shelf.next + 1⟩)

/-- Replaces what has a number. -/
def set (shelf : Shelf α) (id : Nat) (a : α) : Shelf α :=
  { shelf with items := shelf.items.insert id a }

/-- How many things satisfy the condition. -/
def countP (shelf : Shelf α) (p : α → Bool) : Nat :=
  shelf.items.foldl (fun n _ a => if p a then n + 1 else n) 0

@[simp] theorem get?_push (shelf : Shelf α) (a : α) :
    (shelf.push a).2.get? (shelf.push a).1 = some a := by
  simp [get?, push]

theorem get?_push_of_ne (shelf : Shelf α) (a : α) {id : Nat} (h : id ≠ shelf.next) :
    (shelf.push a).2.get? id = shelf.get? id := by
  simp [get?, push, Std.TreeMap.getElem?_insert, h.symm]

@[simp] theorem get?_set (shelf : Shelf α) (id : Nat) (a : α) :
    (shelf.set id a).get? id = some a := by
  simp [get?, set]

theorem get?_set_of_ne (shelf : Shelf α) (a : α) {id other : Nat} (h : other ≠ id) :
    (shelf.set id a).get? other = shelf.get? other := by
  simp [get?, set, Std.TreeMap.getElem?_insert, h.symm]

end Shelf

end Conch
