/-!
# Named values

A finite map from names to values.  An entry keeps its place when its value
changes, and a new name goes to the end, so the order of the entries is the order
in which the names were first bound.
-/

namespace Conch

structure Bindings (α : Type) where
  entries : List (String × α)
  deriving Repr, BEq, DecidableEq, Inhabited

namespace Bindings

variable {α : Type}

def empty : Bindings α := ⟨[]⟩

instance : EmptyCollection (Bindings α) := ⟨empty⟩

def get? (bindings : Bindings α) (name : String) : Option α := bindings.entries.lookup name

def contains (bindings : Bindings α) (name : String) : Bool := (bindings.get? name).isSome

def insertInto (name : String) (value : α) : List (String × α) → List (String × α)
  | [] => [(name, value)]
  | entry :: rest =>
      if entry.1 = name then (name, value) :: rest else entry :: insertInto name value rest

def insert (bindings : Bindings α) (name : String) (value : α) : Bindings α :=
  ⟨insertInto name value bindings.entries⟩

def erase (bindings : Bindings α) (name : String) : Bindings α :=
  ⟨bindings.entries.filter (fun entry => entry.1 ≠ name)⟩

/-- Binds the name, or unbinds it when there is no value. -/
def set (bindings : Bindings α) (name : String) : Option α → Bindings α
  | some value => bindings.insert name value
  | none => bindings.erase name

def ofList (entries : List (String × α)) : Bindings α :=
  entries.foldl (fun bindings entry => bindings.insert entry.1 entry.2) empty

def names (bindings : Bindings α) : List String := bindings.entries.map Prod.fst

@[simp] theorem get?_empty (name : String) : (empty : Bindings α).get? name = none := rfl

theorem lookup_insertInto_self (name : String) (value : α) (entries : List (String × α)) :
    (insertInto name value entries).lookup name = some value := by
  induction entries with
  | nil => simp [insertInto]
  | cons entry rest ih =>
      rcases entry with ⟨key, held⟩
      by_cases h : key = name
      · simp [insertInto, h]
      · have hn : (name == key) = false := by simpa using fun hc => h hc.symm
        simp [insertInto, h, List.lookup_cons, hn, ih]

theorem lookup_insertInto_of_ne {name other : String} (value : α)
    (entries : List (String × α)) (h : other ≠ name) :
    (insertInto name value entries).lookup other = entries.lookup other := by
  induction entries with
  | nil =>
      have hn : (other == name) = false := by simpa using h
      simp [insertInto, List.lookup_cons, hn]
  | cons entry rest ih =>
      rcases entry with ⟨key, held⟩
      by_cases he : key = name
      · have hn : (other == name) = false := by simpa using h
        simp [insertInto, he, List.lookup_cons, hn]
      · simp only [insertInto, if_neg he, List.lookup_cons, ih]

@[simp] theorem get?_insert_self (bindings : Bindings α) (name : String) (value : α) :
    (bindings.insert name value).get? name = some value :=
  lookup_insertInto_self name value bindings.entries

theorem get?_insert_of_ne (bindings : Bindings α) {name other : String} (value : α)
    (h : other ≠ name) : (bindings.insert name value).get? other = bindings.get? other :=
  lookup_insertInto_of_ne value bindings.entries h

theorem lookup_filter_self (name : String) (entries : List (String × α)) :
    (entries.filter (fun entry => entry.1 ≠ name)).lookup name = none := by
  induction entries with
  | nil => rfl
  | cons entry rest ih =>
      by_cases h : entry.1 = name
      · simpa [List.filter_cons, h] using ih
      · have hn : (name == entry.1) = false := by simpa using fun hc => h hc.symm
        rcases entry with ⟨key, held⟩
        simp only at h
        simp only [ne_eq, decide_not] at ih
        simp [h, List.lookup_cons, hn, ih]

theorem lookup_filter_of_ne {name other : String} (entries : List (String × α))
    (h : other ≠ name) :
    (entries.filter (fun entry => entry.1 ≠ name)).lookup other = entries.lookup other := by
  induction entries with
  | nil => rfl
  | cons entry rest ih =>
      rcases entry with ⟨key, held⟩
      simp only [ne_eq, decide_not] at ih
      by_cases he : key = name
      · have hn : (other == key) = false := by simpa [he] using h
        simp [he, List.lookup_cons, ih, he ▸ hn]
      · cases hk : other == key <;> simp [he, List.lookup_cons, ih, hk]

@[simp] theorem get?_erase_self (bindings : Bindings α) (name : String) :
    (bindings.erase name).get? name = none :=
  lookup_filter_self name bindings.entries

theorem get?_erase_of_ne (bindings : Bindings α) {name other : String} (h : other ≠ name) :
    (bindings.erase name).get? other = bindings.get? other :=
  lookup_filter_of_ne bindings.entries h

@[simp] theorem get?_set_self (bindings : Bindings α) (name : String) (value : Option α) :
    (bindings.set name value).get? name = value := by
  cases value <;> simp [set]

theorem get?_set_of_ne (bindings : Bindings α) {name other : String} (value : Option α)
    (h : other ≠ name) : (bindings.set name value).get? other = bindings.get? other := by
  cases value with
  | none => exact get?_erase_of_ne bindings h
  | some value => exact get?_insert_of_ne bindings value h

end Bindings

end Conch
