/-!
# Values and tables

The values of a configuration document.  A table remembers where it comes from, which
decides whether later lines may add to it: a table is written under one header only,
and dotted keys add to tables that dotted keys made.
-/

namespace Conch.Toml

inductive Origin where
  /-- Under a header of its own, or the document itself. -/
  | header
  /-- Made by a dotted key. -/
  | dotted
  /-- Made on the way to a header. -/
  | implied
  /-- Written between braces; nothing can be added. -/
  | inline
  deriving DecidableEq, Repr

inductive Value where
  | text (s : String)
  | integer (n : Int)
  /-- A number with a fraction. -/
  | real
  | boolean (b : Bool)
  /-- A date or a time, as it is written in full. -/
  | moment (written : String)
  | array (items : List Value)
  /-- The tables under repeated double headers; the last one can still grow. -/
  | tables (earlier : List (List (String × Value))) (last : List (String × Value))
  | table (origin : Origin) (entries : List (String × Value))
  deriving Repr, Inhabited

abbrev Entries := List (String × Value)

/-- The key of the one entry that a date or a time has. -/
def momentKey : String := "$__toml_private_datetime"

/-- The entries of a value that is a table or counts as one. -/
def Value.entries? : Value → Option Entries
  | .table _ entries => some entries
  | .moment written => some [(momentKey, .text written)]
  | _ => none

namespace Entries

/-- Binds a key, in its place if it has one. -/
def put (entries : Entries) (key : String) (value : Value) : Entries :=
  if (entries.lookup key).isSome then
    entries.map fun entry => if entry.1 = key then (key, value) else entry
  else entries ++ [(key, value)]

/-- Binds a key that is free. -/
def add? (entries : Entries) (key : String) (value : Value) : Option Entries :=
  if (entries.lookup key).isSome then none else some (entries ++ [(key, value)])

/-- Changes the table at the end of a path.  The tables that are not there are made with one
origin, and those that are there must allow being entered; of repeated tables the last one is
entered. -/
def changeAt (made : Origin) (enters : Origin → Bool) (change : Origin → Entries → Option Entries)
    (origin : Origin) : List String → Entries → Option Entries
  | [], entries => change origin entries
  | key :: rest, entries =>
      match entries.lookup key with
      | none => do
          let inner ← changeAt made enters change made rest []
          return entries.put key (.table made inner)
      | some (.table origin inner) =>
          if enters origin then do
            let inner ← changeAt made enters change origin rest inner
            return entries.put key (.table origin inner)
          else none
      | some (.tables earlier last) => do
          let last ← changeAt made enters change .header rest last
          return entries.put key (.tables earlier last)
      | some _ => none

/-- Changes the table that a header leads to. -/
def underHeader (change : Entries → Option Entries) (path : List String) (entries : Entries) :
    Option Entries :=
  entries.changeAt .implied (· ≠ .inline) (fun _ inner => change inner) .header path

/-- Binds a dotted key that is free. -/
def assign (path : List String) (key : String) (value : Value) (entries : Entries) :
    Option Entries :=
  entries.changeAt .dotted (fun origin => origin = .dotted || origin = .implied)
    (fun origin inner =>
      if path ≠ [] ∧ origin ≠ .dotted then none else inner.add? key value)
    .header path

/-- Opens the table of a header; it may have been made on the way to another one. -/
def openTable (key : String) (entries : Entries) : Option Entries :=
  match entries.lookup key with
  | none => some (entries.put key (.table .header []))
  | some (.table .implied inner) => some (entries.put key (.table .header inner))
  | some _ => none

/-- Opens one more of the tables of a double header. -/
def openElement (key : String) (entries : Entries) : Option Entries :=
  match entries.lookup key with
  | none => some (entries.put key (.tables [] []))
  | some (.tables earlier last) => some (entries.put key (.tables (earlier ++ [last]) []))
  | some _ => none

end Entries

end Conch.Toml
