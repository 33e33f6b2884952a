import Conch.Toml.Number
import Conch.Toml.Text
import Conch.Toml.Value

/-!
# Documents

A document is a sequence of lines that bind keys or open tables.  `Entries.ofText?`
reads a whole document; it has no result if the text is malformed or binds a key
twice.
-/

namespace Conch.Toml

open Reader

def boolean : Reader Bool :=
  (do chars ['t', 'r', 'u', 'e']; return true) <|> (do chars ['f', 'a', 'l', 's', 'e']; return false)

/-- A value without parts. -/
def scalar : Reader Value :=
  (do return .text (← string)) <|> (do return .boolean (← boolean)) <|>
    (do return .moment (← moment)) <|> (do real; return .real) <|> (do return .integer (← integer))

/-- Items between brackets; a comma may follow the last one. -/
def array (value : Reader Value) : Reader Value := do
  char '['
  let item := do
    gap
    let v ← value
    gap
    return v
  let items ← optional (separated (char ',') item)
  if items.isSome then discard (optional (char ','))
  gap
  char ']'
  return .array (items.getD [])

def binding (value : Reader Value) : Reader ((List String × String) × Value) := do
  let key ← dottedKey
  char '='
  blanks
  return (key, ← value)

/-- Bindings between braces, on one line. -/
def inlineTable (value : Reader Value) : Reader Value := do
  char '\x7b'
  blanks
  let bindings ← optional (separated (char ',') (do
    let b ← binding value
    blanks
    return b))
  char '\x7d'
  match (bindings.getD []).foldlM (fun entries (key, v) => Entries.assign key.1 key.2 v entries) [] with
  | some entries => return .table .inline entries
  | none => failure

/-- A value whose parts are nested no deeper than the given number. -/
def valueWithin : Nat → Reader Value
  | 0 => scalar
  | depth + 1 => scalar <|> array (valueWithin depth) <|> inlineTable (valueWithin depth)

def value : Reader Value := valueWithin (maxDepth - 1)

/-- What a line does. -/
inductive Statement where
  | assign (path : List String) (key : String) (value : Value)
  | openTable (path : List String) (key : String)
  | openElement (path : List String) (key : String)

def header : Reader Statement := do
  char '['
  let (path, key) ← dottedKey
  char ']'
  return .openTable path key

def doubleHeader : Reader Statement := do
  chars ['[', '[']
  let (path, key) ← dottedKey
  chars [']', ']']
  return .openElement path key

def assignment : Reader Statement := do
  let ((path, key), value) ← binding value
  return .assign path key value

/-- One line with what it does, if it does anything. -/
def line : Reader (Option Statement) := do
  blanks
  let statement ← optional (doubleHeader <|> header <|> assignment)
  lineEnd
  return statement

/-- All lines; a byte order mark may stand before them. -/
def document : Reader (List Statement) := do
  discard (optional (char (Char.ofNat 0xFEFF)))
  let lines ← many line
  finished
  return lines.filterMap id

/-- The path of the open table, and all entries. -/
abbrev Reading := List String × Entries

def Statement.apply (reading : Reading) : Statement → Option Reading
  | .assign path key value => do
      let entries ← reading.2.underHeader (Entries.assign path key value) reading.1
      return (reading.1, entries)
  | .openTable path key => do
      let entries ← reading.2.underHeader (Entries.openTable key) path
      return (path ++ [key], entries)
  | .openElement path key => do
      let entries ← reading.2.underHeader (Entries.openElement key) path
      return (path ++ [key], entries)

/-- The entries of a document. -/
def Entries.ofText? (text : String) : Option Entries := do
  let (statements, _) ← document text.toList
  let (_, entries) ← statements.foldlM Statement.apply ([], [])
  return entries

end Conch.Toml
