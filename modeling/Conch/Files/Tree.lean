import Conch.Effect.Request
import Conch.Files.Path

/-!
# File trees

A tree of directories, files and symbolic links in memory.  `Tree.walk` follows a
path from a directory: dots are followed where they stand, links are replaced by their
targets, no more than forty links are followed, and a slash after a name asks for a
directory.
-/

namespace Conch

open Text (Bytes)

/-- Where something stands: the names from the root on. -/
abbrev Place := List String

def Place.path (place : Place) : String := "/" ++ "/".intercalate place

/-- A device without memory. -/
inductive Device where
  /-- Swallows what is written and has nothing to read. -/
  | null
  /-- Swallows what is written and gives zeros without end. -/
  | zero
  /-- Takes nothing and gives zeros without end. -/
  | full
  deriving DecidableEq, Repr

inductive Entry where
  | directory
  | file (content : Bytes) (mode : Nat)
  | link (target : String)
  | device (device : Device)
  deriving DecidableEq, Repr

/-- Everything but the root, which is always a directory. -/
structure Tree where
  entries : List (Place × Entry)
  deriving DecidableEq, Repr

namespace Tree

def empty : Tree := ⟨[]⟩

def get? (tree : Tree) (place : Place) : Option Entry :=
  if place.isEmpty then some .directory else tree.entries.lookup place

def put (tree : Tree) (place : Place) (entry : Entry) : Tree :=
  ⟨(place, entry) :: tree.entries.filter (fun known => known.1 ≠ place)⟩

/-- Makes the directories on the way to a place that are not there yet, and one at the place. -/
def makeDirectory (tree : Tree) (place : Place) : Tree :=
  (List.range place.length).foldl (fun tree depth =>
    let reached := place.take (depth + 1)
    if (tree.get? reached).isSome then tree else tree.put reached .directory) tree

/-- Puts an entry at a place below directories that are made as needed. -/
def add (tree : Tree) (place : Place) (entry : Entry) : Tree :=
  (tree.makeDirectory place.dropLast).put place entry

/-- The names in a directory. -/
def names (tree : Tree) (place : Place) : List String :=
  tree.entries.filterMap fun known =>
    if known.1.dropLast = place then known.1.getLast? else none

/-- How many links one path may lead through. -/
def maxLinks : Nat := 40

/-- Names and paths longer than this many bytes are refused. -/
def maxNameSize : Nat := 255

def maxPathSize : Nat := 4095

/-- Where a path leads. -/
inductive Found where
  | entry (place : Place) (entry : Entry)
  /-- Nothing has this name in an existing directory. -/
  | vacant (place : Place)
  deriving DecidableEq, Repr

/-- What is wanted at the end of a path. -/
inductive Goal where
  /-- Whatever stands there, also a link. -/
  | itself
  /-- Where the links there lead. -/
  | target
  /-- The same, or a file that is to be made there. -/
  | file
  deriving DecidableEq, Repr

/-- Nothing but slashes is left of a path. -/
def onlySlashes (steps : List String) : Bool := !steps.isEmpty && steps.all String.isEmpty

/-- Follows the steps of a path from a directory.  An empty step asks for a directory as a dot
does, but no file can be made before one. -/
def walk (tree : Tree) (goal : Goal) (links : Nat) (place : Place) (steps : List String) :
    Except FileError Found :=
  match steps with
  | [] =>
      match tree.get? place with
      | some entry => .ok (.entry place entry)
      | none => .error .notFound
  | name :: rest =>
      match tree.get? place with
      | some .directory =>
          if name = "." || name = "" then walk tree goal links place rest
          else if name = ".." then walk tree goal links place.dropLast rest
          else if goal = .file && onlySlashes rest then .error .isDirectory
          else if maxNameSize < name.utf8ByteSize then .error .nameTooLong
          else
            match tree.get? (place ++ [name]) with
            | none => if rest.isEmpty then .ok (.vacant (place ++ [name])) else .error .notFound
            | some (.link target) =>
                if rest.isEmpty && goal = .itself then .ok (.entry (place ++ [name]) (.link target))
                else
                  match links with
                  | 0 => .error .tooManyLinks
                  | links + 1 =>
                      walk tree goal links (if Path.isAbsolute target then [] else place)
                        (Path.steps target ++ rest)
            | some _ => walk tree goal links (place ++ [name]) rest
      | some _ => .error .notDirectory
      | none => .error .notFound
termination_by (links, steps.length)
decreasing_by
  all_goals simp_wf
  all_goals omega

/-- Follows a path from a directory. -/
def find (tree : Tree) (directory : Place) (goal : Goal) (path : String) : Except FileError Found :=
  if path.isEmpty then .error .notFound
  else if path.toList.contains (Char.ofNat 0) then .error .nullInPath
  else if maxPathSize < path.utf8ByteSize then .error .nameTooLong
  else tree.walk goal maxLinks (if Path.isAbsolute path then [] else directory) (Path.steps path)

/-- What stands at the end of a path. -/
def lookup (tree : Tree) (directory : Place) (goal : Goal) (path : String) :
    Except FileError (Place × Entry) :=
  match tree.find directory goal path with
  | .error e => .error e
  | .ok (.vacant _) => .error .notFound
  | .ok (.entry place entry) => .ok (place, entry)

def metadata : Entry → Metadata
  | .directory => ⟨true, 0o40755⟩
  | .file _ mode => ⟨false, mode⟩
  | .link _ => ⟨false, 0o120777⟩
  | .device _ => ⟨false, 0o20666⟩

end Tree

end Conch
