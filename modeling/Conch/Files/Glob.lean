import Conch.Effect.Proc
import Conch.Files.Path
import Conch.Pattern.Matching

/-!
# File names from patterns

Finds the paths that match a pattern.  Every component of the pattern is matched
against the entries of a directory; a component without wildcards is looked up
instead.  A doubled star stands for any number of directories and, at the end, for
the directories themselves.  Hidden entries are left out of every directory that is
listed, so only the two dot entries can match a component with a leading dot.
-/

namespace Conch.Glob

/-- The component stands for any number of directories. -/
def isPath (pattern : Pattern) : Bool := pattern.contains .anyPath

/-- How many directories deep a path can go. -/
def maxDepth : Nat := 4096

def isDirectory (path : String) : Proc Bool := do
  let found ← Proc.call (.describe path)
  return found.any Metadata.isDirectory

/-- An entry of a directory; the entries of the starting directory have no directory in front. -/
def entry (directory name : String) : String :=
  if directory = "." then name else Path.join directory name

/-- The search below a directory for the components that are left. -/
abbrev Search := List Pattern → String → Proc (List String)

section

variable (wantsDirectory : Bool) (below : Search)

def keep (path : String) : Proc (List String) := do
  if wantsDirectory && !(← isDirectory path) then return [] else return [path]

/-- A path that its component stands for, with the components after it. -/
def reached (rest : List Pattern) (path : String) : Proc (List String) :=
  if rest.isEmpty then keep wantsDirectory path else below rest path

/-- An entry that still has to match the first component. -/
def matching (patterns : List Pattern) (name path : String) : Proc (List String) :=
  match patterns with
  | [] => return []
  | pattern :: rest =>
      if pattern.accepts .files name then reached wantsDirectory below rest path else return []

/-- An entry of a listed directory. -/
def visit (patterns : List Pattern) (name path : String) : Proc (List String) :=
  match patterns with
  | [] => return []
  | pattern :: rest =>
      if isPath pattern then do
        let following := rest.dropWhile isPath
        let here := if following.isEmpty then return [] else
          matching wantsDirectory below following name path
        if ← isDirectory path then
          let inside ← below (pattern :: following) path
          if following.isEmpty then return inside ++ [path] else return inside ++ (← here)
        else here
      else matching wantsDirectory below patterns name path

/-- The search with the first component below a directory. -/
def search (patterns : List Pattern) (directory : String) : Proc (List String) :=
  match patterns with
  | [] => return []
  | pattern :: rest =>
      match pattern.literal? with
      | some letters => do
          let name := String.ofList letters
          let path := entry directory name
          let found ←
            if name = "." || name = ".." then isDirectory directory
            else do
              let known ← Proc.call (.describe path)
              if known.isSome then pure true else Proc.call (.exists path)
          if found then reached wantsDirectory below rest path else return []
      | none => do
          if !(← isDirectory directory) then return []
          match ← Proc.call (.list directory) with
          | .error _ => return []
          | .ok names =>
              let shown := names.filter (fun name => name.toList.head? != some '.')
              let entries ← shown.flatMapM fun name =>
                visit wantsDirectory below patterns name (entry directory name)
              if pattern.head? != some (.exactly '.') then return entries
              let dots ← ([".", ".."].filter (pattern.accepts .files)).flatMapM fun name =>
                reached wantsDirectory below rest (Path.join directory name)
              return entries ++ dots

end

/-- The search to a depth. -/
def searchTo (wantsDirectory : Bool) : Nat → Search
  | 0, _, _ => return []
  | depth + 1, patterns, directory =>
      search wantsDirectory (searchTo wantsDirectory depth) patterns directory

/-- The components of a pattern; a slash at its end starts none. -/
def splitComponents (pattern : List Char) : List (List Char) :=
  let parts := pattern.splitOn '/'
  if parts.getLast? = some [] then parts.dropLast else parts

/-- The paths that match a pattern, in no particular order; a malformed pattern has none. -/
def paths (pattern : String) : Proc (List String) :=
  let text := pattern.toList
  let (start, relative) := if Path.isAbsolute pattern then ("/", text.tail) else (".", text)
  let components :=
    if pattern = "/" then some [[]]
    else (splitComponents relative).mapM (fun part => Pattern.ofText? (String.ofList part))
  match Pattern.ofText? pattern, components with
  | some _, some components =>
      searchTo (text.getLast? = some '/') (maxDepth + components.length) components start
  | _, _ => return []

/-- The paths that match a pattern from a directory, sorted; those of a relative pattern are
written as seen from the directory. -/
def expand (pattern directory : String) : Proc (List String) := do
  let found ← if Path.isAbsolute pattern then paths pattern else below
  return found.mergeSort (fun a b => a ≤ b)
where
  below : Proc (List String) := do
    let base := Path.trimEnd directory
    let front := (base ++ "/").toList
    let found ← paths (Pattern.escape base ++ "/" ++ pattern)
    return found.map fun path =>
      if front.isPrefixOf path.toList then String.ofList (path.toList.drop front.length) else path

end Conch.Glob
