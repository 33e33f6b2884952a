/-!
# Paths

Paths are texts with components between slashes.
-/

namespace Conch.Path

/-- The non-empty parts between slashes. -/
def components (path : String) : List String :=
  ((path.toList.splitOn '/').filter (· ≠ [])).map String.ofList

/-- The names on the way of a path; a slash at its end adds an empty one. -/
def steps (path : String) : List String :=
  components path ++ (if path.toList.getLast? = some '/' then [""] else [])

def isAbsolute (path : String) : Bool := path.toList.head? == some '/'

/-- The path without slashes at its end. -/
def trimEnd (path : String) : String :=
  String.ofList (path.toList.reverse.dropWhile (· == '/')).reverse

/-- A name inside a directory; an absolute name stands for itself. -/
def join (directory name : String) : String :=
  if isAbsolute name || directory.isEmpty then name
  else if directory.toList.getLast? = some '/' then directory ++ name
  else directory ++ "/" ++ name

/-- A path that starts at a directory unless it is absolute. -/
def under (directory path : String) : String :=
  if isAbsolute path then path else trimEnd directory ++ "/" ++ path

/-- Follows a component in a list of components, the last one first. -/
def step (reached : List String) (component : String) : List String :=
  if component = "." then reached
  else if component = ".." then reached.tail
  else component :: reached

/-- The absolute path whose components are given, the last one first. -/
def ofReversed (reached : List String) : String := "/" ++ "/".intercalate reached.reverse

/-- The absolute path without dots; nothing is above the root. -/
def normalize (path : String) : String := ofReversed ((components path).foldl step [])

end Conch.Path
