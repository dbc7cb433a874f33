/-!
Paths as they are written, with `/` between their parts.
-/

namespace ToolSwitch.Files.Path

def isAbsolute (path : String) : Bool :=
  path.toList.head? = some '/'

def endsOpen (path : String) : Bool :=
  path.toList.getLast? = some '/'

/-- The parts between slashes that are not empty. -/
def parts (path : String) : List String :=
  ((path.toList.splitOn '/').map String.ofList).filter (· ≠ "")

/-- The parts that name something on the way: a part `.` names the folder it stands in. -/
def names (path : String) : List String :=
  (parts path).filter (· ≠ ".")

/-- The parts to go through.  A slash at the end asks for a folder, as a last part `.` does. -/
def steps (path : String) : List String :=
  parts path ++ if endsOpen path then ["."] else []

/-- A path inside a folder. -/
def join (folder name : String) : String :=
  if isAbsolute name then name
  else if folder = "" ∨ endsOpen folder then folder ++ name
  else folder ++ "/" ++ name

/-- Whether a path means the folder it starts from. -/
def isHere (path : String) : Bool :=
  path ≠ "" ∧ !isAbsolute path ∧ (names path).isEmpty

/-- The last name of a path, unless that is a step back. -/
def fileName? (path : String) : Option String :=
  (names path).getLast?.filter (· ≠ "..")

/-- The path without its last name. -/
def folder (path : String) : String :=
  (if isAbsolute path then "/" else "") ++ "/".intercalate (names path).dropLast

/-- A file name cut at its last dot, unless the name begins with that. -/
def splitExtension (name : String) : String × Option String :=
  let tail := (name.toList.reverse.takeWhile (· ≠ '.')).reverse
  let head := name.toList.take (name.length - tail.length - 1)
  if head.isEmpty then (name, none) else (String.ofList head, some (String.ofList tail))

def stem? (path : String) : Option String :=
  (fileName? path).map fun name => (splitExtension name).1

def extension? (path : String) : Option String :=
  (fileName? path).bind fun name => (splitExtension name).2

example : splitExtension "a.b.xml" = ("a.b", some "xml") := by decide
example : splitExtension ".xml" = (".xml", none) := by decide
example : splitExtension "xml" = ("xml", none) := by decide
example : splitExtension "a." = ("a", some "") := by decide

end ToolSwitch.Files.Path
