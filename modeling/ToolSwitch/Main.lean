import ToolSwitch.CommandLine.Run

/-!
The program: it takes the files below the working folder, and those that the command line names
elsewhere, for the tree that the command line runs in, and afterwards writes what the run has
changed.
-/

namespace ToolSwitch.Main

open ToolSwitch.Files

def pathOf (place : List String) : String :=
  "/" ++ "/".intercalate place

/-- The place of what a path leads to, if it leads to anything. -/
def placeOf? (path : String) : IO (Option (List String)) := do
  try return some (Path.parts (← IO.FS.realPath path).toString)
  catch _ => return none

/-- The path in front of the first wildcard. -/
def plain (path : String) : String :=
  let names := (Path.parts path).takeWhile (!Glob.isPattern ·)
  (if Path.isAbsolute path then "/" else "") ++ "/".intercalate names

/-- Where a link leads to in the end, which need not be among what is taken.  In no name is there
the character zero, so that a link to nothing leads to nothing here either. -/
def target (place : List String) : IO String := do
  return (← placeOf? (pathOf place)).elim "\x00/" pathOf

/-- The entries below a folder. -/
partial def below (place : List String) : IO (List (List String × Entry)) := do
  let mut entries := []
  for entry in ← (← IO.FS.realPath (pathOf place)).readDir do
    let inside := place ++ [entry.fileName]
    match (← entry.path.symlinkMetadata).type with
    | .dir => entries := (inside, Entry.folder) :: (← below inside) ++ entries
    | .file =>
      entries := (inside, .file (← IO.FS.readBinFile (pathOf inside)).toList) :: entries
    | .symlink => entries := (inside, .link (← target inside)) :: entries
    | .other => pure ()
  return entries

/-- What there is at a place and below it. -/
def load (place : List String) : IO (List (List String × Entry)) := do
  if ← (← IO.FS.realPath (pathOf place)).isDir then
    return (place, .folder) :: (← below place)
  else return [(place, .file (← IO.FS.readBinFile (pathOf place)).toList)]

/-- The folders that places lie in. -/
def above (places : List (List String)) : List (List String) :=
  (places.flatMap fun place => (List.range place.length).map place.take).eraseDups

/-- The tree for a command line. -/
def tree (arguments : List String) : IO FileTree := do
  let here := (← placeOf? ".").getD []
  let named ← arguments.filterMapM fun argument => placeOf? (plain argument)
  let places := (here :: named.filter (· ≠ [])).eraseDups
  -- what lies below another place comes with that
  let outer := places.filter fun place =>
    places.all fun other => other = place || !other.isPrefixOf place
  let entries ← outer.mapM load
  let folders := (above outer).map fun place => (place, Entry.folder)
  return ⟨(folders ++ entries.flatten).filter (·.1 ≠ []), here⟩

def save (before after : FileTree) : IO Unit := do
  for (place, entry) in after.entries do
    if before.get? place ≠ some entry then
      match entry with
      | .folder => IO.FS.createDirAll (pathOf place)
      | .file content =>
        IO.FS.createDirAll (pathOf place.dropLast)
        IO.FS.writeBinFile (pathOf place) ⟨content.toArray⟩
      | .link _ => pure ()

end ToolSwitch.Main

open ToolSwitch in
def main (arguments : List String) : IO UInt32 := do
  let tree ← Main.tree arguments
  let outcome := CommandLine.run tree arguments
  Main.save tree outcome.tree
  IO.print outcome.output
  for report in Report.upTo (CommandLine.threshold arguments) outcome.reports do
    IO.eprintln report.line
  if let some complaint := outcome.complaint then IO.eprintln complaint
  return UInt32.ofNat outcome.status.code
