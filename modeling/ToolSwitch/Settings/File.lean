import ToolSwitch.Files.Tree
import ToolSwitch.Report
import ToolSwitch.Settings

/-!
Settings from a file.  A file that is named has to be there; the one that is looked for need not.
-/

namespace ToolSwitch.Settings

open ToolSwitch.Files

def ofFile (tree : FileTree) (path : String) : Except Failure Settings := do
  let text ← (tree.readText path).mapError .file
  (ofText text).mapError (.settings · (some path))

def load (tree : FileTree) (path : Option String) : Except Failure Settings × List Report :=
  match path with
  | some path => (ofFile tree path, [])
  | none =>
    if tree.isPresent fileName then (ofFile tree fileName, [])
    else (.ok .default, [.defaultSettings])

end ToolSwitch.Settings
