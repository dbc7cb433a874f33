import ToolSwitch.Files.Glob.Pattern
import ToolSwitch.Files.Tree

/-!
The paths that a glob pattern stands for in a tree.  Components are taken one after the other, and
in each folder the entries are tried in order.
-/

namespace ToolSwitch.Files.FileTree

open ToolSwitch.Files.Glob

/-- A path at the end of a pattern. -/
def arrive (tree : FileTree) (foldersOnly : Bool) (path : String) : List String :=
  if foldersOnly ∧ !tree.isFolder path then [] else [path]

/-- The folder that a path leads to, for its entries. -/
def folderAt? (tree : FileTree) (path : String) : Option (List String) :=
  match tree.find path with
  | .ok (.folder place) => some place
  | _ => none

/-- The steps to the same folder and to the one above, as far as a component matches them.  A
component has to begin with a dot for that. -/
def dots (component : Component) : List String :=
  if component.pieces.head? = some (.char '.') then ["..", "."].filter component.isMatch else []

/-! `fuel` bounds the nesting of calls: every second call takes a component or enters a folder. -/

mutual

/-- The paths that components stand for below a path. -/
def expand (tree : FileTree) (fuel : Nat) (foldersOnly : Bool) (components : List Component)
    (path : String) : List String :=
  match fuel, components with
  | 0, _ | _, [] => []
  | fuel + 1, component :: more =>
    let goOn (path : String) : List String :=
      if more.isEmpty then tree.arrive foldersOnly path
      else tree.expand fuel foldersOnly more path
    if component.isLiteral then
      let next := if Path.isHere path then component.text else Path.join path component.text
      let isThere :=
        if component.text = "." ∨ component.text = ".." then tree.isFolder path
        else tree.isPresent next
      if isThere then goOn next else []
    else
      match tree.folderAt? path with
      | none => []
      | some folder =>
        (dots component).flatMap (fun step => goOn (Path.join path step)) ++
          (tree.listing folder).flatMap fun name =>
            let inside := if Path.isHere path then name else Path.join path name
            tree.tryEntry fuel foldersOnly (component :: more) inside name

/-- The paths that components stand for at an entry of the folder they are looked for in. -/
def tryEntry (tree : FileTree) (fuel : Nat) (foldersOnly : Bool) (components : List Component)
    (path name : String) : List String :=
  match fuel with
  | 0 => []
  | fuel + 1 =>
    let byName (components : List Component) : List String :=
      match components with
      | [] => []
      | component :: more =>
        if !component.isMatch name then []
        else if more.isEmpty then tree.arrive foldersOnly path
        else tree.expand fuel foldersOnly more path
    match components with
    | [] => []
    | component :: more =>
      if component.isRecursive then
        let rest := more.dropWhile Component.isRecursive
        if tree.isFolder path then
          (if rest.isEmpty then [path] else byName rest) ++
            tree.expand fuel foldersOnly (component :: rest) path
        else byName rest
      else byName components

end

/-- The paths that a pattern stands for. -/
def glob (tree : FileTree) (pattern : Pattern) (text : String) : List String :=
  let depth := (linkLimit + 1) * (tree.entries.length + 2) + pattern.components.length
  tree.expand (2 * depth) pattern.foldersOnly pattern.components
    (if Path.isAbsolute text then "/" else ".")

end ToolSwitch.Files.FileTree
