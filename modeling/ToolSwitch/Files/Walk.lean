import ToolSwitch.Files.Tree

/-!
The schemas below a folder.  Entries are visited by name, each folder's content in the folder's
place, and a link to a folder is entered unless the path already leads through that folder.
-/

namespace ToolSwitch.Files

/-- A folder on the way to an entry. -/
structure Ancestor where
  path : String
  place : List String
  deriving DecidableEq, Repr

namespace FileTree

/-- Whether an entry is itself a link. -/
def isLink (tree : FileTree) (folder : List String) (name : String) : Bool :=
  match tree.get? (folder ++ [name]) with
  | some (.link _) => true
  | _ => false

/-- The files below a folder, the last of the ancestors, and the entries passed over.  `fuel` bounds
the depth. -/
def walkFolder (tree : FileTree) (fuel : Nat) (here : Ancestor) (above : List Ancestor) :
    List (Except WalkFault String) :=
  match fuel with
  | 0 => []
  | fuel + 1 =>
    (tree.listing here.place).flatMap fun name =>
      let path := Path.join here.path name
      match tree.find path with
      | .error fault => [.error (.unreadable path fault)]
      | .ok (.folder place) =>
        let cycle :=
          if tree.isLink here.place name then (here :: above).find? (·.place = place)
          else none
        match cycle with
        | some ancestor => [.error (.cycle path ancestor.path)]
        | none => tree.walkFolder fuel ⟨path, place⟩ (here :: above)
      | .ok _ => [.ok path]

/-- A bound on the depth of a walk: on one way a link is entered at most once for each folder, and
between two links the way only leads down. -/
def walkDepth (tree : FileTree) : Nat :=
  (tree.entries.length + 1) * (tree.entries.length + 1)

/-- The files below a path, or the file at it. -/
def walk (tree : FileTree) (path : String) : List (Except WalkFault String) :=
  match tree.find path with
  | .error fault => [.error (.unreadable path fault)]
  | .ok (.folder place) => tree.walkFolder tree.walkDepth ⟨path, place⟩ []
  | .ok _ => [.ok path]

def lower (c : Char) : Char :=
  if 'A' ≤ c ∧ c ≤ 'Z' then Char.ofNat (c.toNat + 32) else c

/-- Whether a file is taken for a schema. -/
def isSchema (path : String) : Bool :=
  match Path.extension? path with
  | some extension => extension.toList.map lower = "xml".toList
  | none => false

/-- The schemas below a folder. -/
def schemas (tree : FileTree) (folder : String) : List String :=
  (tree.walk folder).filterMap fun entry => entry.toOption.filter isSchema

/-- The entries below a folder that are passed over. -/
def skipped (tree : FileTree) (folder : String) : List WalkFault :=
  (tree.walk folder).filterMap fun
    | .error fault => some fault
    | .ok _ => none

end FileTree

end ToolSwitch.Files
