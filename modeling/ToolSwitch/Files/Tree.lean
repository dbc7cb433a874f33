import ToolSwitch.Failure
import ToolSwitch.Files.Path
import ToolSwitch.Text.Utf8

/-!
A tree of files, as a value.  Operations take paths as they are written, follow links the way an
operating system does, and give back the tree they leave.
-/

namespace ToolSwitch.Files

open ToolSwitch.Text

inductive Entry where
  | file (content : Bytes)
  | folder
  | link (target : String)
  deriving DecidableEq, Repr

/-- A tree, as the entries below its root under their places: the names that lead to them. -/
structure FileTree where
  entries : List (List String × Entry)
  /-- The place of the working folder, where a path starts unless it is absolute. -/
  working : List String
  deriving DecidableEq, Repr

/-- What a path leads to. -/
inductive Found where
  | folder (place : List String)
  | file (place : List String) (content : Bytes)
  /-- Nothing, but the folder it would be in is there. -/
  | vacant (folder : List String) (name : String)
  deriving DecidableEq, Repr

namespace FileTree

/-- A tree with nothing in it.  Its root is the working folder. -/
def empty : FileTree :=
  ⟨[], []⟩

/-- The entry at a place, links not followed. -/
def get? (tree : FileTree) (place : List String) : Option Entry :=
  if place = [] then some .folder else tree.entries.lookup place

def set (tree : FileTree) (place : List String) (entry : Entry) : FileTree :=
  { tree with entries := (place, entry) :: tree.entries.filter (·.1 ≠ place) }

theorem lookup_filter_ne (entries : List (List String × Entry)) {place other : List String}
    (h : other ≠ place) : (entries.filter (·.1 ≠ place)).lookup other = entries.lookup other := by
  induction entries with
  | nil => rfl
  | cons first rest ih =>
    obtain ⟨key, entry⟩ := first
    by_cases hk : key = place
    · subst hk
      rw [List.filter_cons_of_neg (by simp), ih, List.lookup_cons, beq_false_of_ne h]
    · rw [List.filter_cons_of_pos (by simpa using hk), List.lookup_cons, List.lookup_cons, ih]

/-- What is set at a place is there, and nothing else has changed. -/
theorem get?_set (tree : FileTree) {place : List String} (h : place ≠ []) (entry : Entry)
    (other : List String) :
    (tree.set place entry).get? other = if other = place then some entry else tree.get? other := by
  by_cases ho : other = place
  · subst ho
    rw [if_pos rfl, get?, if_neg h, set, List.lookup_cons, beq_self_eq_true]
  · rw [if_neg ho, get?, get?, set, List.lookup_cons, beq_false_of_ne ho]
    split
    · rfl
    · exact lookup_filter_ne _ ho

/-- The names in a folder, in order. -/
def listing (tree : FileTree) (folder : List String) : List String :=
  let names := tree.entries.filterMap fun (place, _) =>
    if place.dropLast = folder then place.getLast? else none
  names.mergeSort fun a b => decide (a ≤ b)

/-- How many links may lie on a path. -/
def linkLimit : Nat := 40

/-- Goes on from a folder through parts of a path.  At a link `jump` goes on through what is
left. -/
def followTo (tree : FileTree)
    (jump : List String → List String → Except FileFault Found) (here : List String) :
    List String → Except FileFault Found
  | [] => .ok (.folder here)
  | part :: rest =>
    if part = "." then tree.followTo jump here rest
    -- the folder above the root is the root
    else if part = ".." then tree.followTo jump here.dropLast rest
    else
      match tree.entries.lookup (here ++ [part]) with
      | none => if rest.isEmpty then .ok (.vacant here part) else .error .notFound
      | some .folder => tree.followTo jump (here ++ [part]) rest
      | some (.file content) =>
        if rest.isEmpty then .ok (.file (here ++ [part]) content) else .error .notDirectory
      | some (.link target) =>
        jump (if Path.isAbsolute target then [] else here) (Path.steps target ++ rest)

/-- Goes on from a folder through parts of a path, over at most so many links. -/
def follow (tree : FileTree) : Nat → List String → List String → Except FileFault Found
  | 0 => tree.followTo fun _ _ => .error .linkCycle
  | links + 1 => tree.followTo (tree.follow links)

/-- Where a path starts. -/
def start (tree : FileTree) (path : String) : List String :=
  if Path.isAbsolute path then [] else tree.working

def locate (tree : FileTree) (path : String) : Except FileFault Found :=
  if path = "" then .error .notFound
  else tree.follow linkLimit (tree.start path) (Path.steps path)

/-- What is there under a path. -/
def find (tree : FileTree) (path : String) : Except FileFault Found := do
  match ← tree.locate path with
  | .vacant _ _ => .error .notFound
  | found => return found

def isPresent (tree : FileTree) (path : String) : Bool :=
  (tree.find path).isOk

def isFolder (tree : FileTree) (path : String) : Bool :=
  match tree.find path with
  | .ok (.folder _) => true
  | _ => false

def isFile (tree : FileTree) (path : String) : Bool :=
  match tree.find path with
  | .ok (.file _ _) => true
  | _ => false

def read (tree : FileTree) (path : String) : Except FileFault Bytes := do
  match ← tree.find path with
  | .file _ content => return content
  | _ => .error .isDirectory

/-- The content of a file that holds text. -/
def readText (tree : FileTree) (path : String) : Except FileFault String := do
  (Utf8.read (← tree.read path)).mapError fun _ => .notText

/-- Writes a file, in place of the one that is there.  A path that ends in a slash names no file, so
what it is inside of is all there is to look at. -/
def write (tree : FileTree) (path : String) (content : Bytes) : Except FileFault FileTree := do
  if Path.endsOpen path then
    match ← tree.follow linkLimit (tree.start path) (Path.parts path).dropLast with
    | .folder _ => .error .isDirectory
    | .file _ _ => .error .notDirectory
    | .vacant _ _ => .error .notFound
  else
    match ← tree.locate path with
    | .folder _ => .error .isDirectory
    | .file place _ => return tree.set place (.file content)
    | .vacant folder name => return tree.set (folder ++ [name]) (.file content)

/-- Makes the folder that parts of a path lead to. -/
def makeFolderAt (tree : FileTree) (start parts : List String) :
    Except FileFault FileTree := do
  match parts.getLast? with
  | none => .error .alreadyExists
  | some name =>
    if name = "." ∨ name = ".." then
      match ← tree.follow linkLimit start parts with
      | .vacant _ _ => .error .notFound
      | _ => .error .alreadyExists
    else
      match ← tree.follow linkLimit start parts.dropLast with
      | .file _ _ => .error .notDirectory
      | .vacant _ _ => .error .notFound
      | .folder place =>
        match tree.get? (place ++ [name]) with
        | some _ => .error .alreadyExists
        | none => return tree.set (place ++ [name]) .folder

/-- Makes a folder unless there is one, with `before` to be done first if the way to it is missing.
The folders made on the way stay when the last cannot be made. -/
def ensureFolderAt (start parts : List String)
    (before : FileTree → Except FileFault Unit × FileTree) (tree : FileTree) :
    Except FileFault Unit × FileTree :=
  let settle (tree : FileTree) (fault : FileFault) : Except FileFault Unit × FileTree :=
    match tree.follow linkLimit start parts with
    | .ok (.folder _) => (.ok (), tree)
    | _ => (.error fault, tree)
  match tree.makeFolderAt start parts with
  | .ok made => (.ok (), made)
  | .error .notFound =>
    match before tree with
    | (.error fault, tree) => (.error fault, tree)
    | (.ok (), tree) =>
      match tree.makeFolderAt start parts with
      | .ok made => (.ok (), made)
      | .error fault => settle tree fault
  | .error fault => settle tree fault

/-- Makes the folders along names, given in reverse. -/
def makeFoldersAlong (start : List String) :
    List String → FileTree → Except FileFault Unit × FileTree
  | [], tree => (.ok (), tree)
  | name :: before, tree =>
    ensureFolderAt start (name :: before).reverse (makeFoldersAlong start before) tree

/-- Makes a folder and those it lies in, as far as they are missing. -/
def makeFolders (tree : FileTree) (path : String) : Except FileFault Unit × FileTree :=
  if path = "" then (.ok (), tree)
  else
    let origin := tree.start path
    ensureFolderAt origin (Path.parts path)
      (makeFoldersAlong origin (Path.names path).dropLast.reverse) tree

end FileTree

end ToolSwitch.Files
