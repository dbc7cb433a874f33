import ToolSwitch.Failure

/-!
Glob patterns: what a pattern is made of, when a text is none, and which names a pattern matches.
-/

namespace ToolSwitch.Files.Glob

/-- A member of a set of characters. -/
inductive Member where
  | single (c : Char)
  | range (first last : Char)
  deriving DecidableEq, Repr

inductive Piece where
  | char (c : Char)
  | anyChar
  | anyRun
  /-- Any number of folders. -/
  | anyFolders
  | within (members : List Member)
  | outside (members : List Member)
  deriving DecidableEq, Repr

/-- Whether a text has a character that only a pattern gives a meaning to. -/
def isPattern (text : String) : Bool :=
  text.toList.any fun c => c = '*' || c = '?' || c = '['

namespace Pattern

def members : List Char → List Member
  | a :: '-' :: b :: rest => .range a b :: members rest
  | a :: rest => .single a :: members rest
  | [] => []

/-- A set behind its opening bracket, and how many characters it takes up to its closing one.  The
first character of a set is a member even if it is a bracket. -/
def set? (text : List Char) : Option (Piece × Nat) :=
  let close (skipped : List Char) : Option (List Char) :=
    match skipped with
    | [] => none
    | first :: rest =>
      if rest.contains ']' then some (first :: rest.takeWhile (· ≠ ']')) else none
  match text with
  | '!' :: rest => (close rest).map fun inside => (.outside (members inside), inside.length + 2)
  | _ => (close text).map fun inside => (.within (members inside), inside.length + 1)

/-- A run of stars at `position` of a pattern, behind `before` if there is anything before it, and
what it means in front of `after`. -/
def stars (position count : Nat) (before : Option Char) (after : Option Char) :
    Except PatternFault Piece :=
  if 2 < count then .error ⟨position + 2, .wildcards⟩
  else if count = 2 then
    if before.isSome ∧ before ≠ some '/' then .error ⟨position - 1, .recursion⟩
    else if after.isSome ∧ after ≠ some '/' then .error ⟨position + 2, .recursion⟩
    else .ok .anyFolders
  else .ok .anyRun

/-- The pieces of the rest of a pattern, from `position` on.  Each takes at least one character, so
the length of the rest is fuel enough. -/
def pieces (fuel position : Nat) (before : Option Char) (text : List Char) :
    Except PatternFault (List Piece) :=
  match fuel, text with
  | _, [] => .ok []
  | 0, _ :: _ => .ok []
  | fuel + 1, c :: rest =>
    if c = '?' then (.anyChar :: ·) <$> pieces fuel (position + 1) (some c) rest
    else if c = '*' then do
      let more := rest.takeWhile (· = '*')
      let after := rest.dropWhile (· = '*')
      let count := more.length + 1
      let piece ← stars position count before after.head?
      -- The slash behind a step through folders belongs to it.
      if piece = .anyFolders ∧ after.head? = some '/' then
        (piece :: ·) <$> pieces fuel (position + count + 1) (some '/') after.tail
      else (piece :: ·) <$> pieces fuel (position + count) (some c) after
    else if c = '[' then
      match set? rest with
      | some (piece, length) =>
        (piece :: ·) <$> pieces fuel (position + 1 + length) (some ']') (rest.drop length)
      | none => .error ⟨position, .range⟩
    else (.char c :: ·) <$> pieces fuel (position + 1) (some c) rest

end Pattern

/-- The pattern for one name, or for any number of folders. -/
structure Component where
  text : String
  pieces : List Piece
  deriving DecidableEq, Repr

namespace Component

def ofText (text : String) : Except PatternFault Component := do
  return ⟨text, ← Pattern.pieces text.length 0 none text.toList⟩

/-- Whether a component stands for any number of folders. -/
def isRecursive (component : Component) : Bool :=
  component.pieces.contains .anyFolders

/-- Whether a component matches nothing but its own text. -/
def isLiteral (component : Component) : Bool :=
  component.pieces.all fun
    | .char _ => true
    | _ => false

def Member.contains (c : Char) : Member → Bool
  | .single d => c = d
  | .range first last => first ≤ c && c ≤ last

/-- Whether pieces match a name. -/
def matchesPieces : List Piece → List Char → Bool
  | [], [] => true
  | [], _ :: _ => false
  | .anyRun :: pieces, [] | .anyFolders :: pieces, [] => matchesPieces pieces []
  | .anyRun :: pieces, c :: name | .anyFolders :: pieces, c :: name =>
    matchesPieces pieces (c :: name) || matchesPieces (.anyRun :: pieces) name
  | .char _ :: _, [] | .anyChar :: _, [] | .within _ :: _, [] | .outside _ :: _, [] => false
  | .char d :: pieces, c :: name => c = d && matchesPieces pieces name
  | .anyChar :: pieces, _ :: name => matchesPieces pieces name
  | .within members :: pieces, c :: name =>
    members.any (Member.contains c) && matchesPieces pieces name
  | .outside members :: pieces, c :: name =>
    !members.any (Member.contains c) && matchesPieces pieces name
termination_by pieces name => (name.length, pieces.length)

def isMatch (component : Component) (name : String) : Bool :=
  matchesPieces component.pieces name.toList

end Component

/-- A pattern as its components. -/
structure Pattern where
  components : List Component
  /-- The pattern ends in a slash, so that it matches folders only. -/
  foldersOnly : Bool
  deriving DecidableEq, Repr

/-- The texts between slashes, the last only if there is anything in it. -/
def splitComponents (text : List Char) : List String :=
  let texts := (text.splitOn '/').map String.ofList
  if texts.getLast? = some "" then texts.dropLast else texts

/-- The pattern that a text is.  The whole is looked at first, and then each component by itself. -/
def Pattern.ofText (text : String) : Except PatternFault Pattern := do
  let chars := text.toList
  let _ ← Pattern.pieces chars.length 0 none chars
  let relative := chars.dropWhile (· = '/')
  return ⟨← (splitComponents relative).mapM Component.ofText, chars.getLast? = some '/'⟩

end ToolSwitch.Files.Glob
