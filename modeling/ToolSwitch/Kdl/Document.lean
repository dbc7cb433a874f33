import ToolSwitch.Kdl.Token

/-!
KDL documents: nodes with entries and children.  Every function takes the tokens that are left and
returns those it leaves.
-/

namespace ToolSwitch.Kdl

inductive Value where
  | text (value : String)
  | number (literal : String)
  | keyword (word : String)
  deriving DecidableEq, Repr

/-- An argument, or a property if there is a key. -/
structure Entry where
  key : Option String
  value : Value
  deriving DecidableEq, Repr

inductive Node where
  | mk (name : String) (entries : List Entry) (children : List Node)

namespace Node

def name : Node → String
  | mk name _ _ => name

def entries : Node → List Entry
  | mk _ entries _ => entries

/-- The nodes in the node's block, none if it has no block. -/
def children : Node → List Node
  | mk _ _ children => children

/-- The text of the first entry, be it an argument or a property. -/
def text? (node : Node) : Option String :=
  match node.entries.head?.map Entry.value with
  | some (.text value) => some value
  | _ => none

end Node

namespace Document

def skipSpace (tokens : List Token) : List Token :=
  tokens.dropWhile (· = .space)

/-- Skips what may stand between nodes. -/
def skipLines (tokens : List Token) : List Token :=
  tokens.dropWhile fun token => token = .space ∨ token = .newline ∨ token = .comment

/-- A type annotation, if there is one, and the space behind it. -/
def skipAnnotation : List Token → Option (List Token)
  | .openParen :: rest =>
    match skipSpace rest with
    | .text _ :: rest =>
      match skipSpace rest with
      | .closeParen :: rest => some (skipSpace rest)
      | _ => none
    | _ => none
  | tokens => some tokens

def value (tokens : List Token) : Option (Value × List Token) := do
  match ← skipAnnotation tokens with
  | .text value :: rest => return (.text value, rest)
  | .number literal :: rest => return (.number literal, rest)
  | .keyword word :: rest => return (.keyword word, rest)
  | _ => none

def entry (tokens : List Token) : Option (Entry × List Token) :=
  let argument := do
    let (value, rest) ← value tokens
    return (⟨none, value⟩, rest)
  match tokens with
  | .text key :: rest =>
    match skipSpace rest with
    | .equals :: rest => do
      let (value, rest) ← value (skipSpace rest)
      return (⟨some key, value⟩, rest)
    | _ => argument
  | _ => argument

def beginsEntry : List Token → Bool
  | .text _ :: _ | .number _ :: _ | .keyword _ :: _ | .openParen :: _ => true
  | _ => false

/-- An entry, behind others that are taken out.  `fuel` bounds the number of slashdashes. -/
def nextEntry (fuel : Nat) (tokens : List Token) : Option (Entry × List Token) :=
  match fuel with
  | 0 => none
  | fuel + 1 =>
    match tokens with
    | .slashdash :: rest => do
      let (_, rest) ← nextEntry fuel (skipLines rest)
      if rest.head? = some .space then nextEntry fuel (skipSpace rest) else none
    | _ => entry tokens

/-- Entries, each behind space.  One behind a slashdash is taken out, with those that are taken out
in front of it.  `fuel` bounds their number. -/
def entries (fuel : Nat) (tokens : List Token) : Option (List Entry × List Token) :=
  match fuel with
  | 0 => none
  | fuel + 1 =>
    if tokens.head? = some .space then
      match skipSpace tokens with
      | .slashdash :: rest =>
        match skipLines rest with
        | .openBrace :: _ => some ([], tokens)
        | rest => do
          let (_, rest) ← nextEntry fuel rest
          entries fuel rest
      | rest =>
        if beginsEntry rest then do
          let (first, rest) ← entry rest
          let (more, rest) ← entries fuel rest
          return (first :: more, rest)
        else some ([], tokens)
    else some ([], tokens)

/-- What follows the opening brace of a block that comes next and is taken out. -/
def removedBlock? (tokens : List Token) : Option (List Token) :=
  match skipSpace tokens with
  | .slashdash :: rest =>
    match skipLines rest with
    | .openBrace :: rest => some rest
    | _ => none
  | _ => none

/-- What follows the end of a node, if there is one. -/
def terminator? : List Token → Option (List Token)
  | [] => some []
  | .newline :: rest | .comment :: rest | .semicolon :: rest => some rest
  | _ => none

/-! `fuel` bounds the nesting of calls, which no token takes deeper by more than two. -/

mutual

/-- Nodes, up to the end or to a brace that no block begun here ends.  Only the last of them may
have no terminator. -/
def nodes (fuel : Nat) (tokens : List Token) : Option (List Node × List Token) :=
  match fuel with
  | 0 => none
  | fuel + 1 => do
    match ← skipRemoved fuel tokens with
    | [] => return ([], [])
    | .closeBrace :: rest => return ([], .closeBrace :: rest)
    | rest =>
      let (first, rest) ← node fuel rest
      match terminator? rest with
      | some rest =>
        let (more, rest) ← nodes fuel rest
        return (first :: more, rest)
      | none => return ([first], ← skipRemoved fuel rest)

/-- Skips what may stand between nodes, and nodes that are taken out.  Those have no terminator. -/
def skipRemoved (fuel : Nat) (tokens : List Token) : Option (List Token) :=
  match fuel with
  | 0 => none
  | fuel + 1 =>
    match skipLines tokens with
    | .slashdash :: rest => do
      let (_, rest) ← node fuel (skipLines rest)
      skipRemoved fuel rest
    | rest => some rest

/-- A node up to its terminator.  Around its block others may be taken out. -/
def node (fuel : Nat) (tokens : List Token) : Option (Node × List Token) :=
  match fuel with
  | 0 => none
  | fuel + 1 => do
    match ← skipAnnotation tokens with
    | .text name :: rest =>
      let (entries, rest) ← entries (rest.length + 1) rest
      let rest ← if rest.head? = some .space then skipBlocks fuel rest else some rest
      match skipSpace rest with
      | .openBrace :: rest =>
        let (children, rest) ← block fuel rest
        return (.mk name entries children, skipSpace (← skipBlocks fuel rest))
      | rest => return (.mk name entries [], rest)
    | _ => none

/-- Skips blocks that are taken out, with space between them. -/
def skipBlocks (fuel : Nat) (tokens : List Token) : Option (List Token) :=
  match fuel with
  | 0 => none
  | fuel + 1 =>
    match removedBlock? tokens with
    | none => some tokens
    | some rest => do
      let (_, rest) ← block fuel rest
      if rest.head? = some .space then skipBlocks fuel rest else some rest

/-- The nodes of a block behind its opening brace. -/
def block (fuel : Nat) (tokens : List Token) : Option (List Node × List Token) :=
  match fuel with
  | 0 => none
  | fuel + 1 => do
    let (children, rest) ← nodes fuel tokens
    match rest with
    | .closeBrace :: rest => return (children, rest)
    | _ => none

end

/-- The nodes of a document. -/
def parse? (text : String) : Option (List Node) := do
  let tokens ← Token.ofText? text
  let (nodes, rest) ← nodes (2 * tokens.length + 4) tokens
  if rest.isEmpty then some nodes else none

end Document

end ToolSwitch.Kdl
