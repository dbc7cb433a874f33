import ToolSwitch.Kdl.Number
import ToolSwitch.Kdl.Quoted

/-!
A KDL document as a sequence of tokens.
-/

namespace ToolSwitch.Kdl

open Character

inductive Token where
  /-- White space inside a line, a comment in the middle of one, or a line that goes on. -/
  | space
  | newline
  /-- A comment to the end of its line. -/
  | comment
  | text (value : String)
  | number (literal : String)
  | keyword (word : String)
  | openParen
  | closeParen
  | openBrace
  | closeBrace
  | equals
  | semicolon
  /-- The mark that takes out what comes next. -/
  | slashdash
  deriving DecidableEq, Repr

namespace Token

def keywords : List String :=
  ["true", "false", "null", "inf", "-inf", "nan"]

/-- Words that are refused as strings without quotes, since they look like keywords. -/
def reserved : List String :=
  ["true", "false", "null", "inf", "nan"]

/-- What follows a comment whose opening has been read `depth` times more than its end. -/
def skipComment : Nat → List Char → Option (List Char)
  | _, [] => none
  | depth, '/' :: '*' :: rest => skipComment (depth + 1) rest
  | depth, '*' :: '/' :: rest => if depth ≤ 1 then some rest else skipComment (depth - 1) rest
  | depth, _ :: rest => skipComment depth rest

/-- What follows a comment to the end of the line, and the line. -/
def skipLine (text : List Char) : List Char :=
  let rest := text.dropWhile (!isNewline ·)
  (Quoted.dropNewline? rest).getD rest

/-- Whether a word can stand without quotes.  With a dot it must not look like a number. -/
def isBare (word : List Char) : Bool :=
  let digitNext (text : List Char) := (text.head?.map (Number.isDigit 10)).getD false
  match Number.dropSign word with
  | '.' :: rest => !digitNext rest
  | rest => !digitNext rest && !reserved.contains (String.ofList word)

/-- White space behind a backslash, up to the end of the line.  `fuel` bounds the comments. -/
def continuation (fuel : Nat) (text : List Char) : Option (List Char) :=
  match fuel with
  | 0 => none
  | fuel + 1 =>
    match text.dropWhile isSpace with
    | [] => some []
    | '/' :: '/' :: rest => some (skipLine rest)
    | '/' :: '*' :: rest => do continuation fuel (← skipComment 1 rest)
    | rest => Quoted.dropNewline? rest

/-- What begins with a number sign: a raw string or a keyword, which ends by itself. -/
def marked (text : List Char) : Option (Token × List Char) :=
  let signs := (text.takeWhile (· = '#')).length
  match text.drop signs with
  | '"' :: rest => do
    let (value, rest) ← Quoted.rawString signs rest
    return (.text value, rest)
  | rest =>
    if signs = 1 then do
      let word ← keywords.find? (·.toList.isPrefixOf rest)
      return (.keyword word, rest.drop word.length)
    else none

/-- What begins like a word. -/
def bare (text : List Char) : Option (Token × List Char) :=
  if Number.begins text then do
    let rest ← Number.skip text
    return (.number (String.ofList (text.take (text.length - rest.length))), rest)
  else
    let word := text.takeWhile isIdentifier
    if word.isEmpty ∨ !isBare word then none
    else some (.text (String.ofList word), text.dropWhile isIdentifier)

/-- The first token and what follows it. -/
def next (c : Char) (rest : List Char) : Option (Token × List Char) :=
  match c, rest with
  | '(', _ => some (.openParen, rest)
  | ')', _ => some (.closeParen, rest)
  | '\x7b', _ => some (.openBrace, rest)
  | '\x7d', _ => some (.closeBrace, rest)
  | '=', _ => some (.equals, rest)
  | ';', _ => some (.semicolon, rest)
  | '/', '/' :: rest => some (.comment, skipLine rest)
  | '/', '*' :: rest => (.space, ·) <$> skipComment 1 rest
  | '/', '-' :: rest => some (.slashdash, rest)
  | '\\', _ => (.space, ·) <$> continuation (rest.length + 1) rest
  | '"', _ => do
    let (value, rest) ← Quoted.string rest
    return (.text value, rest)
  | '#', _ => marked (c :: rest)
  | _, _ =>
    if isSpace c then some (.space, rest)
    else
      match Quoted.dropNewline? (c :: rest) with
      | some rest => some (.newline, rest)
      | none => bare (c :: rest)

/-- The tokens of a text.  Each takes at least one character, so its length is fuel enough. -/
def scan : Nat → List Char → Option (List Token)
  | _, [] => some []
  | 0, _ :: _ => none
  | fuel + 1, c :: rest => do
    let (token, rest) ← next c rest
    (token :: ·) <$> scan fuel rest

/-- The tokens of a document, which may begin with a byte order mark. -/
def ofText? (text : String) : Option (List Token) :=
  let text := text.toList
  let text := if text.head? = some '\uFEFF' then text.tail else text
  scan text.length text

end Token

end ToolSwitch.Kdl
