import ToolSwitch.Kdl.Character

/-!
Strings in quotes: with escapes or raw, on one line or on several.  A string on several lines loses
the indentation of its last line, which holds nothing else.
-/

namespace ToolSwitch.Kdl.Quoted

open Character

/-- A mark of a string before indentation is removed.  What an escape stands for is never taken for
indentation or for the end of a line. -/
inductive Mark where
  | plain (c : Char)
  | escaped (c : Char)
  | newline

def simpleEscape? : Char → Option Char
  | '"' => some '"'
  | '\\' => some '\\'
  | 'b' => some '\x08'
  | 'f' => some '\x0C'
  | 'n' => some '\n'
  | 'r' => some '\r'
  | 't' => some '\t'
  | 's' => some ' '
  | _ => none

/-- The character with the code that hexadecimal digits spell. -/
def coded? (digits : List Char) : Option Char := do
  let code ← digits.foldlM (fun n d => (n * 16 + ·) <$> hexValue? d) 0
  if digits.isEmpty ∨ 6 < digits.length ∨ ¬ code.isValidChar then none
  else some (Char.ofNat code)

inductive State where
  | plain
  /-- Behind a backslash and white space, more of which is dropped. -/
  | dropping
  | escape
  /-- Behind `\u`, with the digits so far if the brace is open. -/
  | code (digits : Option (List Char))

/-- The marks of a string and what follows it.  Only in a string on several lines may a line end,
and only there it takes three quotes to end the string. -/
def marks (multiline : Bool) : State → List Char → Option (List Mark × List Char)
  | _, [] => none
  | .escape, c :: rest =>
    if c = 'u' then marks multiline (.code none) rest
    else if isSpace c ∨ isNewline c then marks multiline .dropping rest
    else do
      let e ← simpleEscape? c
      let (more, rest) ← marks multiline .plain rest
      return (.escaped e :: more, rest)
  | .code none, c :: rest => if c = '\x7b' then marks multiline (.code (some [])) rest else none
  | .code (some digits), c :: rest =>
    if c = '\x7d' then do
      let e ← coded? digits
      let (more, rest) ← marks multiline .plain rest
      return (.escaped e :: more, rest)
    else if digits.length < 6 then marks multiline (.code (some (digits ++ [c]))) rest
    else none
  | .plain, '\r' :: '\n' :: rest =>
    if multiline then do
      let (more, rest) ← marks multiline .plain rest
      return (.newline :: more, rest)
    else none
  | .plain, '"' :: '"' :: '"' :: rest =>
    if multiline then some ([], rest) else some ([], '"' :: '"' :: rest)
  | .dropping, '"' :: '"' :: '"' :: rest =>
    if multiline then some ([], rest) else some ([], '"' :: '"' :: rest)
  | state, c :: rest =>
    let dropping : Bool :=
      match state with
      | .dropping => true
      | _ => false
    if dropping ∧ (isSpace c ∨ isNewline c) then marks multiline .dropping rest
    else if c = '\\' then marks multiline .escape rest
    else if c = '"' ∧ !multiline then some ([], rest)
    else if isForbidden c ∨ (isNewline c ∧ !multiline) then none
    else do
      let (more, rest) ← marks multiline .plain rest
      return ((if isNewline c then .newline else .plain c) :: more, rest)

/-- The marks of a raw string, which ends at quotes followed by the number signs it began with. -/
def rawMarks (multiline : Bool) (close : List Char) : List Char → Option (List Mark × List Char)
  | [] => none
  | '\r' :: '\n' :: rest =>
    if multiline then do
      let (more, rest) ← rawMarks multiline close rest
      return (.newline :: more, rest)
    else none
  | c :: rest =>
    if close.isPrefixOf (c :: rest) then some ([], rest.drop (close.length - 1))
    else if isForbidden c ∨ (isNewline c ∧ !multiline) then none
    else do
      let (more, rest) ← rawMarks multiline close rest
      return ((if isNewline c then .newline else .plain c) :: more, rest)

def Mark.char : Mark → Char
  | .plain c | .escaped c => c
  | .newline => '\n'

def splitLines : List Mark → List (List Mark)
  | [] => [[]]
  | .newline :: rest => [] :: splitLines rest
  | mark :: rest =>
    match splitLines rest with
    | [] => [[mark]]
    | line :: lines => (mark :: line) :: lines

/-- The white space that a line is made of, if it is made of nothing else. -/
def blank? (line : List Mark) : Option (List Char) :=
  line.mapM fun
    | .plain c => if isSpace c then some c else none
    | .escaped _ | .newline => none

/-- What a line holds behind an indentation. -/
def outdent? : List Char → List Mark → Option (List Mark)
  | [], line => some line
  | i :: indentation, .plain c :: line => if i = c then outdent? indentation line else none
  | _ :: _, _ => none

def lineText? (indentation : List Char) (line : List Mark) : Option (List Char) :=
  if (blank? line).isSome then some []
  else (List.map Mark.char) <$> outdent? indentation line

/-- The text of a string on several lines. -/
def multilineText? (marks : List Mark) : Option (List Char) := do
  match (splitLines marks).reverse with
  | [] => none
  | last :: before =>
    let indentation ← blank? last
    let lines ← before.reverse.mapM (lineText? indentation)
    return ['\n'].intercalate lines

/-- What follows a line end. -/
def dropNewline? : List Char → Option (List Char)
  | '\r' :: '\n' :: rest => some rest
  | c :: rest => if isNewline c then some rest else none
  | [] => none

/-- Behind an opening quote: what follows if the string is on several lines. -/
def multilineStart? : List Char → Option (List Char)
  | '"' :: '"' :: rest => dropNewline? rest
  | _ => none

/-- A string behind its opening quote, and what follows it. -/
def string (text : List Char) : Option (String × List Char) :=
  match multilineStart? text with
  | some text => do
    let (marks, rest) ← marks true .plain text
    return (String.ofList (← multilineText? marks), rest)
  | none => do
    let (marks, rest) ← marks false .plain text
    return (String.ofList (marks.map Mark.char), rest)

/-- The text of a raw string and what follows it, behind its number signs and opening quote. -/
def rawText (signs : Nat) (text : List Char) : Option (List Char × List Char) :=
  let close := List.replicate signs '#'
  match multilineStart? text with
  | some text => do
    let (marks, rest) ← rawMarks true (['"', '"', '"'] ++ close) text
    return (← multilineText? marks, rest)
  | none => do
    let (marks, rest) ← rawMarks false ('"' :: close) text
    return (marks.map Mark.char, rest)

/-- A raw string behind its number signs and opening quote, and what follows it.  No raw string is a
lone quote: on one line it would look like the opening of a string on several. -/
def rawString (signs : Nat) (text : List Char) : Option (String × List Char) := do
  let (text, rest) ← rawText signs text
  if text = ['"'] then none else some (String.ofList text, rest)

end ToolSwitch.Kdl.Quoted
