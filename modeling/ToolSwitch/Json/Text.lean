import ToolSwitch.Json.Value

/-!
Reading JSON text.  Every function takes what is left of the text and returns what it leaves.
-/

namespace ToolSwitch.Json.Text

abbrev Read (α : Type) := List Char → Option (α × List Char)

def isBlank (c : Char) : Bool :=
  c = ' ' || c = '\t' || c = '\n' || c = '\r'

def skipBlank (text : List Char) : List Char :=
  text.dropWhile isBlank

def hexValue? (c : Char) : Option Nat :=
  if '0' ≤ c ∧ c ≤ '9' then some (c.toNat - '0'.toNat)
  else if 'a' ≤ c ∧ c ≤ 'f' then some (c.toNat - 'a'.toNat + 10)
  else if 'A' ≤ c ∧ c ≤ 'F' then some (c.toNat - 'A'.toNat + 10)
  else none

def hex4 : Read Nat
  | a :: b :: c :: d :: rest => do
    let a ← hexValue? a
    let b ← hexValue? b
    let c ← hexValue? c
    let d ← hexValue? d
    return (((a * 16 + b) * 16 + c) * 16 + d, rest)
  | _ => none

def simpleEscape? : Char → Option Char
  | '"' => some '"'
  | '\\' => some '\\'
  | '/' => some '/'
  | 'b' => some '\x08'
  | 'f' => some '\x0C'
  | 'n' => some '\n'
  | 'r' => some '\r'
  | 't' => some '\t'
  | _ => none

/-- A unit of a string's text: a character, or half of a surrogate pair. -/
inductive Unit16 where
  | char (c : Char)
  | high (value : Nat)
  | low (value : Nat)

def Unit16.ofCode (code : Nat) : Unit16 :=
  if 0xD800 ≤ code ∧ code < 0xDC00 then .high (code - 0xD800)
  else if 0xDC00 ≤ code ∧ code < 0xE000 then .low (code - 0xDC00)
  else .char (Char.ofNat code)

/-- The units of a string up to its closing quote, which is dropped. -/
def units : Read (List Unit16)
  | [] => none
  | '"' :: rest => some ([], rest)
  | '\\' :: 'u' :: a :: b :: c :: d :: rest => do
    let (code, _) ← hex4 [a, b, c, d]
    let (more, rest) ← units rest
    return (.ofCode code :: more, rest)
  | '\\' :: e :: rest => do
    let c ← simpleEscape? e
    let (more, rest) ← units rest
    return (.char c :: more, rest)
  | c :: rest =>
    if c.toNat < 0x20 ∨ c = '\\' then none
    else do
      let (more, rest) ← units rest
      return (.char c :: more, rest)

/-- The text that units spell, if each half of a surrogate pair has its other half. -/
def spell? : List Unit16 → Option (List Char)
  | [] => some []
  | .char c :: rest => (c :: ·) <$> spell? rest
  | .high h :: .low l :: rest => (Char.ofNat (0x10000 + h * 0x400 + l) :: ·) <$> spell? rest
  | .high _ :: _ | .low _ :: _ => none

/-- A string behind its opening quote. -/
def string : Read (Option String) := fun text => do
  let (read, rest) ← units text
  return (String.ofList <$> spell? read, rest)

/-- Digits, of which there is at least one. -/
def digits : Read (List Char) := fun text =>
  match text.takeWhile Char.isDigit with
  | [] => none
  | ds => some (ds, text.dropWhile Char.isDigit)

/-- Digits without a zero before others. -/
def whole : Read (List Char)
  | '0' :: rest => if (rest.head?.map Char.isDigit).getD false then none else some (['0'], rest)
  | text => digits text

def fraction : Read (List Char)
  | '.' :: rest => do
    let (ds, rest) ← digits rest
    return ('.' :: ds, rest)
  | text => some ([], text)

def exponent (text : List Char) : Option (List Char × List Char) :=
  match text with
  | mark :: rest =>
    if mark = 'e' ∨ mark = 'E' then
      match rest with
      | sign :: more =>
        if sign = '+' ∨ sign = '-' then do
          let (ds, rest) ← digits more
          return (mark :: sign :: ds, rest)
        else do
          let (ds, rest) ← digits rest
          return (mark :: ds, rest)
      | [] => none
    else some ([], text)
  | [] => some ([], [])

def number : Read String := fun text => do
  let (sign, text) :=
    match text with
    | '-' :: rest => (['-'], rest)
    | _ => ([], text)
  let (whole, text) ← whole text
  let (fraction, text) ← fraction text
  let (exponent, text) ← exponent text
  return (String.ofList (sign ++ whole ++ fraction ++ exponent), text)

def literal (word : String) (value : Value) : Read Value := fun text =>
  if word.toList.isPrefixOf text then some (value, text.drop word.length) else none

/-! `fuel` bounds the nesting of calls; twice the length of the text is enough. -/

mutual

def value (fuel : Nat) (text : List Char) : Option (Value × List Char) :=
  match fuel with
  | 0 => none
  | fuel + 1 =>
    match skipBlank text with
    | '"' :: rest => do
      let (text, rest) ← string rest
      return ((text.map Value.string).getD .broken, rest)
    | '[' :: rest =>
      match skipBlank rest with
      | ']' :: rest => some (.array [], rest)
      | rest => do
        let (items, rest) ← items fuel rest
        return (.array items, rest)
    | '\x7b' :: rest =>
      match skipBlank rest with
      | '\x7d' :: rest => some (.object [], rest)
      | rest => do
        let (fields, rest) ← fields fuel rest
        return ((fields.map Value.object).getD .broken, rest)
    | 'n' :: rest => literal "ull" .null rest
    | 't' :: rest => literal "rue" (.bool true) rest
    | 'f' :: rest => literal "alse" (.bool false) rest
    | rest => do
      let (text, rest) ← number rest
      return (.number text, rest)

/-- Items up to the closing bracket, which is dropped. -/
def items (fuel : Nat) (text : List Char) : Option (List Value × List Char) :=
  match fuel with
  | 0 => none
  | fuel + 1 => do
    let (item, rest) ← value fuel text
    match skipBlank rest with
    | ',' :: rest =>
      let (more, rest) ← items fuel rest
      return (item :: more, rest)
    | ']' :: rest => return ([item], rest)
    | _ => none

/-- Fields up to the closing brace, which is dropped, if all their keys are text. -/
def fields (fuel : Nat) (text : List Char) :
    Option (Option (List (String × Value)) × List Char) :=
  match fuel with
  | 0 => none
  | fuel + 1 =>
    match skipBlank text with
    | '"' :: rest => do
      let (key, rest) ← string rest
      match skipBlank rest with
      | ':' :: rest =>
        let (item, rest) ← value fuel rest
        let field := key.map (·, item)
        match skipBlank rest with
        | ',' :: rest =>
          let (more, rest) ← fields fuel rest
          return (field.bind fun field => (field :: ·) <$> more, rest)
        | '\x7d' :: rest => return (field.map ([·]), rest)
        | _ => none
      | _ => none
    | _ => none

end

/-- The value that a whole text is, with nothing but white space around it. -/
def parse (text : String) : Option Value := do
  let text := text.toList
  let (result, rest) ← value (2 * text.length + 2) text
  if (skipBlank rest).isEmpty then some result else none

end ToolSwitch.Json.Text
