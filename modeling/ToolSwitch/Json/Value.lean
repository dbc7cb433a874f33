/-!
JSON values and their text, laid out with two blanks for each level.
-/

namespace ToolSwitch.Json

inductive Value where
  | null
  | bool (value : Bool)
  /-- A number as it is written. -/
  | number (text : String)
  | string (text : String)
  /-- A string that is no text, since it has an escape for half of a surrogate pair, or an object
  with such a key. -/
  | broken
  | array (items : List Value)
  | object (fields : List (String × Value))
  deriving Inhabited

namespace Value

def hexDigit (n : Nat) : Char :=
  if n < 10 then Char.ofNat ('0'.toNat + n) else Char.ofNat ('a'.toNat + (n - 10))

def escapeChar (c : Char) : List Char :=
  if c = '"' then ['\\', '"']
  else if c = '\\' then ['\\', '\\']
  else if c = '\x08' then ['\\', 'b']
  else if c = '\x0C' then ['\\', 'f']
  else if c = '\n' then ['\\', 'n']
  else if c = '\r' then ['\\', 'r']
  else if c = '\t' then ['\\', 't']
  else if c.toNat < 0x20 then
    ['\\', 'u', '0', '0', hexDigit (c.toNat / 16), hexDigit (c.toNat % 16)]
  else [c]

/-- A string in quotes. -/
def quote (text : String) : String :=
  "\"" ++ String.ofList (text.toList.flatMap escapeChar) ++ "\""

def newline (level : Nat) : String :=
  "\n" ++ String.ofList (List.replicate (2 * level) ' ')

mutual

/-- The text of a value that begins on a line of the given level. -/
def pretty (level : Nat) : Value → String
  | null => "null"
  | bool true => "true"
  | bool false => "false"
  | number text => text
  | string text => quote text
  | broken => quote "\uFFFD"
  | array [] => "[]"
  | array (item :: items) =>
    "[" ++ newline (level + 1) ++ pretty (level + 1) item ++ prettyItems (level + 1) items ++
      newline level ++ "]"
  | object [] => "\x7b\x7d"
  | object ((key, value) :: fields) =>
    "\x7b" ++ newline (level + 1) ++ quote key ++ ": " ++ pretty (level + 1) value ++
      prettyFields (level + 1) fields ++ newline level ++ "\x7d"

/-- The items behind the first. -/
def prettyItems (level : Nat) : List Value → String
  | [] => ""
  | item :: items => "," ++ newline level ++ pretty level item ++ prettyItems level items

/-- The fields behind the first. -/
def prettyFields (level : Nat) : List (String × Value) → String
  | [] => ""
  | (key, value) :: fields =>
    "," ++ newline level ++ quote key ++ ": " ++ pretty level value ++ prettyFields level fields

end

def render (value : Value) : String :=
  value.pretty 0

mutual

/-- How deep arrays and objects are nested. -/
def depth : Value → Nat
  | array items => depthItems items + 1
  | object fields => depthFields fields + 1
  | null | bool _ | number _ | string _ | broken => 0

def depthItems : List Value → Nat
  | [] => 0
  | item :: items => max (depth item) (depthItems items)

def depthFields : List (String × Value) → Nat
  | [] => 0
  | (_, value) :: fields => max (depth value) (depthFields fields)

end

/-- The mantissa and the decimal exponent of a number as it is written. -/
def scientific (text : List Char) : Nat × Int :=
  let digits (ds : List Char) : Nat := ds.foldl (fun n d => n * 10 + (d.toNat - '0'.toNat)) 0
  let text := if text.head? = some '-' then text.tail else text
  let isMark (c : Char) := c = 'e' ∨ c = 'E'
  let mantissa := text.takeWhile (¬ isMark ·)
  let exponent := (text.dropWhile (¬ isMark ·)).drop 1
  let whole := mantissa.takeWhile (· ≠ '.')
  let fraction := (mantissa.dropWhile (· ≠ '.')).drop 1
  let power : Int :=
    match exponent with
    | '-' :: ds => - (digits ds : Int)
    | '+' :: ds => digits ds
    | ds => digits ds
  (digits (whole ++ fraction), power - fraction.length)

/-- Whether a number rounds to a finite one of double precision. -/
def isFinite (text : String) : Bool :=
  let (mantissa, power) := scientific text.toList
  let size := ((Nat.toDigits 10 mantissa).length : Int) + power
  if mantissa = 0 ∨ size < 300 then true
  else if 310 < size then false
  else
    let bound := Nat.pow 2 1024 - Nat.pow 2 970
    if 0 ≤ power then mantissa * Nat.pow 10 power.toNat < bound
    else mantissa < bound * Nat.pow 10 (-power).toNat

mutual

/-- Whether every number is finite and every string is text. -/
def isPlain : Value → Bool
  | null | bool _ | string _ => true
  | number text => isFinite text
  | broken => false
  | array items => isPlainItems items
  | object fields => isPlainFields fields

def isPlainItems : List Value → Bool
  | [] => true
  | item :: items => isPlain item && isPlainItems items

def isPlainFields : List (String × Value) → Bool
  | [] => true
  | (_, value) :: fields => isPlain value && isPlainFields fields

end

end Value

end ToolSwitch.Json
