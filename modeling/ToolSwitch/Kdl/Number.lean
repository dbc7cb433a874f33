import ToolSwitch.Kdl.Character

/-!
Numbers: decimal with fraction and exponent, or whole in base 16, 8 or 2.  Digits may be set apart
by underscores behind the first.
-/

namespace ToolSwitch.Kdl.Number

open Character

/-- The bound on the magnitude of a whole number. -/
def bound : Nat := Nat.pow 2 127

def digit? (base : Nat) (c : Char) : Option Nat :=
  (hexValue? c).filter (· < base)

def isDigit (base : Nat) (c : Char) : Bool :=
  (digit? base c).isSome

/-- The value of digits, of which there is at least one, and what follows them. -/
def whole (base : Nat) : List Char → Option (Nat × List Char)
  | [] => none
  | c :: rest =>
    if isDigit base c then
      let isPart (d : Char) := isDigit base d || d = '_'
      let digits := c :: rest.takeWhile isPart
      let value := digits.foldl (fun n d => ((digit? base d).map (n * base + ·)).getD n) 0
      if value < bound then some (value, rest.dropWhile isPart) else none
    else none

def dropSign : List Char → List Char
  | '+' :: rest | '-' :: rest => rest
  | text => text

def fraction : List Char → Option (List Char)
  | '.' :: rest => Prod.snd <$> whole 10 rest
  | text => some text

def exponent : List Char → Option (List Char)
  | 'e' :: rest | 'E' :: rest => Prod.snd <$> whole 10 (dropSign rest)
  | text => some text

/-- What follows the number that a text begins with. -/
def skip (text : List Char) : Option (List Char) :=
  match dropSign text with
  | '0' :: 'x' :: rest | '0' :: 'X' :: rest => Prod.snd <$> whole 16 rest
  | '0' :: 'o' :: rest | '0' :: 'O' :: rest => Prod.snd <$> whole 8 rest
  | '0' :: 'b' :: rest | '0' :: 'B' :: rest => Prod.snd <$> whole 2 rest
  | text => do
    let (_, rest) ← whole 10 text
    exponent (← fraction rest)

/-- Whether a text can only begin with a number, if it begins with anything. -/
def begins (text : List Char) : Bool :=
  ((dropSign text).head?.map (isDigit 10)).getD false

end ToolSwitch.Kdl.Number
