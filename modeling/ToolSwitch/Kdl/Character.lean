/-!
The classes of characters in KDL documents.
-/

namespace ToolSwitch.Kdl.Character

/-- White space that does not end a line. -/
def isSpace (c : Char) : Bool :=
  c = '\t' || c = ' ' || c = '\u00A0' || c = '\u1680' || ('\u2000' ≤ c && c ≤ '\u200A') ||
    c = '\u202F' || c = '\u205F' || c = '\u3000'

def isNewline (c : Char) : Bool :=
  ('\n' ≤ c && c ≤ '\r') || c = '\u0085' || c = '\u2028' || c = '\u2029'

/-- Characters that may stand nowhere outside comments: controls, marks of writing direction, and a
byte order mark behind the start. -/
def isForbidden (c : Char) : Bool :=
  c < '\t' || ('\x0E' ≤ c && c < ' ') || c = '\u200E' || c = '\u200F' ||
    ('\u202A' ≤ c && c ≤ '\u202E') || ('\u2066' ≤ c && c ≤ '\u2069') || c = '\uFEFF'

def punctuation : List Char :=
  ['\\', '/', '(', ')', '\x7b', '\x7d', '[', ']', ';', '"', '#', '=']

/-- Characters of a string without quotes. -/
def isIdentifier (c : Char) : Bool :=
  !(isSpace c || isNewline c || isForbidden c || punctuation.contains c)

def hexValue? (c : Char) : Option Nat :=
  if '0' ≤ c ∧ c ≤ '9' then some (c.toNat - '0'.toNat)
  else if 'a' ≤ c ∧ c ≤ 'f' then some (c.toNat - 'a'.toNat + 10)
  else if 'A' ≤ c ∧ c ≤ 'F' then some (c.toNat - 'A'.toNat + 10)
  else none

end ToolSwitch.Kdl.Character
