import ToolSwitch.Text.Utf8

/-!
Qualified names of elements and attributes.  A name is whatever bytes stand in its place, so it need
not be text; two names are equal if their bytes are.
-/

namespace ToolSwitch.Markup

open ToolSwitch.Text

structure Name where
  bytes : Bytes
  deriving DecidableEq, Repr

namespace Name

def ofString (s : String) : Name :=
  ⟨Utf8.encode s⟩

/-- The name for display. -/
def text (name : Name) : String :=
  Utf8.readLossy name.bytes

/-- The name for display where bytes that are not text show as nothing. -/
def textOrEmpty (name : Name) : String :=
  (Utf8.read name.bytes).toOption.getD ""

end Name

/-- The bytes that separate the parts of a tag. -/
def isSpace (b : UInt8) : Bool :=
  b == 0x20 || b == 0x09 || b == 0x0A || b == 0x0D

end ToolSwitch.Markup
