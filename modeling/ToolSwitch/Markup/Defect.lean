import ToolSwitch.Markup.Fault

/-!
What keeps a document from being a single well-formed element tree, and where.
-/

namespace ToolSwitch.Markup

/-- Markup that is sound by itself in a document that is not. -/
inductive Malformation where
  | secondRoot (name : String)
  | rawAngleBracket (key : String)
  | textOutsideRoot
  | cdataOutsideRoot
  deriving DecidableEq, Repr

def Malformation.message : Malformation → String
  | .secondRoot name => s!"second root element <{name}>"
  | .rawAngleBracket key => s!"`<` in value of attribute {key}"
  | .textOutsideRoot => "text outside the root element"
  | .cdataOutsideRoot => "CDATA outside the root element"

inductive Defect where
  | markup (fault : Fault)
  | malformed (malformation : Malformation)
  /-- The document ends inside the element of this name. -/
  | unclosed (name : String)
  deriving DecidableEq, Repr

/-- A defect and the byte offset it is reported at. -/
structure Flaw where
  defect : Defect
  offset : Nat
  deriving DecidableEq, Repr

end ToolSwitch.Markup
