/-!
What a rule schema declares: the rule, and the properties that become tool switches.  An attribute
that is absent is kept apart from an empty one, although both mean the empty text.
-/

namespace ToolSwitch.Schema

structure Rule where
  name : Option String
  switchPrefix : Option String
  deriving DecidableEq, Repr

namespace Rule

def title (rule : Rule) : String :=
  rule.name.getD ""

/-- What stands before each of the rule's switches. -/
def lead (rule : Rule) : String :=
  rule.switchPrefix.getD ""

end Rule

/-- A switch as it is passed to the tool.  A property without a switch of its own passes nothing,
not even what leads the others. -/
def composeSwitch (lead : String) (raw : Option String) : String :=
  match raw with
  | none => ""
  | some text => if text = "" then "" else lead ++ text

inductive Kind where
  | stringList
  | bool
  | int
  | enum
  deriving DecidableEq, Repr

namespace Kind

def all : List Kind :=
  [.stringList, .bool, .int, .enum]

theorem mem_all (kind : Kind) : kind ∈ all := by
  cases kind <;> decide

/-- How reports name a kind. -/
def label : Kind → String
  | .stringList => "StringList"
  | .bool => "Bool"
  | .int => "Int"
  | .enum => "Enum"

/-- The name of the element that declares a property of a kind. -/
def tag : Kind → String
  | .stringList => "StringListProperty"
  | .bool => "BoolProperty"
  | .int => "IntProperty"
  | .enum => "EnumProperty"

end Kind

/-- What every property may say about itself. -/
structure Info where
  name : Option String
  displayName : Option String
  description : Option String
  deriving DecidableEq, Repr

def Info.title (info : Info) : String :=
  info.name.getD ""

/-- One of the values an enum property chooses from. -/
structure Choice where
  name : Option String
  switch : Option String
  deriving DecidableEq, Repr

def Choice.title (choice : Choice) : String :=
  choice.name.getD ""

/-- The switches of a property, which its kind decides on. -/
inductive Switches where
  | stringList (switch : Option String)
  | bool (switch reverse : Option String)
  | int (switch : Option String)
  | enum (choices : List Choice)
  deriving DecidableEq, Repr

def Switches.kind : Switches → Kind
  | .stringList _ => .stringList
  | .bool _ _ => .bool
  | .int _ => .int
  | .enum _ => .enum

structure Property where
  info : Info
  switches : Switches
  deriving DecidableEq, Repr

namespace Property

def kind (property : Property) : Kind :=
  property.switches.kind

def title (property : Property) : String :=
  property.info.title

end Property

end ToolSwitch.Schema

namespace ToolSwitch

open ToolSwitch.Schema

structure RuleSchema where
  rule : Rule
  properties : List Property
  deriving DecidableEq, Repr

end ToolSwitch
