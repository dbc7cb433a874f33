import ToolSwitch.CSharp.Line
import ToolSwitch.Schema.Property

/-!
The accessor of a property: a C# property whose getter reads the active switch and whose setter
replaces it.  Everything a schema says goes into string literals, except for the identifier, which
stands in the first line as it is.
-/

namespace ToolSwitch

open ToolSwitch.CSharp ToolSwitch.Schema

/-- What getters return: the value of the property's own kind, or always the stored list. -/
inductive Getters where
  | typed
  | verbatim
  deriving DecidableEq, Repr

namespace Accessor

def valueType : Kind → String
  | .stringList => "string[]"
  | .bool => "bool"
  | .int => "int"
  | .enum => "string"

/-- How the switch registry names a kind. -/
def switchType : Kind → String
  | .stringList => "StringArray"
  | .bool => "Boolean"
  | .int => "Integer"
  | .enum => "String"

/-- The member of a switch that holds a value of a kind. -/
def payload : Kind → String
  | .stringList => "StringList"
  | .bool => "BooleanValue"
  | .int => "Number"
  | .enum => "Value"

/-- The member that a getter returns. -/
def getterMember : Getters → Kind → String
  | .typed, kind => payload kind
  | .verbatim, _ => "StringList"

/-- What a getter returns while the property is not set. -/
def getterDefault : Getters → Kind → String
  | _, .stringList => "null"
  | .typed, .bool => "false"
  | .typed, .int => "0"
  | .typed, .enum => "null"
  | .verbatim, _ => "false"

/-- An assignment of a text to a member of the new switch. -/
def assign (member value : String) : Line :=
  Line.indent 3 [.code s!"toolSwitch.{member} = ", .literal value, .code ";"]

def choiceRow (lead : String) (choice : Choice) : Line :=
  [.code "new string[2] \x7b ", .literal choice.title, .code ", ",
    .literal (composeSwitch lead choice.switch), .code " \x7d"]

/-- The pairs of name and switch that an enum's value is looked up in. -/
def choiceTable (lead : String) (choices : List Choice) : List Line :=
  [Line.indent 3 [.code s!"string[][] switchMap = new string[{choices.length}][] \x7b"],
    [Piece.code ","].intercalate (choices.map (choiceRow lead)),
    [.code "\x7d"],
    [.code ";"]]

/-- The statements that tell the new switch what to pass to the tool. -/
def setup (lead : String) (property : Property) : List Line :=
  match property.switches with
  | .stringList switch => [assign "SwitchValue" (composeSwitch lead switch)]
  | .bool switch reverse =>
    [assign "SwitchValue" (composeSwitch lead switch),
      assign "ReverseSwitchValue" (composeSwitch lead reverse)]
  | .int switch =>
    [Line.indent 3 [.code "if (ValidateInteger(", .literal property.title,
        .code ", int.MinValue, int.MaxValue, value))"],
      Line.indent 3 [.code "\x7b"],
      Line.indent 4 [.code "toolSwitch.IsValid = true;"],
      Line.indent 3 [.code "\x7d"],
      Line.indent 3 [.code "else"],
      Line.indent 3 [.code "\x7b"],
      Line.indent 4 [.code "toolSwitch.IsValid = false;"],
      Line.indent 3 [.code "\x7d"],
      assign "SwitchValue" (composeSwitch lead switch)]
  | .enum choices =>
    choiceTable lead choices ++
      [Line.indent 3 [.code "toolSwitch.SwitchValue = ReadSwitchMap(", .literal property.title,
        .code ", switchMap, value);"]]

def getter (getters : Getters) (property : Property) : List Line :=
  [Line.indent 2 [.code "get"],
    Line.indent 2 [.code "\x7b"],
    Line.indent 3 [.code "if (IsPropertySet(", .literal property.title, .code "))"],
    Line.indent 3 [.code "\x7b"],
    Line.indent 4 [.code "return base.ActiveToolSwitches[", .literal property.title,
      .code s!"].{getterMember getters property.kind};"],
    Line.indent 3 [.code "\x7d"],
    [],
    Line.indent 3 [.code s!"return {getterDefault getters property.kind};"],
    Line.indent 2 [.code "\x7d"]]

def setter (lead : String) (property : Property) : List Line :=
  [Line.indent 2 [.code "set"],
    Line.indent 2 [.code "\x7b"],
    Line.indent 3 [.code "base.ActiveToolSwitches.Remove(", .literal property.title, .code ");"],
    Line.indent 3 [.code "ToolSwitch toolSwitch = new ToolSwitch(ToolSwitchType.",
      .code s!"{switchType property.kind});"],
    assign "DisplayName" (property.info.displayName.getD ""),
    assign "Description" (property.info.description.getD ""),
    Line.indent 3 [.code "toolSwitch.ArgumentRelationList = new ArrayList();"]] ++
  setup lead property ++
  [assign "Name" property.title,
    Line.indent 3 [.code s!"toolSwitch.{payload property.kind} = value;"],
    Line.indent 3 [.code "base.ActiveToolSwitches.Add(", .literal property.title,
      .code ", toolSwitch);"],
    Line.indent 3 [.code "AddActiveSwitchToolValue(toolSwitch);"],
    Line.indent 2 [.code "\x7d"]]

/-- The lines behind the first. -/
def body (getters : Getters) (lead : String) (property : Property) : List Line :=
  [Line.indent 1 [.code "\x7b"]] ++ getter getters property ++ setter lead property ++
    [Line.indent 1 [.code "\x7d"]]

/-- The first line up to the identifier. -/
def declarator (kind : Kind) : String :=
  s!"    public virtual {valueType kind} "

/-- The text of an accessor, without a line break at its end. -/
def render (getters : Getters) (lead : String) (property : Property) : String :=
  declarator property.kind ++ property.title ++
    String.join ((body getters lead property).map fun line => "\n" ++ line.text)

end Accessor

end ToolSwitch
