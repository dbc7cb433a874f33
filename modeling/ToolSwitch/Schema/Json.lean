import ToolSwitch.Json.Text
import ToolSwitch.Schema.Property

/-!
Schemas as JSON.  An attribute that is absent has no field, and a field that is `null` stands for an
absent attribute.  Fields of other names are passed over; a field of the schema's own may stand
once.
-/

namespace ToolSwitch.Schema

open ToolSwitch.Json

/-- A field for an attribute that is present. -/
def optionalField (key : String) (text : Option String) : List (String × Value) :=
  (text.map fun text => (key, Value.string text)).toList

namespace Rule

def toJson (rule : Rule) : Value :=
  .object (optionalField "name" rule.name ++ optionalField "switchPrefix" rule.switchPrefix)

end Rule

namespace Choice

def toJson (choice : Choice) : Value :=
  .object (optionalField "name" choice.name ++ optionalField "switch" choice.switch)

end Choice

def Kind.key : Kind → String
  | .stringList => "stringList"
  | .bool => "bool"
  | .int => "int"
  | .enum => "enum"

def Kind.ofKey? (key : String) : Option Kind :=
  Kind.all.find? (·.key = key)

namespace Info

def fields (info : Info) : List (String × Value) :=
  optionalField "name" info.name ++ optionalField "displayName" info.displayName ++
    optionalField "description" info.description

end Info

namespace Switches

def fields : Switches → List (String × Value)
  | .stringList switch | .int switch => optionalField "switch" switch
  | .bool switch reverse => optionalField "switch" switch ++ optionalField "reverseSwitch" reverse
  | .enum choices => [("values", .array (choices.map Choice.toJson))]

end Switches

namespace Property

def toJson (property : Property) : Value :=
  .object (("kind", .string property.kind.key) :: property.info.fields ++ property.switches.fields)

end Property

/-! ### Reading -/

/-- The value of a field that may stand at most once. -/
def field? (fields : List (String × Value)) (key : String) : Option (Option Value) :=
  match fields.filter (·.1 = key) with
  | [] => some none
  | [(_, value)] => some (some value)
  | _ :: _ :: _ => none

def textOrNull? : Value → Option (Option String)
  | .null => some none
  | .string text => some (some text)
  | _ => none

/-- The text of a field that may be absent. -/
def textField? (fields : List (String × Value)) (key : String) : Option (Option String) := do
  match ← field? fields key with
  | none => some none
  | some value => textOrNull? value

/-- Two texts, as fields or as a list of exactly two. -/
def pair? (first second : String) : Value → Option (Option String × Option String)
  | .object fields => do return (← textField? fields first, ← textField? fields second)
  | .array [a, b] => do return (← textOrNull? a, ← textOrNull? b)
  | _ => none

def Rule.ofJson? (value : Value) : Option Rule := do
  let (name, switchPrefix) ← pair? "name" "switchPrefix" value
  return ⟨name, switchPrefix⟩

def Choice.ofJson? (value : Value) : Option Choice := do
  let (name, switch) ← pair? "name" "switch" value
  return ⟨name, switch⟩

def Info.ofFields? (fields : List (String × Value)) : Option Info := do
  return ⟨← textField? fields "name", ← textField? fields "displayName",
    ← textField? fields "description"⟩

def Switches.ofFields? (fields : List (String × Value)) : Kind → Option Switches
  | .stringList => do return .stringList (← textField? fields "switch")
  | .bool => do
    return .bool (← textField? fields "switch") (← textField? fields "reverseSwitch")
  | .int => do return .int (← textField? fields "switch")
  | .enum => do
    match ← field? fields "values" with
    | some (.array items) => return .enum (← items.mapM Choice.ofJson?)
    | _ => none

def Property.ofJson? : Value → Option Property
  | .object fields => do
    match ← field? fields "kind" with
    | some (.string key) =>
      let kind ← Kind.ofKey? key
      return ⟨← Info.ofFields? fields, ← Switches.ofFields? fields kind⟩
    | _ => none
  | _ => none

end ToolSwitch.Schema

namespace ToolSwitch.RuleSchema

open ToolSwitch.Json ToolSwitch.Schema

def toJson (schema : RuleSchema) : Value :=
  .object [("rule", schema.rule.toJson),
    ("properties", .array (schema.properties.map Property.toJson))]

/-- The text that shows a schema, or that there is none. -/
def show? (schema : Option RuleSchema) : String :=
  match schema with
  | some schema => schema.toJson.render
  | none => Value.null.render

/-- How deep a property's value may be nested. -/
def propertyDepth : Nat := 125

/-- A property among others.  All of it has to be plain, also the fields that are passed over. -/
def property? (value : Value) : Option Property :=
  if value.isPlain ∧ value.depth ≤ propertyDepth then Property.ofJson? value else none

def ofParts? (rule properties : Value) : Option RuleSchema := do
  let rule ← Rule.ofJson? rule
  match properties with
  | .array items => return ⟨rule, ← items.mapM property?⟩
  | _ => none

/-- A schema, as fields or as a list of exactly two. -/
def ofJson? : Value → Option RuleSchema
  | .object fields => do
    match ← field? fields "rule", ← field? fields "properties" with
    | some rule, some properties => ofParts? rule properties
    | _, _ => none
  | .array [rule, properties] => ofParts? rule properties
  | _ => none

/-- The schema that a JSON text describes. -/
def parse? (text : String) : Option RuleSchema := do
  ofJson? (← Text.parse text)

end ToolSwitch.RuleSchema
