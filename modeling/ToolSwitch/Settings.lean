import ToolSwitch.Kdl.Document
import ToolSwitch.Options

/-!
The settings file: options of the generator, schemas to read, and where to write to.  Nodes are
taken in order, and the first that is not sound is the one reported.
-/

namespace ToolSwitch

open ToolSwitch.Kdl ToolSwitch.Schema

/-- Where accessors are written to. -/
structure Target where
  folder : String
  extension : String
  deriving DecidableEq, Repr

def Target.default : Target :=
  ⟨"generated", "cs"⟩

structure Settings where
  options : Options
  /-- Files, directories and patterns. -/
  sources : List String
  target : Option Target
  deriving DecidableEq, Repr

namespace Settings

def default : Settings :=
  ⟨.default, [], none⟩

/-- The file that is looked for where none is named. -/
def fileName : String :=
  "switchgen.kdl"

/-- The text that a node gives as the value of a field. -/
def fieldText (field : String) (node : Node) : Except SettingsFault String :=
  match node.text? with
  | some text => .ok text
  | none => .error (.notString field)

def setOption (options : Options) (node : Node) : Except SettingsFault Options :=
  match node.name with
  | "scan-scope" => do
    return { options with scope := ← Scope.ofWord (← fieldText "scan-scope" node) }
  | "getters" => do
    return { options with getters := ← Getters.ofWord (← fieldText "getters" node) }
  | name => .error (.unknownGeneratorField name)

def setTarget (target : Target) (node : Node) : Except SettingsFault Target :=
  match node.name with
  | "dir" => do return { target with folder := ← fieldText "dir" node }
  | "extension" => do
    let text ← fieldText "extension" node
    return { target with extension := String.ofList (text.toList.dropWhile (· = '.')) }
  | name => .error (.unknownOutputField name)

/-- The settings read so far, and whether they hold the options' own block. -/
structure Progress where
  settings : Settings
  seenGenerator : Bool

def Progress.start : Progress :=
  ⟨.default, false⟩

def Progress.add (progress : Progress) (node : Node) : Except SettingsFault Progress :=
  let settings := progress.settings
  match node.name with
  | "generator" =>
    if progress.seenGenerator then .error .repeatedGenerator
    else do
      let options ← node.children.foldlM setOption Options.default
      return ⟨{ settings with options }, true⟩
  | "source" => do
    let text ← fieldText "source" node
    return { progress with settings := { settings with sources := settings.sources ++ [text] } }
  | "output" =>
    if settings.target.isSome then .error .repeatedOutput
    else do
      let target ← node.children.foldlM setTarget Target.default
      return { progress with settings := { settings with target := some target } }
  | name => .error (.unknownNode name)

def ofNodes (nodes : List Node) : Except SettingsFault Settings :=
  Progress.settings <$> nodes.foldlM Progress.add .start

def ofText (text : String) : Except SettingsFault Settings :=
  match Document.parse? text with
  | some nodes => ofNodes nodes
  | none => .error .notParsed

end Settings

end ToolSwitch
