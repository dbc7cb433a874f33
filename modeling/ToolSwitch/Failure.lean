import ToolSwitch.Markup.Defect

/-!
Why a run fails, by cause, and how each cause is told to a user.
-/

namespace ToolSwitch

open ToolSwitch.Markup

/-- What the file system refuses. -/
inductive FileFault where
  | notFound
  | alreadyExists
  | notDirectory
  | isDirectory
  | linkCycle
  /-- The content of a file is not text. -/
  | notText
  deriving DecidableEq, Repr

def FileFault.message : FileFault → String
  | .notFound => "No such file or directory (os error 2)"
  | .alreadyExists => "File exists (os error 17)"
  | .notDirectory => "Not a directory (os error 20)"
  | .isDirectory => "Is a directory (os error 21)"
  | .linkCycle => "Too many levels of symbolic links (os error 40)"
  | .notText => "stream did not contain valid UTF-8"

/-- Why an entry of a folder is passed over. -/
inductive WalkFault where
  | unreadable (path : String) (fault : FileFault)
  /-- A link back to a directory the path leads through. -/
  | cycle (path ancestor : String)
  deriving DecidableEq, Repr

def WalkFault.message : WalkFault → String
  | .unreadable path fault => s!"IO error for operation on {path}: {fault.message}"
  | .cycle path ancestor => s!"File system loop found: {path} points to an ancestor {ancestor}"

inductive SettingsFault where
  | notParsed
  | repeatedGenerator
  | repeatedOutput
  | unknownNode (name : String)
  | unknownGeneratorField (name : String)
  | unknownOutputField (name : String)
  | notString (field : String)
  | unknownScope (word : String)
  | unknownGetters (word : String)
  deriving DecidableEq, Repr

def SettingsFault.message : SettingsFault → String
  | .notParsed => "Failed to parse KDL: Failed to parse KDL document"
  | .repeatedGenerator => "Multiple generator blocks found"
  | .repeatedOutput => "Multiple output blocks found"
  | .unknownNode name => s!"Unknown config node: {name}"
  | .unknownGeneratorField name => s!"Unknown generator field: {name}"
  | .unknownOutputField name => s!"Unknown output field: {name}"
  | .notString field => s!"{field} expects a string value"
  | .unknownScope word => s!"unknown scan scope `{word}`, expected `document` or `rule`"
  | .unknownGetters word => s!"unknown getter style `{word}`, expected `typed` or `verbatim`"

/-- What is wrong with a glob pattern, at a position in characters. -/
inductive PatternProblem where
  | range
  | wildcards
  | recursion
  deriving DecidableEq, Repr

structure PatternFault where
  position : Nat
  problem : PatternProblem
  deriving DecidableEq, Repr

def PatternProblem.message : PatternProblem → String
  | .range => "invalid range pattern"
  | .wildcards => "wildcards are either regular `*` or recursive `**`"
  | .recursion => "recursive wildcards must form a single path component"

def PatternFault.message (fault : PatternFault) : String :=
  s!"Pattern syntax error near position {fault.position}: {fault.problem.message}"

/-- A flaw in a schema, where the schema is from, and its text once that is attached. -/
structure SchemaFailure where
  flaw : Flaw
  origin : String
  source : Option String
  deriving DecidableEq, Repr

/-- Attaches the text of the schema.  A flaw is never reported behind the end of it. -/
def SchemaFailure.attach (failure : SchemaFailure) (text : String) : SchemaFailure :=
  { failure with
    flaw := { failure.flaw with offset := min failure.flaw.offset text.utf8ByteSize }
    source := some text }

inductive Failure where
  | file (fault : FileFault)
  | schema (failure : SchemaFailure)
  /-- Settings, and the file they are from if they are from one. -/
  | settings (fault : SettingsFault) (path : Option String)
  | nothingMatched (pattern : String)
  | badPattern (pattern : String) (fault : PatternFault)
  deriving DecidableEq, Repr

namespace Failure

def message : Failure → String
  | .file fault => s!"IO error: {fault.message}"
  | .schema { flaw, origin, .. } =>
    match flaw.defect with
    | .markup _ => s!"Failed to parse rule schema {origin}"
    | .malformed malformation => s!"Malformed rule schema {origin}: {malformation.message}"
    | .unclosed name => s!"Unclosed element <{name}> in {origin}"
  | .settings fault _ => s!"Invalid configuration: {fault.message}"
  | .nothingMatched pattern => s!"No rule schemas matched {pattern}"
  | .badPattern pattern _ => s!"invalid glob pattern {pattern}"

/-- The causes below a failure, each the cause of the one before it. -/
def causes : Failure → List String
  | .file fault => [fault.message]
  | .schema { flaw, .. } =>
    match flaw.defect with
    | .markup fault => fault.chain
    | .malformed _ | .unclosed _ => []
  | .settings _ _ | .nothingMatched _ => []
  | .badPattern _ fault => [fault.message]

/-- A stable name of the kind of failure, for users to look up. -/
def code : Failure → Option String
  | .file _ => none
  | .schema { flaw, .. } =>
    match flaw.defect with
    | .markup _ => some "switchgen::parse_error"
    | .malformed _ => some "switchgen::malformed"
    | .unclosed _ => some "switchgen::unclosed_element"
  | .settings _ _ => some "switchgen::config"
  | .nothingMatched _ => some "switchgen::no_inputs"
  | .badPattern _ _ => some "switchgen::error"

def help : Failure → Option String
  | .schema { flaw, .. } =>
    match flaw.defect with
    | .markup _ => some "Check that the rule file is well-formed XML"
    | .malformed _ => some "A rule schema must be a single well-formed XML element tree"
    | .unclosed _ =>
      some "Every start tag needs a matching end tag before the end of the document"
  | .nothingMatched _ =>
    some "Pass a schema file, a directory containing .xml files, or a quoted glob"
  | .file _ | .settings _ _ | .badPattern _ _ => none

/-- The offset to point at in the schema, and what to say there. -/
def label : Failure → Option (Nat × String)
  | .schema { flaw, .. } =>
    some (flaw.offset,
      match flaw.defect with
      | .markup _ => "parse error here"
      | .malformed _ => "malformed here"
      | .unclosed _ => "document ends here")
  | _ => none

/-- The file a failure is about. -/
def path : Failure → Option String
  | .schema { origin, .. } => some origin
  | .settings _ path => path
  | _ => none

/-- Whether the failure lies in the markup of a schema. -/
def isStructural : Failure → Bool
  | .schema _ => true
  | _ => false

/-- Attaches the text of the schema to a failure that lies in it. -/
def attach (text : String) : Failure → Failure
  | .schema failure => .schema (failure.attach text)
  | failure => failure

end Failure

end ToolSwitch
