import ToolSwitch.CommandLine.Arguments
import ToolSwitch.Files.Sources
import ToolSwitch.Relay
import ToolSwitch.Schema.Json
import ToolSwitch.Settings.File
import ToolSwitch.Text.Quoted

/-!
What a command line does to a tree of files, what it prints and how it ends.
-/

namespace ToolSwitch.CommandLine

open ToolSwitch.Files ToolSwitch.Text

inductive Status where
  | success
  | failure
  | misuse
  deriving DecidableEq, Repr

def Status.code : Status → Nat
  | .success => 0
  | .failure => 1
  | .misuse => 2

structure Outcome where
  status : Status
  output : String
  /-- What is told on the way, and why the run failed if it did. -/
  reports : List Report
  complaint : Option String
  tree : FileTree

namespace Outcome

def succeeded (tree : FileTree) (output : String) (reports : List Report) : Outcome :=
  ⟨.success, output, reports, none, tree⟩

/-- A run that fails, with what it has printed until then. -/
def failed (tree : FileTree) (output : String) (reports : List Report) (complaint : String) :
    Outcome :=
  ⟨.failure, output, reports, some complaint, tree⟩

/-- The same run behind others that have told something. -/
def behind (reports : List Report) (outcome : Outcome) : Outcome :=
  { outcome with reports := reports ++ outcome.reports }

end Outcome

/-- The options of the command line, and those of the settings where it leaves them open. -/
def Invocation.options (invocation : Invocation) (settings : Settings) : Options where
  scope := invocation.scope.getD settings.options.scope
  getters := invocation.getters.getD settings.options.getters

/-- Prints the accessors of schemas in turn, up to the first flaw. -/
def printAll (options : Options) (tree : FileTree) : List String → Outcome
  | [] => .succeeded tree "" []
  | source :: rest =>
    let pass := Generation.ofFile options tree source
    match pass.result with
    | .error failure => .failed tree pass.output pass.reports failure.message
    | .ok _ =>
      let more := printAll options tree rest
      { more with output := pass.output ++ more.output, reports := pass.reports ++ more.reports }

/-- Writes the accessors of one schema to a file, in folders made for it. -/
def writeOne (options : Options) (tree : FileTree) (source output : String) : Outcome :=
  let pass := Generation.ofFile options tree source
  match pass.result with
  | .error failure => .failed tree "" pass.reports failure.message
  | .ok _ =>
    match tree.makeFolders (Path.folder output) with
    | (.error fault, tree) => .failed tree "" pass.reports fault.message
    | (.ok (), tree) =>
      match tree.write output (Utf8.encode pass.output) with
      | .error fault => .failed tree "" pass.reports fault.message
      | .ok tree =>
        .succeeded tree s!"✨ Generated accessors to {Quoted.quote output}\n" pass.reports

/-- Writes the accessors of schemas into a folder. -/
def writeAll (options : Options) (tree : FileTree) (sources : List String)
    (folder extension : String) : Outcome :=
  let batch := Batch.write options tree sources folder extension
  match batch.result with
  | .error failure => .failed batch.tree "" batch.reports failure.message
  | .ok written =>
    .succeeded batch.tree s!"Generated {written.length} file(s) in {Quoted.quote folder}\n"
      batch.reports

/-- Where a run writes to: a folder if the command line names one, or if the settings do and the
command line does not name a file. -/
def targetFolder (settings : Settings) (output folder : Option String) : Option Target :=
  match folder, output with
  | some folder, _ => some ⟨folder, (settings.target.getD .default).extension⟩
  | none, none => settings.target
  | none, some _ => none

def generate (options : Options) (settings : Settings) (tree : FileTree) (inputs : List String)
    (output folder : Option String) : Outcome :=
  let sources := if inputs.isEmpty then settings.sources else inputs
  if sources.isEmpty then .failed tree "" [] "no input schemas given"
  else
    let resolved := Sources.resolve tree sources
    match resolved.result with
    | .error failure => .failed tree "" resolved.reports failure.message
    | .ok schemas =>
      .behind resolved.reports <|
        match targetFolder settings output folder, output with
        | some target, _ => writeAll options tree schemas target.folder target.extension
        | none, some output =>
          match schemas with
          | [schema] => writeOne options tree schema output
          | _ => .failed tree "" [] s!"--output takes exactly one schema, got {schemas.length}"
        | none, none => printAll options tree schemas

def inspect (options : Options) (tree : FileTree) (input : String) : Outcome :=
  match tree.readText input with
  | .error fault => .failed tree "" [] fault.message
  | .ok text =>
    match RuleSchema.ofText options.scope input text with
    | .error failure => .failed tree "" [] failure.message
    | .ok schema => .succeeded tree (RuleSchema.show? schema ++ "\n") []

def task (options : Options) (tree : FileTree) (source : String) : Outcome :=
  match Relay.run options tree source with
  | (true, reports) => .succeeded tree "" reports
  | (false, reports) => .failed tree "" reports s!"source generation failed for {source}"

def Invocation.run (invocation : Invocation) (tree : FileTree) : Outcome :=
  let (settings, reports) := Settings.load tree invocation.settings
  match settings with
  | .error failure => .failed tree "" reports failure.message
  | .ok settings =>
    let options := invocation.options settings
    .behind reports <|
      match invocation.command with
      | .generate inputs output folder => generate options settings tree inputs output folder
      | .inspect input => inspect options tree input
      | .task source => task options tree source

def version : String :=
  "switchgen 0.1.0\n"

def usage : String :=
  "Generate tool-switch accessors from MSBuild-style rule schemas\n\n" ++
  "Usage: switchgen [-c FILE] [-v] generate [INPUT...] [-o FILE | --out-dir DIR]\n" ++
  "       switchgen [-c FILE] [-v] inspect INPUT\n" ++
  "       switchgen [-c FILE] [-v] task SOURCE\n\n" ++
  "Each command takes --scan-scope document|rule and --getters typed|verbatim.\n"

/-- How much a command line wants to be told. -/
def threshold (arguments : List String) : Severity :=
  match Wish.ofArguments arguments with
  | .run invocation => if invocation.verbose then .debug else .info
  | .version | .help | .misuse => .info

/-- Runs a command line in a working folder. -/
def run (tree : FileTree) (arguments : List String) : Outcome :=
  match Wish.ofArguments arguments with
  | .run invocation => invocation.run tree
  | .version => .succeeded tree version []
  | .help => .succeeded tree usage []
  | .misuse => ⟨.misuse, "", [], some usage, tree⟩

end ToolSwitch.CommandLine
