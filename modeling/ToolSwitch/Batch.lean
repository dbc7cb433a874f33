import ToolSwitch.Files.Tree
import ToolSwitch.Generation

/-!
Generation from files: of one schema, and of several into a folder.  A file is written only once its
pass has come to its end, and the first pass that fails ends the batch.
-/

namespace ToolSwitch

open ToolSwitch.Files ToolSwitch.Text

namespace Generation

/-- The pass over a file. -/
def ofFile (options : Options) (tree : FileTree) (path : String) : Pass Failure Summary :=
  match tree.readText path with
  | .error fault => ⟨"", [], .error (.file fault)⟩
  | .ok text =>
    let pass := ofText options path text
    match pass.result with
    | .error _ => pass
    | .ok summary =>
      { pass with reports := pass.reports ++ [.generated path summary.rule summary.tally.total] }

end Generation

/-- A schema whose accessors have been written. -/
structure Written where
  source : String
  output : String
  summary : Summary
  deriving DecidableEq, Repr

structure Batch where
  result : Except Failure (List Written)
  reports : List Report
  /-- The tree that is left, also if the batch fails. -/
  tree : FileTree

namespace Batch

/-- Where the accessors of a schema are written to. -/
@[irreducible]
def outputPath (folder extension source : String) : String :=
  Path.join folder ((Path.stem? source).getD "generated" ++ "." ++ extension)

/-- Generates schemas in turn; `taken` are the outputs that others have been written to. -/
def generate (options : Options) (folder extension : String) (taken : List String)
    (tree : FileTree) : List String → Batch
  | [] => ⟨.ok [], [], tree⟩
  | source :: rest =>
    let output := outputPath folder extension source
    let warning := if taken.contains output then [.overwriting source output] else []
    let pass := Generation.ofFile options tree source
    let reports := warning ++ pass.reports
    match pass.result with
    | .error failure => ⟨.error failure, reports, tree⟩
    | .ok summary =>
      match tree.write output (Utf8.encode pass.output) with
      | .error fault => ⟨.error (.file fault), reports, tree⟩
      | .ok tree =>
        let more := generate options folder extension (output :: taken) tree rest
        ⟨(⟨source, output, summary⟩ :: ·) <$> more.result, reports ++ more.reports, more.tree⟩

/-- Generates schemas into a folder, which is made first. -/
def write (options : Options) (tree : FileTree) (sources : List String)
    (folder extension : String) : Batch :=
  match tree.makeFolders folder with
  | (.error fault, tree) => ⟨.error (.file fault), [], tree⟩
  | (.ok (), tree) => generate options folder extension [] tree sources

end Batch

end ToolSwitch
