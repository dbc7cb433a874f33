import ToolSwitch.Files.Glob.Expansion
import ToolSwitch.Files.Walk
import ToolSwitch.Report

/-!
From what a user names to schemas.  A pattern stands for the files it matches and a folder for the
schemas below it, and either has to stand for something; anything else is taken as the path of a
file, whether or not that is there.
-/

namespace ToolSwitch.Files.Sources

open ToolSwitch.Files.Glob

/-- What a source comes to, and what is told on the way. -/
structure Resolved (α : Type) where
  result : Except Failure α
  reports : List Report

/-- Paths that a source has to have at least one of. -/
def nonempty (source : String) (paths : List String) : Except Failure (List String) :=
  if paths.isEmpty then .error (.nothingMatched source) else .ok paths

/-- The schemas that one source stands for. -/
def resolveOne (tree : FileTree) (source : String) : Resolved (List String) :=
  if isPattern source then
    match Pattern.ofText source with
    | .error fault => ⟨.error (.badPattern source fault), []⟩
    | .ok pattern => ⟨nonempty source ((tree.glob pattern source).filter tree.isFile), []⟩
  else if tree.isFolder source then
    ⟨nonempty source (tree.schemas source), (tree.skipped source).map .skipped⟩
  else ⟨.ok [source], []⟩

/-- The schemas that sources stand for, in order and with repetitions. -/
def resolve (tree : FileTree) : List String → Resolved (List String)
  | [] => ⟨.ok [], []⟩
  | source :: rest =>
    let first := resolveOne tree source
    match first.result with
    | .error failure => ⟨.error failure, first.reports⟩
    | .ok paths =>
      let more := resolve tree rest
      ⟨(paths ++ ·) <$> more.result, first.reports ++ more.reports⟩

end ToolSwitch.Files.Sources
