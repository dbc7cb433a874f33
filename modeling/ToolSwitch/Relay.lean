import ToolSwitch.Batch

/-!
Generation on behalf of a build: the generated lines are told one by one, and only once the whole
pass has come to its end.
-/

namespace ToolSwitch.Relay

open ToolSwitch.Files

/-- A line without the carriage return at its end. -/
def trim (line : List Char) : List Char :=
  if line.getLast? = some '\r' then line.dropLast else line

/-- The lines of a text.  A carriage return counts to the line feed behind it, and what follows the
last line feed is a line if there is anything in it. -/
def linesOf (line : List Char) : List Char → List (List Char)
  | [] => if line.isEmpty then [] else [line.reverse]
  | c :: rest =>
    if c = '\n' then trim line.reverse :: linesOf [] rest else linesOf (c :: line) rest

def lines (text : String) : List String :=
  (linesOf [] text.toList).map String.ofList

/-- The lines to be told for a schema. -/
def relay (options : Options) (tree : FileTree) (source : String) :
    Except Failure (List String) × List Report :=
  let pass := Generation.ofFile options tree source
  ((fun _ => lines pass.output) <$> pass.result, pass.reports)

/-- Tells the lines of a schema, or why there are none. -/
def run (options : Options) (tree : FileTree) (source : String) : Bool × List Report :=
  match relay options tree source with
  | (.ok lines, reports) => (true, reports ++ lines.map .relayed)
  | (.error failure, reports) => (false, reports ++ [.relayFailed source failure])

end ToolSwitch.Relay
