import ToolSwitch.Failure
import ToolSwitch.Schema.Scan

/-!
What a run tells about itself while it goes on.
-/

namespace ToolSwitch

open ToolSwitch.Schema

inductive Severity where
  | error
  | warn
  | info
  | debug
  | trace
  deriving DecidableEq, Repr

namespace Severity

def name : Severity → String
  | .error => "ERROR"
  | .warn => "WARN"
  | .info => "INFO"
  | .debug => "DEBUG"
  | .trace => "TRACE"

def rank : Severity → Nat
  | .error => 0
  | .warn => 1
  | .info => 2
  | .debug => 3
  | .trace => 4

end Severity

inductive Report where
  | scan (notice : Notice)
  | noRule
  | generated (path : String) (rule : Option String) (properties : Nat)
  | overwriting (source output : String)
  | skipped (fault : WalkFault)
  | relayed (line : String)
  | relayFailed (source : String) (failure : Failure)
  | defaultSettings
  deriving DecidableEq, Repr

/-- The value of a report's field. -/
inductive FieldValue where
  | text (value : String)
  | number (value : Nat)
  deriving DecidableEq, Repr

namespace Report

def severity : Report → Severity
  | .scan (.foundRule _) | .scan (.dispatching _ _) | .noRule | .defaultSettings => .debug
  | .scan .leftRule => .trace
  | .generated .. | .relayed _ => .info
  | .overwriting .. | .skipped _ => .warn
  | .relayFailed .. => .error

/-- The part of the program that a report comes from. -/
def target : Report → String
  | .scan _ => "switchgen::reader"
  | .noRule | .generated .. => "switchgen::codegen"
  | .overwriting .. => "switchgen::codegen::output"
  | .skipped _ => "switchgen::inputs"
  | .relayed _ | .relayFailed .. => "switchgen::task"
  | .defaultSettings => "switchgen::config"

def message : Report → String
  | .scan (.foundRule _) => "found rule"
  | .scan (.dispatching _ _) => "dispatching property"
  | .scan .leftRule => "rule closed, ending property scan"
  | .noRule => "no rule element found"
  | .generated .. => "generated accessors"
  | .overwriting .. => "output file already generated from another schema, overwriting"
  | .skipped fault => s!"skipping unreadable entry: {fault.message}"
  | .relayed line => line
  | .relayFailed _ failure => s!"source generation failed: {failure.message}"
  | .defaultSettings => "no switchgen.kdl found, using defaults"

def fields : Report → List (String × FieldValue)
  | .scan (.foundRule rule) => [("rule", .text rule.title), ("prefix", .text rule.lead)]
  | .scan (.dispatching kind info) => [("kind", .text kind.label), ("name", .text info.title)]
  | .generated path rule properties =>
    [("path", .text path), ("rule", .text (rule.getD "")), ("properties", .number properties)]
  | .overwriting source output => [("source", .text source), ("output", .text output)]
  | .relayFailed source _ => [("source", .text source)]
  | .scan .leftRule | .noRule | .skipped _ | .relayed _ | .defaultSettings => []

/-- A report on one line. -/
def line (report : Report) : String :=
  let field : String × FieldValue → String
    | (key, .text value) => s!" {key}={value}"
    | (key, .number value) => s!" {key}={value}"
  s!"{report.severity.name} {report.target}: {report.message}" ++
    String.join (report.fields.map field)

end Report

/-- The reports that are at least as severe as a threshold. -/
def Report.upTo (threshold : Severity) (reports : List Report) : List Report :=
  reports.filter (·.severity.rank ≤ threshold.rank)

end ToolSwitch
