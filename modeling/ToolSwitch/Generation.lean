import ToolSwitch.Options
import ToolSwitch.Report

/-!
A generation pass: the accessors of a schema are written one by one as the scan yields their
declarations, so what is written before a flaw stays written.
-/

namespace ToolSwitch

open ToolSwitch.Text ToolSwitch.Markup ToolSwitch.Schema

/-- How many accessors of each kind there are. -/
structure Tally where
  stringList : Nat
  bool : Nat
  int : Nat
  enum : Nat
  deriving DecidableEq, Repr

namespace Tally

def zero : Tally :=
  ⟨0, 0, 0, 0⟩

def count (tally : Tally) : Kind → Nat
  | .stringList => tally.stringList
  | .bool => tally.bool
  | .int => tally.int
  | .enum => tally.enum

def add (tally : Tally) : Kind → Tally
  | .stringList => { tally with stringList := tally.stringList + 1 }
  | .bool => { tally with bool := tally.bool + 1 }
  | .int => { tally with int := tally.int + 1 }
  | .enum => { tally with enum := tally.enum + 1 }

def total (tally : Tally) : Nat :=
  Kind.all.foldr (fun kind n => tally.count kind + n) 0

theorem count_add (tally : Tally) (kind other : Kind) :
    (tally.add kind).count other = tally.count other + if other = kind then 1 else 0 := by
  cases kind <;> cases other <;> rfl

theorem total_add (tally : Tally) (kind : Kind) : (tally.add kind).total = tally.total + 1 := by
  simp only [total, Kind.all, List.foldr_cons, List.foldr_nil, count_add]
  cases kind <;> simp only [reduceCtorEq, if_true, if_false] <;> omega

/-- The kinds with a count above zero, with their counts. -/
def entries (tally : Tally) : List (Kind × Nat) :=
  (Kind.all.map fun kind => (kind, tally.count kind)).filter (·.2 ≠ 0)

end Tally

structure Summary where
  /-- The rule's name. -/
  rule : Option String
  foundRule : Bool
  tally : Tally
  deriving DecidableEq, Repr

/-- What a pass has written and told, whether or not it came to its end. -/
structure Pass (ε α : Type) where
  output : String
  reports : List Report
  result : Except ε α

namespace Generation

/-- Writes an accessor for each property that a scan still yields. -/
def blocks (getters : Getters) (lead : String) (scan : Scan) : Pass Flaw Tally :=
  let pull := scan.nextProperty
  let reports := pull.notices.map .scan
  match _h : pull.result with
  | .error flaw => ⟨"", reports, .error flaw⟩
  | .ok none => ⟨"", reports, .ok .zero⟩
  | .ok (some property) =>
    let more := blocks getters lead pull.next
    ⟨Accessor.render getters lead property ++ "\n" ++ more.output, reports ++ more.reports,
      (·.add property.kind) <$> more.result⟩
termination_by scan.rest.steps.length
decreasing_by exact Scan.nextProperty_length _h

/-- The pass over a document.  Without a rule there is nothing to write. -/
def ofDocument (options : Options) (document : Document) : Pass Flaw Summary :=
  let pull := (Scan.start options.scope document).findRule
  let reports := pull.notices.map .scan
  match pull.result with
  | .error flaw => ⟨"", reports, .error flaw⟩
  | .ok none => ⟨"", reports ++ [.noRule], .ok ⟨none, false, .zero⟩⟩
  | .ok (some rule) =>
    let pass := blocks options.getters rule.lead pull.next
    ⟨pass.output, reports ++ pass.reports, (⟨rule.name, true, ·⟩) <$> pass.result⟩

/-- The pass over bytes that come from `origin`. -/
def ofBytes (options : Options) (origin : String) (bytes : Bytes) : Pass Failure Summary :=
  let pass := ofDocument options (.read bytes)
  { pass with result := pass.result.mapError fun flaw => .schema ⟨flaw, origin, none⟩ }

/-- The pass over a text that comes from `origin`. -/
def ofText (options : Options) (origin text : String) : Pass Failure Summary :=
  let pass := ofBytes options origin (Utf8.encode text)
  { pass with result := pass.result.mapError (.attach text) }

/-- Where a schema comes from that is not in a file. -/
def memory : String :=
  "<memory>"

end Generation

/-- The rule and properties of a text that comes from `origin`, without generating anything. -/
def RuleSchema.ofText (scope : Scope) (origin text : String) :
    Except Failure (Option RuleSchema) :=
  (Scan.start scope (.read (Utf8.encode text))).schema.result.mapError fun flaw =>
    (Failure.schema ⟨flaw, origin, none⟩).attach text

end ToolSwitch
