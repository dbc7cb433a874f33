import ToolSwitch.Markup.Document
import ToolSwitch.Schema.Property

/-!
Reading a schema from a document, one declaration at a time.  A scan first looks for the rule, then
yields properties until its scope ends; in either scope it reads, and so checks, the whole document.
-/

namespace ToolSwitch.Schema

open ToolSwitch.Markup

/-- How far properties are looked for once there is a rule. -/
inductive Scope where
  | document
  | rule
  deriving DecidableEq, Repr

def Kind.ofTag? (name : Name) : Option Kind :=
  Kind.all.find? fun kind => Name.ofString kind.tag = name

def Rule.ofElement? (element : Element) : Option Rule :=
  if element.name = Name.ofString "Rule" then
    some ⟨element.attribute? "Name", element.attribute? "SwitchPrefix"⟩
  else none

def Choice.ofElement? (element : Element) : Option Choice :=
  if element.name = Name.ofString "EnumValue" then
    some ⟨element.attribute? "Name", element.attribute? "Switch"⟩
  else none

def Info.ofElement (element : Element) : Info where
  name := element.attribute? "Name"
  displayName := element.attribute? "DisplayName"
  description := element.attribute? "Description"

/-- The property of a kind that an element declares, with the choices found inside it. -/
def Property.ofElement (kind : Kind) (element : Element) (choices : List Choice) : Property where
  info := .ofElement element
  switches :=
    match kind with
    | .stringList => .stringList (element.attribute? "Switch")
    | .bool => .bool (element.attribute? "Switch") (element.attribute? "ReverseSwitch")
    | .int => .int (element.attribute? "Switch")
    | .enum => .enum choices

inductive Stage where
  | seeking
  /-- Behind the rule's start tag.  The rule is open at this depth, if it is open at all. -/
  | scanning (depth : Nat)
  | finished
  deriving DecidableEq, Repr

/-- What a scan reports beside its results. -/
inductive Notice where
  | foundRule (rule : Rule)
  | dispatching (kind : Kind) (info : Info)
  | leftRule
  deriving DecidableEq, Repr

structure Scan where
  scope : Scope
  stage : Stage
  /-- The document from here on. -/
  rest : Document

/-- What a request to a scan comes to. -/
structure Pull (α : Type) where
  result : Except Flaw α
  notices : List Notice
  next : Scan

namespace Scan

def start (scope : Scope) (document : Document) : Scan :=
  ⟨scope, .seeking, document⟩

/-- The scan behind some of its steps. -/
def behind (scan : Scan) (steps : List Step) : Scan :=
  { scan with rest := { scan.rest with steps } }

/-- What the end of the document means. -/
def atEnd (scan : Scan) : Except Flaw Unit :=
  match scan.rest.ending with
  | some flaw => .error flaw
  | none => .ok ()

/-- Looks for the rule among steps. -/
def seek (scan : Scan) : List Step → Pull (Option Rule)
  | [] =>
    match scan.atEnd with
    | .error flaw => ⟨.error flaw, [], scan.behind []⟩
    | .ok () => ⟨.ok none, [], { scan.behind [] with stage := .finished }⟩
  | step :: rest =>
    let next := scan.behind rest
    match step.outcome with
    | .error flaw => ⟨.error flaw, [], next⟩
    | .ok (some (.opened element)) =>
      match Rule.ofElement? element with
      | some rule =>
        ⟨.ok (some rule), [.foundRule rule], { next with stage := .scanning step.depth }⟩
      | none => seek scan rest
    | .ok (some (.empty element)) =>
      match Rule.ofElement? element with
      | some rule =>
        let stage :=
          match scan.scope with
          | .document => .scanning step.depth
          | .rule => .finished
        ⟨.ok (some rule), [.foundRule rule], { next with stage }⟩
      | none => seek scan rest
    | .ok (some .closed) | .ok none => seek scan rest

/-- The first rule of the document, unless the search for it is over. -/
def findRule (scan : Scan) : Pull (Option Rule) :=
  match scan.stage with
  | .seeking => scan.seek scan.rest.steps
  | .scanning _ | .finished => ⟨.ok none, [], scan⟩

/-- Reads on without looking for anything. -/
def drain (scan : Scan) : List Step → Except Flaw Unit × List Step
  | [] => (scan.atEnd, [])
  | step :: rest =>
    match step.outcome with
    | .error flaw => (.error flaw, rest)
    | .ok _ => drain scan rest

/-- The choices inside an element whose content is at `depth`, at any depth below it. -/
def choices (scan : Scan) (depth : Nat) : List Step → Except Flaw (List Choice) × List Step
  | [] => ((fun _ => []) <$> scan.atEnd, [])
  | step :: rest =>
    match step.outcome with
    | .error flaw => (.error flaw, rest)
    | .ok (some .closed) => if step.depth < depth then (.ok [], rest) else choices scan depth rest
    | .ok (some (.opened element)) | .ok (some (.empty element)) =>
      match Choice.ofElement? element with
      | some choice =>
        let (more, rest) := choices scan depth rest
        ((choice :: ·) <$> more, rest)
      | none => choices scan depth rest
    | .ok none => choices scan depth rest

/-- The property declared by the start tag of an element, whose content is at `depth`. -/
def declare (scan : Scan) (kind : Kind) (element : Element) (depth : Nat) (rest : List Step) :
    Pull (Option Property) :=
  let notices := [.dispatching kind (.ofElement element)]
  match kind with
  | .enum =>
    let (found, rest) := scan.choices depth rest
    ⟨(some ∘ Property.ofElement kind element) <$> found, notices, scan.behind rest⟩
  | _ => ⟨.ok (some (.ofElement kind element [])), notices, scan.behind rest⟩

/-- Reads the document to its end, where nothing more is declared. -/
def finish (scan : Scan) (notices : List Notice) (steps : List Step) : Pull (Option Property) :=
  let (outcome, rest) := scan.drain steps
  ⟨(fun _ => none) <$> outcome, notices, scan.behind rest⟩

/-- Looks for the next property among steps, inside a rule at `depth`. -/
def advance (scan : Scan) (depth : Nat) : List Step → Pull (Option Property)
  | [] =>
    match scan.atEnd with
    | .error flaw => ⟨.error flaw, [], scan.behind []⟩
    | .ok () => ⟨.ok none, [], { scan.behind [] with stage := .finished }⟩
  | step :: rest =>
    match step.outcome with
    | .error flaw => ⟨.error flaw, [], scan.behind rest⟩
    | .ok (some (.opened element)) =>
      match Kind.ofTag? element.name with
      | some kind => scan.declare kind element step.depth rest
      | none => advance scan depth rest
    | .ok (some (.empty element)) =>
      match Kind.ofTag? element.name with
      | some kind =>
        ⟨.ok (some (.ofElement kind element [])), [.dispatching kind (.ofElement element)],
          scan.behind rest⟩
      | none => advance scan depth rest
    | .ok (some .closed) =>
      if scan.scope = .rule ∧ step.depth < depth then
        { scan with stage := .finished }.finish [.leftRule] rest
      else advance scan depth rest
    | .ok none => advance scan depth rest

/-- The next property in document order.  Outside the reach of the rule there is none, and the rest
of the document is read. -/
def nextProperty (scan : Scan) : Pull (Option Property) :=
  match scan.stage with
  | .scanning depth => scan.advance depth scan.rest.steps
  | .seeking | .finished => scan.finish [] scan.rest.steps

theorem choices_length_le (scan : Scan) (depth : Nat) (steps : List Step) :
    (scan.choices depth steps).2.length ≤ steps.length := by
  induction steps with
  | nil => exact Nat.le_refl _
  | cons step rest ih =>
    rw [choices]
    split
    · exact Nat.le_succ _
    · split
      · exact Nat.le_succ _
      · exact Nat.le_succ_of_le ih
    · split
      · exact Nat.le_succ_of_le ih
      · exact Nat.le_succ_of_le ih
    · split
      · exact Nat.le_succ_of_le ih
      · exact Nat.le_succ_of_le ih
    · exact Nat.le_succ_of_le ih

theorem declare_length_le (scan : Scan) (kind : Kind) (element : Element) (depth : Nat)
    (rest : List Step) :
    (scan.declare kind element depth rest).next.rest.steps.length ≤ rest.length := by
  unfold declare
  split
  · exact choices_length_le scan depth rest
  · exact Nat.le_refl _

theorem finish_ne_some (scan : Scan) (notices : List Notice) (steps : List Step)
    (property : Property) : (scan.finish notices steps).result ≠ .ok (some property) := by
  unfold finish
  generalize scan.drain steps = d
  obtain ⟨outcome, rest⟩ := d
  cases outcome <;> simp [Functor.map, Except.map]

theorem advance_length {scan : Scan} {depth : Nat} {steps : List Step} {property : Property}
    (h : (scan.advance depth steps).result = .ok (some property)) :
    (scan.advance depth steps).next.rest.steps.length < steps.length := by
  induction steps with
  | nil =>
    rw [advance] at h
    split at h <;> cases h
  | cons step rest ih =>
    rw [advance] at h ⊢
    split at h
    · cases h
    · split at h
      · exact Nat.lt_succ_of_le (declare_length_le ..)
      · exact Nat.lt_succ_of_lt (ih h)
    · split at h
      · exact Nat.lt_succ_self _
      · exact Nat.lt_succ_of_lt (ih h)
    · split at h
      · exact absurd h (finish_ne_some _ _ _ _)
      · next hs =>
        rw [if_neg hs]
        exact Nat.lt_succ_of_lt (ih h)
    · exact Nat.lt_succ_of_lt (ih h)

/-- A scan that yields a property has read at least one step for it. -/
theorem nextProperty_length {scan : Scan} {property : Property}
    (h : scan.nextProperty.result = .ok (some property)) :
    scan.nextProperty.next.rest.steps.length < scan.rest.steps.length := by
  unfold nextProperty at h ⊢
  split at h
  · exact advance_length h
  · exact absurd h (finish_ne_some _ _ _ _)
  · exact absurd h (finish_ne_some _ _ _ _)

/-- All properties from here on. -/
def allProperties (scan : Scan) : Pull (List Property) :=
  let pull := scan.nextProperty
  match _h : pull.result with
  | .error flaw => ⟨.error flaw, pull.notices, pull.next⟩
  | .ok none => ⟨.ok [], pull.notices, pull.next⟩
  | .ok (some property) =>
    let more := pull.next.allProperties
    ⟨(property :: ·) <$> more.result, pull.notices ++ more.notices, more.next⟩
termination_by scan.rest.steps.length
decreasing_by exact nextProperty_length _h

/-- The rule and all its properties, or nothing if there is no rule to be found. -/
def schema (scan : Scan) : Pull (Option RuleSchema) :=
  let pull := scan.findRule
  match pull.result with
  | .error flaw => ⟨.error flaw, pull.notices, pull.next⟩
  | .ok none => ⟨.ok none, pull.notices, pull.next⟩
  | .ok (some rule) =>
    let all := pull.next.allProperties
    ⟨(fun properties => some ⟨rule, properties⟩) <$> all.result, pull.notices ++ all.notices,
      all.next⟩

inductive Request where
  | rule
  | property
  | schema
  deriving DecidableEq, Repr

inductive Answer where
  | rule (rule : Option Rule)
  | property (property : Option Property)
  | schema (schema : Option RuleSchema)
  deriving DecidableEq, Repr

def Pull.map {α β : Type} (f : α → β) (pull : Pull α) : Pull β :=
  { pull with result := f <$> pull.result }

def serve (scan : Scan) : Request → Pull Answer
  | .rule => Pull.map .rule scan.findRule
  | .property => Pull.map .property scan.nextProperty
  | .schema => Pull.map .schema scan.schema

/-- Serves requests in turn, also after one that failed. -/
def serveAll (scan : Scan) : List Request → List (Except Flaw Answer)
  | [] => []
  | request :: rest =>
    let pull := scan.serve request
    pull.result :: serveAll pull.next rest

end Scan

end ToolSwitch.Schema
