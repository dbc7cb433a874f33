import ToolSwitch.Markup.Token
import ToolSwitch.Text.Blank

/-!
A document as a sequence of steps, one for each token.  A step opens or closes an element, passes
something by, or reports a flaw; reading goes on behind a flaw.
-/

namespace ToolSwitch.Markup

open ToolSwitch.Text

inductive Node where
  | opened (element : Element)
  | empty (element : Element)
  | closed
  deriving DecidableEq, Repr

/-- Where reading stands in the element tree. -/
structure Place where
  /-- Names of the open elements, innermost first. -/
  path : List String
  seenRoot : Bool

def Place.start : Place :=
  ⟨[], false⟩

structure Step where
  /-- `none` for what is neither a start tag nor an end tag. -/
  outcome : Except Flaw (Option Node)
  /-- Names of the open elements afterwards, innermost first. -/
  path : List String

namespace Step

def depth (step : Step) : Nat :=
  step.path.length

end Step

/-- White space, or a mark that is as invisible. -/
def isBlank (text : List Char) : Bool :=
  text.all fun c => Blank.isWhiteSpace c || c = '\uFEFF'

namespace Place

/-- Whether text may stand here. -/
def checkText (place : Place) (raw : Bytes) : Except Defect Unit := do
  let text ← (Reference.read raw).mapError .markup
  if place.path.isEmpty ∧ !isBlank text then .error (.malformed .textOutsideRoot) else .ok ()

def checkCdata (place : Place) : Except Defect Unit :=
  if place.path.isEmpty then .error (.malformed .cdataOutsideRoot) else .ok ()

/-- Whether an element may begin here. -/
def checkRoot (place : Place) (tag : Tag) : Except Defect Unit :=
  if place.path.isEmpty ∧ place.seenRoot then
    .error (.malformed (.secondRoot tag.name.text))
  else .ok ()

def enter (place : Place) (name : Name) : Place :=
  ⟨name.text :: place.path, true⟩

def leave (place : Place) : Place :=
  { place with path := place.path.tail }

/-- What an event means here, and the place after it.  A start tag that is refused opens nothing,
but the root has been seen if its turn came. -/
def read (place : Place) : Event → Except Defect (Option Node) × Place
  | .startTag tag =>
    match place.checkRoot tag with
    | .error defect => (.error defect, place)
    | .ok () =>
      match tag.toElement with
      | .error defect => (.error defect, { place with seenRoot := true })
      | .ok element => (.ok (some (.opened element)), place.enter tag.name)
  | .emptyTag tag =>
    match place.checkRoot tag with
    | .error defect => (.error defect, place)
    | .ok () => ((some ∘ .empty) <$> tag.toElement, { place with seenRoot := true })
  | .endTag => (.ok (some .closed), place.leave)
  | .text raw => ((fun _ => none) <$> place.checkText raw, place)
  | .cdata => ((fun _ => none) <$> place.checkCdata, place)
  | .aside => (.ok none, place)

def readToken (place : Place) (token : Token) : Except Flaw (Option Node) × Place :=
  match token.event with
  | .error fault => (.error ⟨.markup fault, token.position⟩, place)
  | .ok event =>
    let (outcome, next) := place.read event
    (outcome.mapError (⟨·, token.position⟩), next)

end Place

/-- Steps, and the flaw that is reported for good behind the last one, if there is one. -/
structure Document where
  steps : List Step
  ending : Option Flaw

def Document.cons (step : Step) (document : Document) : Document :=
  { document with steps := step :: document.steps }

def Document.ofTokens (stop : Nat) (place : Place) : List Token → Document
  | [] => ⟨[], place.path.head?.map fun name => ⟨.unclosed name, stop⟩⟩
  | token :: rest =>
    let (outcome, next) := place.readToken token
    (ofTokens stop next rest).cons ⟨outcome, next.path⟩

def Document.read (bytes : Bytes) : Document :=
  let tokens := tokens bytes
  .ofTokens tokens.stop .start tokens.list

end ToolSwitch.Markup
