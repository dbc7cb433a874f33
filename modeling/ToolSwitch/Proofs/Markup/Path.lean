import ToolSwitch.Markup.Document

/-!
The names of the open elements from step to step.  A start tag puts one on, an end tag takes one
off, and nothing else moves them, a flaw included.
-/

namespace ToolSwitch.Markup

theorem Tag.toElement_name {tag : Tag} {element : Element} (h : tag.toElement = .ok element) :
    element.name = tag.name := by
  unfold toElement at h
  generalize Attribute.readAll _ _ tag.attributeText = attributes at h
  cases attributes with
  | error defect => cases h
  | ok attributes =>
    cases h
    rfl

/-- Inside the elements of `path`, a step with this outcome leaves those of `next` open. -/
def Moves (path next : List String) : Except Flaw (Option Node) → Prop
  | .ok (some (.opened element)) => next = element.name.text :: path
  | .ok (some .closed) => next = path.tail
  | .ok (some (.empty _)) | .ok none | .error _ => next = path

theorem Place.moves_read (place : Place) (event : Event) (offset : Nat) :
    Moves place.path (place.read event).2.path
      ((place.read event).1.mapError (⟨·, offset⟩)) := by
  cases event with
  | startTag tag =>
    rw [read]
    cases hr : place.checkRoot tag with
    | error defect => rfl
    | ok _ =>
      cases he : tag.toElement with
      | error defect => rfl
      | ok element => exact congrArg (·.text :: place.path) (Tag.toElement_name he).symm
  | emptyTag tag =>
    rw [read]
    cases place.checkRoot tag with
    | error defect => rfl
    | ok _ => cases tag.toElement <;> rfl
  | endTag => rfl
  | text raw =>
    rw [read]
    cases place.checkText raw <;> rfl
  | cdata =>
    rw [read]
    cases place.checkCdata <;> rfl
  | aside => rfl

theorem Place.moves_readToken (place : Place) (token : Token) :
    Moves place.path (place.readToken token).2.path (place.readToken token).1 := by
  unfold readToken
  cases token.event with
  | error fault => rfl
  | ok event => exact place.moves_read event token.position

/-- Steps to the end of a document, each from the open elements that the one before it leaves.  None
is left at an end that is not refused. -/
def Follows (ending : Option Flaw) : List String → List Step → Prop
  | path, [] => ending = none → path = []
  | path, step :: rest => Moves path step.path step.outcome ∧ Follows ending step.path rest

theorem follows_ofTokens (stop : Nat) (place : Place) (tokens : List Token) :
    Follows (Document.ofTokens stop place tokens).ending place.path
      (Document.ofTokens stop place tokens).steps := by
  induction tokens generalizing place with
  | nil =>
    cases hp : place.path with
    | nil => exact fun _ => rfl
    | cons name outer => simp [Document.ofTokens, Follows, hp]
  | cons token rest ih => exact ⟨place.moves_readToken token, ih _⟩

theorem follows_read (bytes : List UInt8) :
    Follows (Document.read bytes).ending [] (Document.read bytes).steps :=
  follows_ofTokens _ .start _

/-- The names that are open behind steps if those of `path` are in front of them. -/
def openBehind (path : List String) (steps : List Step) : List String :=
  steps.foldl (fun _ step => step.path) path

theorem Follows.of_append {ending : Option Flaw} {path : List String} {front back : List Step}
    (h : Follows ending path (front ++ back)) : Follows ending (openBehind path front) back := by
  induction front generalizing path with
  | nil => exact h
  | cons step rest ih => exact ih h.2

end ToolSwitch.Markup
