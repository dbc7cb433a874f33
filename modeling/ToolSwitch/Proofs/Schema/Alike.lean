import ToolSwitch.Proofs.Markup.Replacement
import ToolSwitch.Proofs.Schema.Requests

/-!
Documents whose tags differ in nothing but the order of their attributes.  The same requests get the
same answers in both, and fail in both.
-/

namespace ToolSwitch.Markup

namespace Together

variable {ε ε' α β : Type} {r : α → α → Prop} {x x' : Except ε α}

theorem mapError (h : Together r x x') (f f' : ε → ε') :
    Together r (x.mapError f) (x'.mapError f') := by
  cases h with
  | error => exact .error
  | ok h => exact .ok h

theorem map {s : β → β → Prop} (h : Together r x x') {f f' : α → β}
    (hf : ∀ item item', r item item' → s (f item) (f' item')) :
    Together s (f <$> x) (f' <$> x') := by
  cases h with
  | error => exact .error
  | ok h => exact .ok (hf _ _ h)

theorem map_eq (h : Together Eq x x') (f : α → β) : Together Eq (f <$> x) (f <$> x') :=
  h.map fun _ _ he => congrArg f he

theorem toOption_eq (h : Together Eq x x') : x.toOption = x'.toOption := by
  cases h with
  | error => rfl
  | ok h => exact congrArg some h

end Together

/-- Nodes whose elements are told apart neither by their names nor by what is under a key. -/
inductive Node.Agrees : Option Node → Option Node → Prop where
  | opened {element element' : Element} : element.Agrees element' →
      Agrees (some (.opened element)) (some (.opened element'))
  | empty {element element' : Element} : element.Agrees element' →
      Agrees (some (.empty element)) (some (.empty element'))
  | closed : Agrees (some .closed) (some .closed)
  | none : Agrees none none

theorem Node.Agrees.refl (node : Option Node) : Node.Agrees node node := by
  rcases node with _ | ⟨element⟩ | ⟨element⟩ | _
  · exact .none
  · exact .opened ⟨rfl, fun _ => rfl⟩
  · exact .empty ⟨rfl, fun _ => rfl⟩
  · exact .closed

structure Step.Alike (step step' : Step) : Prop where
  outcome : Together Node.Agrees step.outcome step'.outcome
  path : step.path = step'.path

structure Document.Alike (document document' : Document) : Prop where
  steps : List.Forall₂ Step.Alike document.steps document'.steps
  ending : document.ending.isSome = document'.ending.isSome

theorem Place.checkRoot_alike {tag tag' : Tag} (h : tag.Reorders tag') (place : Place) :
    place.checkRoot tag = place.checkRoot tag' := by
  rw [checkRoot, checkRoot, h.name]

theorem Place.read_alike {event event' : Event} (h : event.Reorders event') (place : Place) :
    Together Node.Agrees (place.read event).1 (place.read event').1 ∧
      (place.read event).2 = (place.read event').2 := by
  cases h with
  | refl => exact ⟨.refl .refl _, rfl⟩
  | @startTag tag tag' h =>
    rw [read, read, checkRoot_alike h]
    cases place.checkRoot tag' with
    | error defect => exact ⟨.error, rfl⟩
    | ok _ =>
      dsimp only
      obtain ⟨element, element', he, he', ha⟩ | ⟨defect, defect', he, he'⟩ := h.toElement
      · rw [he, he', h.name]
        exact ⟨.ok (.opened ha), rfl⟩
      · rw [he, he']
        exact ⟨.error, rfl⟩
  | @emptyTag tag tag' h =>
    rw [read, read, checkRoot_alike h]
    cases place.checkRoot tag' with
    | error defect => exact ⟨.error, rfl⟩
    | ok _ =>
      dsimp only
      obtain ⟨element, element', he, he', ha⟩ | ⟨defect, defect', he, he'⟩ := h.toElement
      · rw [he, he']
        exact ⟨.ok (.empty ha), rfl⟩
      · rw [he, he']
        exact ⟨.error, rfl⟩

theorem Place.readToken_alike {token token' : Token} (h : token.Alike token') (place : Place) :
    Together Node.Agrees (place.readToken token).1 (place.readToken token').1 ∧
      (place.readToken token).2 = (place.readToken token').2 := by
  unfold Token.Alike at h
  unfold readToken
  generalize token.event = event at h ⊢
  generalize token'.event = event' at h ⊢
  cases h with
  | error => exact ⟨.error, rfl⟩
  | ok h =>
    obtain ⟨ho, hp⟩ := place.read_alike h
    exact ⟨ho.mapError _ _, hp⟩

theorem ofTokens_alike {list list' : List Token} (h : List.Forall₂ Token.Alike list list')
    (stop stop' : Nat) (place : Place) :
    (Document.ofTokens stop place list).Alike (Document.ofTokens stop' place list') := by
  induction h generalizing place with
  | nil =>
    refine ⟨.nil, ?_⟩
    rw [Document.ofTokens, Document.ofTokens, Option.isSome_map, Option.isSome_map]
  | @cons token token' rest rest' ht _ ih =>
    obtain ⟨ho, hp⟩ := place.readToken_alike ht
    have hr : (Document.ofTokens stop (place.readToken token).2 rest).Alike
        (Document.ofTokens stop' (place.readToken token').2 rest') := by
      rw [← hp]
      exact ih _
    exact ⟨.cons ⟨ho, congrArg Place.path hp⟩ hr.steps, hr.ending⟩

end ToolSwitch.Markup

namespace ToolSwitch.Schema

open ToolSwitch.Text ToolSwitch.Markup

section

variable {element element' : Element} (h : element.Agrees element')

include h

theorem Rule.ofElement?_agrees : Rule.ofElement? element = Rule.ofElement? element' := by
  rw [Rule.ofElement?, Rule.ofElement?, h.name, h.attribute?, h.attribute?]

theorem Choice.ofElement?_agrees : Choice.ofElement? element = Choice.ofElement? element' := by
  rw [Choice.ofElement?, Choice.ofElement?, h.name, h.attribute?, h.attribute?]

theorem Property.ofElement_agrees (kind : Kind) :
    Property.ofElement kind element = Property.ofElement kind element' := by
  funext choices
  simp only [Property.ofElement, Info.ofElement, h.attribute?]

end

/-- Scans that stand at the same point of documents that differ in the order of attributes. -/
structure Scan.Alike (scan scan' : Scan) : Prop where
  scope : scan.scope = scan'.scope
  stage : scan.stage = scan'.stage
  rest : scan.rest.Alike scan'.rest

/-- Pulls that find the same or fail together, and leave scans that go on alike. -/
structure Pull.Alike {α : Type} (pull pull' : Pull α) : Prop where
  result : Together Eq pull.result pull'.result
  next : pull.next.Alike pull'.next

namespace Scan

variable {scan scan' : Scan} {steps steps' : List Step}

theorem Alike.behind (h : scan.Alike scan') (hs : List.Forall₂ Step.Alike steps steps') :
    (scan.behind steps).Alike (scan'.behind steps') :=
  ⟨h.scope, h.stage, hs, h.rest.ending⟩

theorem Alike.at (h : scan.Alike scan') (stage : Stage) :
    Alike { scan with stage } { scan' with stage } :=
  ⟨h.scope, rfl, h.rest⟩

theorem Alike.atEnd (h : scan.Alike scan') : Together Eq scan.atEnd scan'.atEnd := by
  have he := h.rest.ending
  rw [Scan.atEnd, Scan.atEnd]
  cases hf : scan.rest.ending with
  | none =>
    rw [hf] at he
    rw [Option.isNone_iff_eq_none.1 (Option.isSome_eq_false_iff.1 he.symm)]
    exact .ok rfl
  | some flaw =>
    rw [hf] at he
    obtain ⟨flaw', hf'⟩ := Option.isSome_iff_exists.1 he.symm
    rw [hf']
    exact .error

theorem drain_alike (h : scan.Alike scan') (hs : List.Forall₂ Step.Alike steps steps') :
    Together Eq (scan.drain steps).1 (scan'.drain steps').1 ∧
      List.Forall₂ Step.Alike (scan.drain steps).2 (scan'.drain steps').2 := by
  induction hs with
  | nil => exact ⟨h.atEnd, .nil⟩
  | @cons step step' rest rest' hs hr ih =>
    obtain ⟨ho, -⟩ := hs
    rw [drain, drain]
    generalize step.outcome = outcome at ho ⊢
    generalize step'.outcome = outcome' at ho ⊢
    cases ho with
    | error => exact ⟨.error, hr⟩
    | ok => exact ih

theorem choices_alike (h : scan.Alike scan') (depth : Nat)
    (hs : List.Forall₂ Step.Alike steps steps') :
    Together Eq (scan.choices depth steps).1 (scan'.choices depth steps').1 ∧
      List.Forall₂ Step.Alike (scan.choices depth steps).2 (scan'.choices depth steps').2 := by
  induction hs with
  | nil => exact ⟨h.atEnd.map_eq _, .nil⟩
  | @cons step step' rest rest' hs hr ih =>
    obtain ⟨ho, hp⟩ := hs
    rw [choices, choices, Step.depth, Step.depth, ← hp]
    generalize step.outcome = outcome at ho ⊢
    generalize step'.outcome = outcome' at ho ⊢
    cases ho with
    | error => exact ⟨.error, hr⟩
    | ok hn =>
      cases hn with
      | none => exact ih
      | closed =>
        dsimp only
        by_cases hd : step.path.length < depth
        · rw [if_pos hd, if_pos hd]
          exact ⟨.ok rfl, hr⟩
        · rw [if_neg hd, if_neg hd]
          exact ih
      | opened ha | empty ha =>
        dsimp only
        rw [Choice.ofElement?_agrees ha]
        split
        · exact ⟨ih.1.map_eq _, ih.2⟩
        · exact ih

theorem finish_alike (h : scan.Alike scan') (notices : List Notice)
    (hs : List.Forall₂ Step.Alike steps steps') :
    (scan.finish notices steps).Alike (scan'.finish notices steps') := by
  obtain ⟨hd, hr⟩ := drain_alike h hs
  rw [finish_eq, finish_eq]
  exact ⟨hd.map_eq _, h.behind hr⟩

theorem declare_alike (h : scan.Alike scan') (kind : Kind) {element element' : Element}
    (ha : element.Agrees element') (depth : Nat) (hs : List.Forall₂ Step.Alike steps steps') :
    (scan.declare kind element depth steps).Alike (scan'.declare kind element' depth steps') := by
  by_cases hk : kind = .enum
  · subst hk
    obtain ⟨hc, hr⟩ := choices_alike h depth hs
    rw [declare_enum, declare_enum, Property.ofElement_agrees ha]
    exact ⟨hc.map_eq _, h.behind hr⟩
  · rw [declare_of_ne_enum _ hk, declare_of_ne_enum _ hk, Property.ofElement_agrees ha]
    exact ⟨.ok rfl, h.behind hs⟩

theorem advance_alike (h : scan.Alike scan') (depth : Nat)
    (hs : List.Forall₂ Step.Alike steps steps') :
    (scan.advance depth steps).Alike (scan'.advance depth steps') := by
  induction hs with
  | nil =>
    have he := h.atEnd
    rw [advance, advance]
    generalize scan.atEnd = outcome at he ⊢
    generalize scan'.atEnd = outcome' at he ⊢
    cases he with
    | error => exact ⟨.error, h.behind .nil⟩
    | ok => exact ⟨.ok rfl, (h.behind .nil).at .finished⟩
  | @cons step step' rest rest' hs hr ih =>
    obtain ⟨ho, hp⟩ := hs
    rw [advance, advance, Step.depth, Step.depth, ← hp]
    generalize step.outcome = outcome at ho ⊢
    generalize step'.outcome = outcome' at ho ⊢
    cases ho with
    | error => exact ⟨.error, h.behind hr⟩
    | ok hn =>
      cases hn with
      | none => exact ih
      | closed =>
        dsimp only
        by_cases hl : scan.scope = .rule ∧ step.path.length < depth
        · rw [if_pos hl, if_pos (h.scope ▸ hl)]
          exact finish_alike (h.at .finished) _ hr
        · rw [if_neg hl, if_neg (h.scope ▸ hl)]
          exact ih
      | opened ha =>
        dsimp only
        rw [← ha.name]
        split
        · exact declare_alike h _ ha _ hr
        · exact ih
      | empty ha =>
        dsimp only
        rw [← ha.name]
        split
        · exact ⟨.ok (by rw [Property.ofElement_agrees ha]), h.behind hr⟩
        · exact ih

theorem nextProperty_alike (h : scan.Alike scan') :
    scan.nextProperty.Alike scan'.nextProperty := by
  rw [nextProperty, nextProperty, ← h.stage]
  cases scan.stage with
  | scanning depth => exact advance_alike h depth h.rest.steps
  | seeking | finished => exact finish_alike h [] h.rest.steps

theorem seek_alike (h : scan.Alike scan') (hs : List.Forall₂ Step.Alike steps steps') :
    (scan.seek steps).Alike (scan'.seek steps') := by
  induction hs with
  | nil =>
    have he := h.atEnd
    rw [seek, seek]
    generalize scan.atEnd = outcome at he ⊢
    generalize scan'.atEnd = outcome' at he ⊢
    cases he with
    | error => exact ⟨.error, h.behind .nil⟩
    | ok => exact ⟨.ok rfl, (h.behind .nil).at .finished⟩
  | @cons step step' rest rest' hs hr ih =>
    obtain ⟨ho, hp⟩ := hs
    rw [seek, seek, Step.depth, Step.depth, ← hp, ← h.scope]
    generalize step.outcome = outcome at ho ⊢
    generalize step'.outcome = outcome' at ho ⊢
    cases ho with
    | error => exact ⟨.error, h.behind hr⟩
    | ok hn =>
      cases hn with
      | none | closed => exact ih
      | opened ha | empty ha =>
        dsimp only
        rw [Rule.ofElement?_agrees ha]
        split
        · exact ⟨.ok rfl, (h.behind hr).at _⟩
        · exact ih

theorem findRule_alike (h : scan.Alike scan') : scan.findRule.Alike scan'.findRule := by
  rw [findRule, findRule, ← h.stage]
  cases scan.stage with
  | seeking => exact seek_alike h h.rest.steps
  | scanning | finished => exact ⟨.ok rfl, h⟩

theorem allProperties_eq (scan : Scan) :
    scan.allProperties =
      match scan.nextProperty.result with
      | .error flaw => ⟨.error flaw, scan.nextProperty.notices, scan.nextProperty.next⟩
      | .ok none => ⟨.ok [], scan.nextProperty.notices, scan.nextProperty.next⟩
      | .ok (some property) =>
        let more := scan.nextProperty.next.allProperties
        ⟨(property :: ·) <$> more.result, scan.nextProperty.notices ++ more.notices, more.next⟩ := by
  rw [allProperties]
  split <;> simp_all

theorem allProperties_alike (h : scan.Alike scan') :
    scan.allProperties.Alike scan'.allProperties := by
  fun_induction allProperties scan generalizing scan' with
  | case1 scan pull flaw =>
    rename_i hr
    obtain ⟨hp, hn⟩ := nextProperty_alike h
    rw [hr] at hp
    rw [allProperties_eq scan']
    generalize scan'.nextProperty.result = result at hp ⊢
    cases hp
    exact ⟨.error, hn⟩
  | case2 scan pull =>
    rename_i hr
    obtain ⟨hp, hn⟩ := nextProperty_alike h
    rw [hr] at hp
    rw [allProperties_eq scan']
    generalize scan'.nextProperty.result = result at hp ⊢
    cases hp with
    | ok he =>
      cases he
      exact ⟨.ok rfl, hn⟩
  | case3 scan pull property hr more =>
    rename_i ih
    obtain ⟨hp, hn⟩ := nextProperty_alike h
    rw [hr] at hp
    rw [allProperties_eq scan']
    generalize scan'.nextProperty.result = result at hp ⊢
    cases hp with
    | ok he =>
      cases he
      obtain ⟨hm, hl⟩ := ih hn
      exact ⟨hm.map_eq _, hl⟩

theorem schema_alike (h : scan.Alike scan') : scan.schema.Alike scan'.schema := by
  obtain ⟨hf, hn⟩ := findRule_alike h
  unfold schema
  dsimp only
  generalize scan.findRule.result = result at hf ⊢
  generalize scan'.findRule.result = result' at hf ⊢
  cases hf with
  | error => exact ⟨.error, hn⟩
  | @ok rule _ he =>
    cases he
    cases rule with
    | none => exact ⟨.ok rfl, hn⟩
    | some rule =>
      obtain ⟨ha, hl⟩ := allProperties_alike hn
      exact ⟨ha.map_eq _, hl⟩

theorem serve_alike (h : scan.Alike scan') (request : Request) :
    (scan.serve request).Alike (scan'.serve request) := by
  cases request with
  | rule => exact ⟨(findRule_alike h).result.map_eq _, (findRule_alike h).next⟩
  | property => exact ⟨(nextProperty_alike h).result.map_eq _, (nextProperty_alike h).next⟩
  | schema => exact ⟨(schema_alike h).result.map_eq _, (schema_alike h).next⟩

/-- Requests get the same answers, or fail, in both documents. -/
theorem serveAll_alike (h : scan.Alike scan') (requests : List Request) :
    (scan.serveAll requests).map Except.toOption =
      (scan'.serveAll requests).map Except.toOption := by
  induction requests generalizing scan scan' with
  | nil => rfl
  | cons request rest ih =>
    obtain ⟨hr, hn⟩ := serve_alike h request
    rw [serveAll, serveAll, List.map_cons, List.map_cons, hr.toOption_eq, ih hn]

end Scan

end ToolSwitch.Schema
