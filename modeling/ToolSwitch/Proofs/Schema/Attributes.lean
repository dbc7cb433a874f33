import ToolSwitch.Proofs.Schema.Alike
import ToolSwitch.Proofs.Schema.Stacks

/-!
Attributes are taken by their keys.  Looking one up in a tag that was accepted never fails, so a
request fails only where reading on does, and the order of the attributes tells in no answer.
-/

namespace ToolSwitch.Markup

open ToolSwitch.Text

/-- The element that an open or empty tag begins. -/
def Node.element? : Node → Option Element
  | .opened element | .empty element => some element
  | .closed => none

section

variable {place : Place} {node : Node} {element : Element}

theorem Place.read_element {event : Event} (h : (place.read event).1 = .ok (some node))
    (he : node.element? = some element) :
    ∃ tag, event.tag? = some tag ∧ tag.toElement = .ok element := by
  cases event with
  | startTag tag =>
    rw [read] at h
    cases hr : place.checkRoot tag with
    | error defect => simp [hr] at h
    | ok _ =>
      cases ht : tag.toElement with
      | error defect => simp [hr, ht] at h
      | ok other =>
        rw [hr, ht] at h
        cases h
        cases he
        exact ⟨tag, rfl, ht⟩
  | emptyTag tag =>
    rw [read] at h
    cases hr : place.checkRoot tag with
    | error defect => simp [hr] at h
    | ok _ =>
      cases ht : tag.toElement with
      | error defect => simp [hr, ht, Functor.map, Except.map] at h
      | ok other =>
        rw [hr, ht] at h
        cases h
        cases he
        exact ⟨tag, rfl, ht⟩
  | endTag =>
    cases h
    cases he
  | text raw =>
    rw [read] at h
    cases hr : place.checkText raw <;> rw [hr] at h <;> cases h
  | cdata =>
    rw [read] at h
    cases hr : place.checkCdata <;> rw [hr] at h <;> cases h
  | aside => cases h

theorem Place.readToken_element {token : Token} (h : (place.readToken token).1 = .ok (some node))
    (he : node.element? = some element) :
    ∃ tag, token.tag? = some tag ∧ tag.toElement = .ok element := by
  unfold readToken at h
  unfold Token.tag?
  cases ht : token.event with
  | error fault =>
    rw [ht] at h
    cases h
  | ok event =>
    rw [ht] at h
    cases hr : (place.read event).1 with
    | error defect =>
      dsimp only at h
      rw [hr] at h
      cases h
    | ok found =>
      dsimp only at h
      rw [hr] at h
      cases h
      exact read_element hr he

/-- An element comes from a tag that was accepted. -/
theorem ofTokens_element {stop : Nat} {list : List Token} {step : Step}
    (hm : step ∈ (Document.ofTokens stop place list).steps) (ho : step.outcome = .ok (some node))
    (he : node.element? = some element) :
    ∃ token ∈ list, ∃ tag, token.tag? = some tag ∧ tag.toElement = .ok element := by
  induction list generalizing place with
  | nil => cases hm
  | cons token rest ih =>
    obtain rfl | hm := List.mem_cons.1 hm
    · exact ⟨token, List.mem_cons_self, Place.readToken_element ho he⟩
    · obtain ⟨other, hr, ht⟩ := ih hm
      exact ⟨other, List.mem_cons_of_mem _ hr, ht⟩

end

end ToolSwitch.Markup

namespace ToolSwitch.Schema.Scan

open ToolSwitch.Text ToolSwitch.Markup

variable {scan : Scan}

theorem verdict_of_findRule_error {flaw : Flaw} (h : scan.findRule.result = .error flaw) :
    scan.verdict = .error flaw := by
  by_cases hs : scan.stage = .seeking
  · rw [verdict_findRule hs, Pull.verdict, h]
    rfl
  · rw [findRule_of_found hs] at h
    cases h

theorem verdict_of_nextProperty_error {flaw : Flaw} (h : scan.nextProperty.result = .error flaw) :
    scan.verdict = .error flaw := by
  rw [verdict_nextProperty, Pull.verdict, h]
  rfl

theorem verdict_of_schema_error {flaw : Flaw} (h : scan.schema.result = .error flaw) :
    scan.verdict = .error flaw := by
  by_cases hs : scan.stage = .seeking
  · rw [← schema_verdict hs, h]
    rfl
  · rw [schema_of_none (by rw [findRule_of_found hs])] at h
    cases h

/-- A request fails for the very flaw that reading on meets. -/
theorem verdict_of_serve_error {request : Request} {flaw : Flaw}
    (h : (scan.serve request).result = .error flaw) : scan.verdict = .error flaw := by
  have hm {α β : Type} {f : α → β} {x : Except Flaw α} (hx : f <$> x = .error flaw) :
      x = .error flaw := by
    cases x with
    | error other =>
      cases hx
      rfl
    | ok _ => cases hx
  cases request with
  | rule => exact verdict_of_findRule_error (hm h)
  | property => exact verdict_of_nextProperty_error (hm h)
  | schema => exact verdict_of_schema_error (hm h)

theorem serveAll_of_alike {bytes bytes' : Bytes}
    (h : List.Forall₂ Token.Alike (tokens bytes).list (tokens bytes').list) (scope : Scope)
    (requests : List Request) :
    ((start scope (.read bytes)).serveAll requests).map Except.toOption =
      ((start scope (.read bytes')).serveAll requests).map Except.toOption := by
  have hd : (Document.read bytes).Alike (Document.read bytes') := ofTokens_alike h _ _ .start
  have hs : (start scope (.read bytes)).Alike (start scope (.read bytes')) := ⟨rfl, rfl, hd⟩
  exact serveAll_alike hs requests

/-- An attribute that is looked up in an accepted tag by its key is the one that has it.  So requests
fail for nothing but what reading on meets, and the attributes of a tag may be put into any order in
which the tag still ends at its own `>`; it does in each of them unless there is a quotation mark in
a name. -/
theorem attributes_by_key (scope : Scope) (bytes : Bytes) :
    (∀ tag element, Tag.toElement tag = .ok element → ∀ key,
      tag.lookup (.ofString key) = .ok (element.attribute? key) ∧
        tag.Holds (.ofString key) (element.attribute? key)) ∧
    (∀ requests, let scan := (start scope (.read bytes)).after requests
      (∀ step ∈ scan.rest.steps, ∀ node element, step.outcome = .ok (some node) →
        node.element? = some element → ∃ token ∈ (tokens bytes).list, ∃ tag,
          token.tag? = some tag ∧ tag.toElement = .ok element) ∧
      ∀ request flaw, (scan.serve request).result = .error flaw → scan.verdict = .error flaw) ∧
    ∀ token ∈ (tokens bytes).list, ∀ tag, token.tag? = some tag →
      (∃ front content back, token.Stands (dropMark bytes) front content back) ∧
      ∀ front content back, token.Stands (dropMark bytes) front content back →
        (∀ element, tag.toElement = .ok element → tag.LaidOut content) ∧
        ∀ content', Rearranges content content' →
          (tag.Unmarked → Closes content') ∧
          (Closes content' → ∀ bytes',
            dropMark bytes' = front ++ 0x3C :: (content' ++ 0x3E :: back) → ∀ requests,
              ((start scope (.read bytes')).serveAll requests).map Except.toOption =
                ((start scope (.read bytes)).serveAll requests).map Except.toOption) := by
  refine ⟨fun tag element he key => ?_, fun requests => ⟨?_, fun _ _ => verdict_of_serve_error⟩,
    fun token hm tag ht => ⟨exists_stands hm ht, fun front content back hs => ⟨?_, ?_⟩⟩⟩
  · exact ⟨Tag.lookup_of_toElement he key, Tag.holds_of_toElement he key⟩
  · intro step hm node element ho he
    obtain ⟨-, read, hr, -⟩ := (start scope (.read bytes)).after_reads requests
    have hm : step ∈ (start scope (.read bytes)).rest.steps := by
      rw [hr]
      exact List.mem_append_right _ hm
    exact ofTokens_element hm ho he
  · exact fun element => Event.laidOut_of_toElement (hs.tag? ht)
  · intro content' hr
    have hc : Closes content := (hs.replaceable hm).1.closes
    refine ⟨fun hu => hr.closes (hs.tag? ht) hu hc, fun hc' bytes' hb requests => ?_⟩
    exact (serveAll_of_alike (hs.rearrange hm hr hc' hb) scope requests).symm

/-- Two attributes of an empty tag change places. -/
theorem attributes_by_key_swapped :
    let content := Utf8.encode "Rule Name=\"x\" SwitchPrefix=\"-\"/"
    let content' := Utf8.encode "Rule SwitchPrefix=\"-\" Name=\"x\"/"
    let answers (content : Bytes) (requests : List Request) :=
      ((start .rule (.read (0x3C :: (content ++ [0x3E])))).serveAll requests).map Except.toOption
    answers content [.rule, .rule] =
        [some (.rule (some ⟨some "x", some "-"⟩)), some (.rule none)] ∧
      Closes content' ∧ ∀ requests, answers content' requests = answers content requests := by
  intro content content' answers
  have hr : Rearranges content content' :=
    @Rearranges.swap (Utf8.encode "Rule") (Utf8.encode "/") (by decide +kernel)
      (.plain 0x4E (Utf8.encode "ame") (Utf8.encode "x") rfl (by decide +kernel)
        (by decide +kernel))
      (.plain 0x53 (Utf8.encode "witchPrefix") (Utf8.encode "-") rfl (by decide +kernel)
        (by decide +kernel))
  obtain ⟨token, hm, hs⟩ := @exists_stands_of_head (0x3C :: (content ++ [0x3E])) [] content [] rfl
    (by decide +kernel)
  have ht : token.tag? = some (.ofContent content.dropLast) := by
    rw [Token.tag?, hs.event]
    decide +kernel
  obtain ⟨-, -, hp⟩ := attributes_by_key .rule (0x3C :: (content ++ [0x3E]))
  obtain ⟨-, hc⟩ := hp token hm _ ht
  obtain ⟨-, hc⟩ := hc [] content [] hs
  obtain ⟨hu, ha⟩ := hc content' hr
  have hl : Closes content' := by
    refine hu ⟨?_, ?_⟩ <;> unfold Name.Unmarked <;> decide +kernel
  exact ⟨by decide +kernel, hl, ha hl (0x3C :: (content' ++ [0x3E])) rfl⟩

/-- The first attribute's name opens a quotation that the second one's closes, and the second is the
end of the tag where it comes first. -/
theorem attribute_order_matters :
    let content := Utf8.encode "Rule a\"=\"1\" >=\"2\" c\"=\"3\" Name=\"x\""
    let content' := Utf8.encode "Rule >=\"2\" a\"=\"1\" c\"=\"3\" Name=\"x\""
    let back := Utf8.encode "</Rule>"
    let rule? (bytes : Bytes) := (start .document (.read bytes)).findRule.result.toOption
    Rearranges content content' ∧
      (∃ token ∈ (tokens (0x3C :: (content ++ 0x3E :: back))).list,
        token.Stands (0x3C :: (content ++ 0x3E :: back)) [] content back) ∧
      rule? (0x3C :: (content ++ 0x3E :: back)) = some (some ⟨some "x", none⟩) ∧
      rule? (0x3C :: (content' ++ 0x3E :: back)) = some (some ⟨none, none⟩) := by
  intro content content' back rule?
  have hr : Rearranges content content' :=
    @Rearranges.swap (Utf8.encode "Rule") (Utf8.encode " c\"=\"3\" Name=\"x\"")
      (by decide +kernel) (.plain 0x61 [0x22] [0x31] rfl (by decide +kernel) (by decide +kernel))
      (.plain 0x3E [] [0x32] rfl (by decide +kernel) (by decide +kernel))
  exact ⟨hr, exists_stands_of_head rfl (by decide +kernel), by decide +kernel, by decide +kernel⟩

end ToolSwitch.Schema.Scan
