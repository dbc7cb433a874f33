import Mathlib.Data.List.Forall2
import ToolSwitch.Proofs.Accessor.Shape
import ToolSwitch.Proofs.Generation.Blocks

/-!
What is generated tells what it was generated from.  An identifier may look like anything, also like
other accessors, so a text is taken apart from its end: the lines behind the last identifier are
known by their number, and one of them holds the identifier in a literal.
-/

namespace ToolSwitch

open ToolSwitch.Text ToolSwitch.CSharp ToolSwitch.Schema

/-- Switches of one kind that pass the same on, each behind its own lead. -/
inductive Schema.Switches.Agree (lead lead' : String) : Switches → Switches → Prop where
  | stringList {switch switch' : Option String} :
      composeSwitch lead switch = composeSwitch lead' switch' →
      Agree lead lead' (.stringList switch) (.stringList switch')
  | bool {switch reverse switch' reverse' : Option String} :
      composeSwitch lead switch = composeSwitch lead' switch' →
      composeSwitch lead reverse = composeSwitch lead' reverse' →
      Agree lead lead' (.bool switch reverse) (.bool switch' reverse')
  | int {switch switch' : Option String} :
      composeSwitch lead switch = composeSwitch lead' switch' →
      Agree lead lead' (.int switch) (.int switch')
  | enum {choices choices' : List Choice} :
      choices.map (fun choice => (choice.title, composeSwitch lead choice.switch)) =
        choices'.map (fun choice => (choice.title, composeSwitch lead' choice.switch)) →
      Agree lead lead' (.enum choices) (.enum choices')

/-- Properties that differ in nothing but in what is absent and what is empty, and in how their
switches are divided into lead and rest. -/
structure Schema.Property.Agree (lead lead' : String) (property other : Property) : Prop where
  kind : property.kind = other.kind
  title : property.title = other.title
  displayName : property.info.displayName.getD "" = other.info.displayName.getD ""
  description : property.info.description.getD "" = other.info.description.getD ""
  switches : property.switches.Agree lead lead' other.switches

namespace Accessor

section

variable {getters : Getters} {lead lead' : String} {property other : Property}

theorem choiceTable_congr {choices choices' : List Choice}
    (h : choices.map (fun choice => (choice.title, composeSwitch lead choice.switch)) =
      choices'.map fun choice => (choice.title, composeSwitch lead' choice.switch)) :
    choiceTable lead choices = choiceTable lead' choices' := by
  have hl : choices.length = choices'.length := by simpa using congrArg List.length h
  have hr : choices.map (choiceRow lead) = choices'.map (choiceRow lead') := by
    have hm := congrArg (List.map fun pair : String × String =>
      ([.code "new string[2] \x7b ", .literal pair.1, .code ", ", .literal pair.2,
        .code " \x7d"] : Line)) h
    rw [List.map_map, List.map_map] at hm
    exact hm
  rw [choiceTable, choiceTable, hl, hr]

theorem setup_congr (h : property.Agree lead lead' other) :
    setup lead property = setup lead' other := by
  have hs := h.switches
  rw [setup, setup, h.title]
  generalize property.switches = switches, other.switches = switches' at hs
  cases hs with
  | stringList h | int h => simp only [h]
  | bool h hr => simp only [h, hr]
  | enum h => simp only [choiceTable_congr h]

theorem render_congr (h : property.Agree lead lead' other) :
    render getters lead property = render getters lead' other := by
  simp only [render, body, getter, setter, h.kind, h.title, h.displayName, h.description,
    setup_congr h]

theorem pairs_inj {pairs pairs' : List (String × String)}
    (h : (pairs.flatMap fun pair => [pair.1, pair.2]) =
      pairs'.flatMap fun pair => [pair.1, pair.2]) : pairs = pairs' := by
  induction pairs generalizing pairs' with
  | nil => cases pairs' with
    | nil => rfl
    | cons => cases h
  | cons pair others ih => cases pairs' with
    | nil => cases h
    | cons pair' others' =>
      simp only [List.flatMap_cons, List.cons_append, List.nil_append, List.cons.injEq] at h
      obtain ⟨h₁, h₂, h⟩ := h
      rw [Prod.ext h₁ h₂, ih h]

/-- Of one kind, properties are told by the texts in their accessors. -/
theorem agree_of_texts (hk : property.kind = other.kind)
    (h : texts lead property = texts lead' other) : property.Agree lead lead' other := by
  simp only [texts, List.cons_append, List.nil_append, List.cons.injEq] at h
  obtain ⟨ht, -, -, hd, hs, h⟩ := h
  rw [ht] at h
  have hu := List.append_cancel_right h
  refine ⟨hk, ht, hd, hs, ?_⟩
  rw [Property.kind, Property.kind] at hk
  rw [setupTexts, setupTexts] at hu
  generalize property.switches = switches, other.switches = switches' at hk hu
  cases switches <;> cases switches' <;> cases hk
  case stringList => exact .stringList (List.cons.inj hu).1
  case bool =>
    obtain ⟨h, hr⟩ := List.cons.inj hu
    exact .bool h (List.cons.inj hr).1
  case int => exact .int (List.cons.inj (List.cons.inj hu).2).1
  case enum choices choices' =>
    dsimp only at hu
    rw [ht] at hu
    refine .enum (pairs_inj ?_)
    rw [List.flatMap_map, List.flatMap_map]
    exact List.append_cancel_right hu

/-- The lines of an accessor that end it, from the one on that takes the new value. -/
def ending (property : Property) : List Line :=
  [Line.indent 3 [.code s!"toolSwitch.{payload property.kind} = value;"],
    Line.indent 3 [.code "base.ActiveToolSwitches.Add(", .literal property.title,
      .code ", toolSwitch);"],
    Line.indent 3 [.code "AddActiveSwitchToolValue(toolSwitch);"],
    Line.indent 2 [.code "\x7d"],
    Line.indent 1 [.code "\x7d"]]

theorem body_eq_append (getters : Getters) (lead : String) (property : Property) :
    ∃ upper, body getters lead property = upper ++ ending property :=
  ⟨[Line.indent 1 [.code "\x7b"]] ++ getter getters property ++ (setter lead property).take 7 ++
    setup lead property ++ [assign "Name" property.title], by simp [body, setter, ending]⟩

theorem payload_inj {kind other : Kind}
    (h : (Line.indent 3 [.code s!"toolSwitch.{payload kind} = value;"]).text =
      (Line.indent 3 [.code s!"toolSwitch.{payload other} = value;"]).text) : kind = other := by
  revert h
  cases kind <;> cases other <;> first | exact fun _ => rfl | exact fun h => absurd h (by decide)

theorem kind_of_below {above above' : List Char}
    (h : above ++ Line.below (body getters lead property) =
      above' ++ Line.below (body getters lead' other)) : property.kind = other.kind := by
  obtain ⟨upper, hb⟩ := body_eq_append getters lead property
  obtain ⟨upper', hb'⟩ := body_eq_append getters lead' other
  have hp := body_isPlain getters lead property
  have hp' := body_isPlain getters lead' other
  rw [hb, List.all_append, Bool.and_eq_true] at hp
  rw [hb', List.all_append, Bool.and_eq_true] at hp'
  rw [hb, hb', Line.below_append, Line.below_append, ← List.append_assoc, ← List.append_assoc] at h
  have ht := (Line.below_cancel hp.2 hp'.2 rfl h).2
  exact payload_inj (List.cons.inj ht).1

/-- The kind alone tells how many lines there are. -/
theorem length_body (hk : property.kind = other.kind) :
    (body getters lead property).length = (body getters lead' other).length := by
  have hl : ∀ rows rows' kind, (setupShape rows kind).length = (setupShape rows' kind).length :=
    fun rows rows' kind => by cases kind <;> rfl
  have hs : ∀ lead property, (body getters lead property).length =
      (shape getters property.kind property.switches.choices.length).length :=
    fun lead property => by rw [← body_blank getters lead property, List.length_map]
  rw [hs, hs, hk, shape, shape]
  simp only [List.length_append, List.length_cons, List.length_nil]
  rw [hl]

theorem inside_injective : Function.Injective Piece.inside := fun _ _ h =>
  String.toList_inj.1 (Utf16.encode_injective (congrArg Source.Inside.value h))

/-- Whatever stands above, the lines behind the identifier tell what an accessor shows. -/
theorem agree_of_below {above above' : List Char}
    (h : above ++ Line.below (body getters lead property) =
      above' ++ Line.below (body getters lead' other)) :
    above = above' ∧ property.Agree lead lead' other := by
  have hk := kind_of_below h
  obtain ⟨ha, hb⟩ := Line.below_cancel (body_isPlain getters lead property)
    (body_isPlain getters lead' other) (length_body hk) h
  have hr : some (lexemes getters lead property) = some (lexemes getters lead' other) := by
    rw [← read_body, ← read_body, Line.below_eq, Line.below_eq, hb]
  have ht : (texts lead property).map Piece.inside = (texts lead' other).map Piece.inside := by
    rw [← literals_lexemes getters, ← literals_lexemes getters, Option.some.inj hr]
  exact ⟨ha, agree_of_texts hk (List.map_injective_iff.2 inside_injective ht)⟩

theorem toList_renderAll_append_singleton (getters : Getters) (lead : String)
    (front : List Property) (last : Property) :
    (renderAll getters lead (front ++ [last])).toList =
      (renderAll getters lead front).toList ++
        ("    public virtual " ++ valueType last.kind ++ " ").toList ++ last.title.toList ++
        Line.below (body getters lead last) ++ ['\n'] := by
  rw [renderAll_append, renderAll_cons, render_eq]
  simp [toList_rest, renderAll]

theorem renderAll_append_singleton_ne (getters : Getters) (lead : String) (front : List Property)
    (last : Property) : renderAll getters lead (front ++ [last]) ≠ "" := by
  rw [ne_eq, ← String.toList_inj, toList_renderAll_append_singleton]
  simp

end

/-- Accessors that are one text belong to properties that agree one by one, however the identifiers
in them may look. -/
theorem renderAll_eq_iff (getters : Getters) (lead lead' : String)
    (properties others : List Property) :
    renderAll getters lead properties = renderAll getters lead' others ↔
      List.Forall₂ (Property.Agree lead lead') properties others := by
  constructor
  · intro h
    -- the last accessors agree, so what stands above them is one text again
    induction properties using List.reverseRecOn generalizing others with
    | nil =>
      obtain rfl | ⟨front', last', rfl⟩ := List.eq_nil_or_concat others
      · exact .nil
      · rw [List.concat_eq_append] at h
        exact (renderAll_append_singleton_ne getters lead' front' last' h.symm).elim
    | append_singleton front last ih =>
      obtain rfl | ⟨front', last', rfl⟩ := List.eq_nil_or_concat others
      · exact (renderAll_append_singleton_ne getters lead front last h).elim
      rw [List.concat_eq_append] at h ⊢
      rw [← String.toList_inj, toList_renderAll_append_singleton,
        toList_renderAll_append_singleton] at h
      obtain ⟨ha, hl⟩ := agree_of_below (List.append_cancel_right h)
      rw [hl.kind, hl.title] at ha
      have hf := List.append_cancel_right (List.append_cancel_right ha)
      exact List.rel_append (ih front' (String.toList_inj.1 hf)) (.cons hl .nil)
  · intro h
    induction h with
    | nil => rfl
    | cons ha _ ih => rw [renderAll_cons, renderAll_cons, render_congr ha, ih]

end Accessor

end ToolSwitch
