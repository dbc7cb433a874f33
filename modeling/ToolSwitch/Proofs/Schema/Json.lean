import ToolSwitch.Proofs.Json.Rendering
import ToolSwitch.Schema.Json

/-!
Schemas through JSON and back.  An attribute that is absent has no field and comes back absent; one
that is empty comes back empty.
-/

namespace ToolSwitch.Schema

open ToolSwitch.Json

/-! ### Finding fields -/

/-- No field has this key. -/
def Lacks (key : String) (fields : List (String × Value)) : Prop :=
  ∀ field ∈ fields, field.1 ≠ key

section

variable {key other : String} {fields rest : List (String × Value)}

@[simp]
theorem lacks_nil : Lacks key [] := by
  simp [Lacks]

@[simp]
theorem lacks_cons {value : Value} :
    Lacks key ((other, value) :: rest) ↔ other ≠ key ∧ Lacks key rest := by
  simp [Lacks]

@[simp]
theorem lacks_append : Lacks key (fields ++ rest) ↔ Lacks key fields ∧ Lacks key rest := by
  simp [Lacks, or_imp, forall_and]

@[simp]
theorem lacks_optionalField (h : other ≠ key) (text : Option String) :
    Lacks key (optionalField other text) := by
  cases text <;> simp [optionalField, h]

theorem Lacks.filter (h : Lacks key fields) : fields.filter (·.1 = key) = [] :=
  List.filter_eq_nil_iff.2 fun field hf => by simpa using h field hf

theorem field?_of_lacks (h : Lacks key fields) : field? fields key = some none := by
  rw [field?, h.filter]

theorem field?_append_of_lacks (h : Lacks key fields) :
    field? (fields ++ rest) key = field? rest key := by
  rw [field?, field?, List.filter_append, h.filter, List.nil_append]

@[simp]
theorem field?_cons_self (h : Lacks key rest) (value : Value) :
    field? ((key, value) :: rest) key = some (some value) := by
  rw [field?, List.filter_cons_of_pos (by simp), h.filter]

@[simp]
theorem field?_cons_of_ne (h : other ≠ key) (value : Value) :
    field? ((other, value) :: rest) key = field? rest key := by
  have hl : Lacks key [(other, value)] := by simp [h]
  exact field?_append_of_lacks hl

theorem textField?_of_lacks (h : Lacks key fields) : textField? fields key = some none := by
  rw [textField?, field?_of_lacks h]
  rfl

@[simp]
theorem textField?_cons_of_ne (h : other ≠ key) (value : Value) :
    textField? ((other, value) :: rest) key = textField? rest key := by
  rw [textField?, textField?, field?_cons_of_ne h]

@[simp]
theorem field?_optionalField_of_ne (h : other ≠ key) (text : Option String) :
    field? (optionalField other text ++ rest) key = field? rest key :=
  field?_append_of_lacks (lacks_optionalField h text)

@[simp]
theorem textField?_optionalField_of_ne (h : other ≠ key) (text : Option String) :
    textField? (optionalField other text ++ rest) key = textField? rest key := by
  rw [textField?, textField?, field?_optionalField_of_ne h]

/-- The text of an attribute, absent if the attribute is. -/
@[simp]
theorem textField?_optionalField_append (h : Lacks key rest) (text : Option String) :
    textField? (optionalField key text ++ rest) key = some text := by
  cases text with
  | none => exact textField?_of_lacks h
  | some text =>
    rw [textField?]
    show (field? ((key, .string text) :: rest) key).bind _ = _
    rw [field?_cons_self h]
    rfl

@[simp]
theorem textField?_optionalField (key : String) (text : Option String) :
    textField? (optionalField key text) key = some text := by
  have hl : Lacks key [] := lacks_nil
  simpa using textField?_optionalField_append hl text

end

/-! ### Reading what was written -/

theorem Rule.ofJson?_toJson (rule : Rule) : Rule.ofJson? rule.toJson = some rule := by
  simp [Rule.ofJson?, Rule.toJson, pair?]

theorem Choice.ofJson?_toJson (choice : Choice) : Choice.ofJson? choice.toJson = some choice := by
  simp [Choice.ofJson?, Choice.toJson, pair?]

theorem Kind.ofKey?_key (kind : Kind) : Kind.ofKey? kind.key = some kind := by
  cases kind <;> decide

theorem mapM_map_of_inverse {α β : Type} {write : α → β} {read : β → Option α}
    (h : ∀ a, read (write a) = some a) (as : List α) : (as.map write).mapM read = some as := by
  induction as with
  | nil => rfl
  | cons a as ih => simp [h, ih]

theorem Info.ofFields?_toJson (property : Property) :
    Info.ofFields? (("kind", .string property.kind.key) ::
      property.info.fields ++ property.switches.fields) = some property.info := by
  obtain ⟨⟨name, displayName, description⟩, switches⟩ := property
  cases switches <;> simp [Info.ofFields?, Info.fields, Switches.fields]

theorem Switches.ofFields?_toJson (property : Property) :
    Switches.ofFields? (("kind", .string property.kind.key) ::
      property.info.fields ++ property.switches.fields) property.kind =
        some property.switches := by
  obtain ⟨⟨name, displayName, description⟩, switches⟩ := property
  cases switches <;>
    simp [Switches.ofFields?, Info.fields, Switches.fields, Property.kind, Switches.kind,
      mapM_map_of_inverse Choice.ofJson?_toJson]

theorem Property.ofJson?_toJson (property : Property) :
    Property.ofJson? property.toJson = some property := by
  have hk : Lacks "kind" (property.info.fields ++ property.switches.fields) := by
    obtain ⟨⟨name, displayName, description⟩, switches⟩ := property
    cases switches <;> simp [Info.fields, Switches.fields]
  have hi := Info.ofFields?_toJson property
  have hs := Switches.ofFields?_toJson property
  rw [List.cons_append] at hi hs
  rw [Property.toJson, Property.ofJson?, List.cons_append, field?_cons_self hk]
  simp [Kind.ofKey?_key, hi, hs]

/-! ### What is written is words, nested a few levels deep -/

theorem isWords_optionalField (key : String) (text : Option String) :
    Value.isWordsFields (optionalField key text) = true := by
  cases text <;> rfl

theorem isWordsFields_append (fields rest : List (String × Value)) :
    Value.isWordsFields (fields ++ rest) =
      (Value.isWordsFields fields && Value.isWordsFields rest) := by
  simp [Value.isWordsFields_eq_all]

theorem Rule.isWords_toJson (rule : Rule) : rule.toJson.isWords = true := by
  simp [Rule.toJson, Value.isWords, isWordsFields_append, isWords_optionalField]

theorem Choice.isWords_toJson (choice : Choice) : choice.toJson.isWords = true := by
  simp [Choice.toJson, Value.isWords, isWordsFields_append, isWords_optionalField]

theorem Property.isWords_toJson (property : Property) : property.toJson.isWords = true := by
  obtain ⟨⟨name, displayName, description⟩, switches⟩ := property
  cases switches <;>
    simp [Property.toJson, Info.fields, Switches.fields, Value.isWords, Value.isWordsFields,
      isWordsFields_append, isWords_optionalField, Value.isWordsItems_eq_all,
      Choice.isWords_toJson]

theorem depth_optionalField (key : String) (text : Option String) :
    Value.depthFields (optionalField key text) = 0 := by
  cases text <;> rfl

theorem depthFields_append (fields rest : List (String × Value)) :
    Value.depthFields (fields ++ rest) =
      max (Value.depthFields fields) (Value.depthFields rest) := by
  induction fields with
  | nil => simp [Value.depthFields]
  | cons field fields ih =>
    obtain ⟨key, value⟩ := field
    rw [List.cons_append, Value.depthFields, Value.depthFields, ih, Nat.max_assoc]

theorem Choice.depth_toJson (choice : Choice) : choice.toJson.depth = 1 := by
  simp [Choice.toJson, Value.depth, depthFields_append, depth_optionalField]

theorem depthItems_choices (choices : List Choice) :
    Value.depthItems (choices.map Choice.toJson) ≤ 1 := by
  induction choices with
  | nil => simp [Value.depthItems]
  | cons choice choices ih => simp [Value.depthItems, Choice.depth_toJson, ih]

theorem Property.depth_toJson (property : Property) : property.toJson.depth ≤ 3 := by
  obtain ⟨⟨name, displayName, description⟩, switches⟩ := property
  cases switches with
  | enum choices =>
    have hc := depthItems_choices choices
    simp [Property.toJson, Info.fields, Switches.fields, Value.depth, Value.depthFields,
      depthFields_append, depth_optionalField]
    omega
  | _ =>
    simp [Property.toJson, Info.fields, Switches.fields, Value.depth, Value.depthFields,
      depthFields_append, depth_optionalField]

end ToolSwitch.Schema

namespace ToolSwitch.RuleSchema

open ToolSwitch.Json ToolSwitch.Schema

theorem property?_toJson (property : Property) : property? property.toJson = some property := by
  have hp := Value.isPlain_of_isWords _ property.isWords_toJson
  have hd : property.toJson.depth ≤ propertyDepth := property.depth_toJson.trans (by decide)
  rw [property?, if_pos ⟨hp, hd⟩, Property.ofJson?_toJson]

theorem ofJson?_toJson (schema : RuleSchema) : ofJson? schema.toJson = some schema := by
  simp [ofJson?, toJson, ofParts?, Rule.ofJson?_toJson, mapM_map_of_inverse property?_toJson]

theorem isWords_toJson (schema : RuleSchema) : schema.toJson.isWords = true := by
  simp [toJson, Value.isWords, Value.isWordsFields, Value.isWordsItems_eq_all,
    Rule.isWords_toJson, Property.isWords_toJson]

/-- Every schema comes back from the text that shows it, with or without white space behind it. -/
theorem parse?_show? (schema : RuleSchema) (blank : String)
    (hb : Text.skipBlank blank.toList = []) :
    parse? (show? (some schema) ++ blank) = some schema := by
  rw [parse?, show?, Text.parse_render schema.isWords_toJson hb]
  exact ofJson?_toJson schema

/-- The text that shows a schema is read back as that schema, by itself and as a line, and is the
text of no other: an absent attribute is told from an empty one. -/
theorem shown_reads_back (schema : RuleSchema) :
    parse? (show? (some schema)) = some schema ∧
      parse? (show? (some schema) ++ "\n") = some schema ∧
      ∀ other, show? (some other) = show? (some schema) ↔ other = schema := by
  have hb : ∀ other, parse? (show? (some other)) = some other := fun other => by
    simpa using parse?_show? other "" (by simp [Text.skipBlank])
  refine ⟨hb schema, parse?_show? schema "\n" (by simp [Text.skipBlank, Text.isBlank]),
    fun other => ⟨fun h => ?_, congrArg _ ∘ congrArg some⟩⟩
  have hs := hb other
  rw [h, hb schema] at hs
  exact (Option.some.inj hs).symm

end ToolSwitch.RuleSchema
