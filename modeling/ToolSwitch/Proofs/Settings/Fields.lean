import Mathlib.Data.List.TakeWhile
import ToolSwitch.Proofs.Settings.Reading

/-!
The fields of the two blocks that settings have: which are accepted, and what they make.
-/

namespace ToolSwitch.Settings

open ToolSwitch.Kdl ToolSwitch.Schema

/-! ### Fields -/

/-- The nodes of a name, in order. -/
def named (name : String) (nodes : List Node) : List Node :=
  nodes.filter (·.name = name)

/-- The text that a field is given last. -/
def lastText? (field : String) (nodes : List Node) : Option String :=
  (named field nodes).getLast?.bind Node.text?

section

variable {before : List Node} {node : Node} {field name : String}

theorem named_append_of_eq (h : node.name = name) (before : List Node) :
    named name (before ++ [node]) = named name before ++ [node] := by
  simp [named, h]

theorem named_append_of_ne (h : node.name ≠ name) (before : List Node) :
    named name (before ++ [node]) = named name before := by
  simp [named, h]

theorem lastText?_append_of_eq (h : node.name = field) (before : List Node) :
    lastText? field (before ++ [node]) = node.text? := by
  simp [lastText?, named_append_of_eq h]

theorem lastText?_append_of_ne (h : node.name ≠ field) (before : List Node) :
    lastText? field (before ++ [node]) = lastText? field before := by
  rw [lastText?, named_append_of_ne h, lastText?]

theorem fieldText_cases (field : String) (node : Node) :
    (∃ text, fieldText field node = .ok text ∧ node.text? = some text) ∨
      fieldText field node = .error (.notString field) ∧ node.text? = none := by
  cases h : node.text? with
  | none => exact .inr ⟨by rw [fieldText, h], rfl⟩
  | some text => exact .inl ⟨text, by rw [fieldText, h], rfl⟩

end

/-! ### Words -/

/-- How a text is read that has to be one of some words. -/
structure Words {β : Type} (ofWord : String → Except SettingsFault β) (word : β → String)
    (unknown : String → SettingsFault) : Prop where
  ofWord_word : ∀ value, ofWord (word value) = .ok value
  ofWord_other : ∀ text, (∀ value, text ≠ word value) → ofWord text = .error (unknown text)

/-- A field without a text, or with one that is none of the words. -/
inductive WordOffends {β : Type} (field : String) (word : β → String)
    (unknown : String → SettingsFault) (node : Node) : SettingsFault → Prop where
  | notString : node.text? = none → WordOffends field word unknown node (.notString field)
  | unknown (text : String) : node.text? = some text → (∀ value, text ≠ word value) →
      WordOffends field word unknown node (unknown text)

section

variable {β : Type} {ofWord : String → Except SettingsFault β} {word : β → String}
  {unknown : String → SettingsFault} {field : String} {node : Node} {fault other : SettingsFault}

theorem scope_words : Words Scope.ofWord Scope.word .unknownScope where
  ofWord_word := Scope.ofWord_word
  ofWord_other _ h := (if_neg (h .document)).trans (if_neg (h .rule))

theorem getters_words : Words Getters.ofWord Getters.word .unknownGetters where
  ofWord_word := Getters.ofWord_word
  ofWord_other _ h := (if_neg (h .typed)).trans (if_neg (h .verbatim))

theorem Words.cases (h : Words ofWord word unknown) (field : String) (node : Node) :
    (∃ value, fieldText field node >>= ofWord = .ok value ∧ node.text? = some (word value)) ∨
      ∃ fault, fieldText field node >>= ofWord = .error fault ∧
        WordOffends field word unknown node fault := by
  obtain ⟨text, hf, ht⟩ | ⟨hf, ht⟩ := fieldText_cases field node
  · rw [hf]
    by_cases hw : ∃ value, text = word value
    · obtain ⟨value, rfl⟩ := hw
      exact .inl ⟨value, h.ofWord_word value, ht⟩
    · rw [not_exists] at hw
      exact .inr ⟨unknown text, h.ofWord_other text hw, .unknown text ht hw⟩
  · rw [hf]
    exact .inr ⟨.notString field, rfl, .notString ht⟩

theorem WordOffends.ne_word (h : WordOffends field word unknown node fault) (value : β) :
    node.text? ≠ some (word value) := by
  cases h with
  | notString ht => simp [ht]
  | unknown text ht hw => simpa [ht] using hw value

theorem WordOffends.unique (h : WordOffends field word unknown node fault)
    (ho : WordOffends field word unknown node other) : fault = other := by
  cases h with
  | notString ht =>
    cases ho with
    | notString => rfl
    | unknown text ht' => simp [ht] at ht'
  | unknown text ht =>
    cases ho with
    | notString ht' => simp [ht] at ht'
    | unknown text' ht' =>
      rw [ht] at ht'
      rw [Option.some.inj ht']

end

/-! ### Options -/

/-- A field of the generator that has one of its two words. -/
inductive IsOption (node : Node) : Prop where
  | scope (scope : Scope) : node.name = "scan-scope" → node.text? = some scope.word → IsOption node
  | getters (getters : Getters) :
      node.name = "getters" → node.text? = some getters.word → IsOption node

inductive OptionOffends (node : Node) : SettingsFault → Prop where
  | unknown : node.name ≠ "scan-scope" → node.name ≠ "getters" →
      OptionOffends node (.unknownGeneratorField node.name)
  | scope {fault : SettingsFault} : node.name = "scan-scope" →
      WordOffends "scan-scope" Scope.word .unknownScope node fault → OptionOffends node fault
  | getters {fault : SettingsFault} : node.name = "getters" →
      WordOffends "getters" Getters.word .unknownGetters node fault → OptionOffends node fault

/-- The options that fields of the generator make. -/
structure MakesOptions (fields : List Node) (options : Options) : Prop where
  scope : options.scope.word = (lastText? "scan-scope" fields).getD "document"
  getters : options.getters.word = (lastText? "getters" fields).getD "typed"

section

variable {node : Node} {fault other : SettingsFault} {fields : List Node} {options : Options}

theorem OptionOffends.not_isOption (h : OptionOffends node fault) : ¬ IsOption node := by
  rintro (⟨scope, hn, ht⟩ | ⟨getters, hn, ht⟩)
  · cases h with
    | unknown hs => exact hs hn
    | scope _ hw => exact hw.ne_word scope ht
    | getters hn' => simp [hn] at hn'
  · cases h with
    | unknown _ hg => exact hg hn
    | scope hn' => simp [hn] at hn'
    | getters _ hw => exact hw.ne_word getters ht

theorem OptionOffends.unique (h : OptionOffends node fault) (ho : OptionOffends node other) :
    fault = other := by
  cases h with
  | unknown hs hg =>
    cases ho with
    | unknown => rfl
    | scope hn => exact absurd hn hs
    | getters hn => exact absurd hn hg
  | scope hn hw =>
    cases ho with
    | unknown hs => exact absurd hn hs
    | scope _ hw' => exact hw.unique hw'
    | getters hn' => simp [hn] at hn'
  | getters hn hw =>
    cases ho with
    | unknown _ hg => exact absurd hn hg
    | scope hn' => simp [hn] at hn'
    | getters _ hw' => exact hw.unique hw'

theorem setOption_of_scope (h : node.name = "scan-scope") (options : Options) :
    setOption options node =
      ({ options with scope := · }) <$> (fieldText "scan-scope" node >>= Scope.ofWord) := by
  simp only [setOption, h]
  rw [map_bind]
  rfl

theorem setOption_of_getters (h : node.name = "getters") (options : Options) :
    setOption options node =
      ({ options with getters := · }) <$> (fieldText "getters" node >>= Getters.ofWord) := by
  simp only [setOption, h]
  rw [map_bind]
  rfl

theorem setOption_of_ne (hs : node.name ≠ "scan-scope") (hg : node.name ≠ "getters")
    (options : Options) :
    setOption options node = .error (.unknownGeneratorField node.name) := by
  unfold setOption
  split
  · contradiction
  · contradiction
  · rfl

theorem setOption_step (node : Node) (hm : MakesOptions fields options) :
    (∃ next, setOption options node = .ok next ∧ IsOption node ∧
        MakesOptions (fields ++ [node]) next) ∨
      ∃ fault, setOption options node = .error fault ∧ OptionOffends node fault := by
  by_cases hs : node.name = "scan-scope"
  · rw [setOption_of_scope hs]
    have hg : node.name ≠ "getters" := by simp [hs]
    obtain ⟨scope, hr, ht⟩ | ⟨fault, hr, ho⟩ := scope_words.cases "scan-scope" node
    · rw [hr]
      refine .inl ⟨_, rfl, .scope scope hs ht, ?_, ?_⟩
      · simp [lastText?_append_of_eq hs, ht]
      · rw [lastText?_append_of_ne hg, hm.getters]
    · rw [hr]
      exact .inr ⟨fault, rfl, .scope hs ho⟩
  · by_cases hg : node.name = "getters"
    · rw [setOption_of_getters hg]
      obtain ⟨getters, hr, ht⟩ | ⟨fault, hr, ho⟩ := getters_words.cases "getters" node
      · rw [hr]
        refine .inl ⟨_, rfl, .getters getters hg ht, ?_, ?_⟩
        · rw [lastText?_append_of_ne hs, hm.scope]
        · simp [lastText?_append_of_eq hg, ht]
      · rw [hr]
        exact .inr ⟨fault, rfl, .getters hg ho⟩
    · exact .inr ⟨_, setOption_of_ne hs hg options, .unknown hs hg⟩

theorem options_reading : Reading setOption Options.default (∀ node ∈ ·, IsOption node) MakesOptions
    (fun _ => OptionOffends) :=
  .of_each ⟨rfl, rfl⟩ setOption_step OptionOffends.not_isOption OptionOffends.unique

end

/-! ### Targets -/

/-- A field of the output that has a text. -/
def IsTarget (node : Node) : Prop :=
  (node.name = "dir" ∨ node.name = "extension") ∧ ∃ text, node.text? = some text

inductive TargetOffends (node : Node) : SettingsFault → Prop where
  | unknown : node.name ≠ "dir" → node.name ≠ "extension" →
      TargetOffends node (.unknownOutputField node.name)
  | notString : node.name = "dir" ∨ node.name = "extension" → node.text? = none →
      TargetOffends node (.notString node.name)

/-- A text without the dots that it begins with. -/
def Undotted (text rest : String) : Prop :=
  (∃ dots, (∀ c ∈ dots, c = '.') ∧ text.toList = dots ++ rest.toList) ∧
    rest.toList.head? ≠ some '.'

/-- The target that fields of the output make. -/
structure MakesTarget (fields : List Node) (target : Target) : Prop where
  folder : target.folder = (lastText? "dir" fields).getD "generated"
  extension : Undotted ((lastText? "extension" fields).getD "cs") target.extension

section

variable {node : Node} {fault other : SettingsFault} {fields : List Node} {target : Target}
  {text rest rest' : String}

theorem undotted_dropWhile (text : String) :
    Undotted text (String.ofList (text.toList.dropWhile (· = '.'))) := by
  rw [Undotted, String.toList_ofList]
  refine ⟨⟨text.toList.takeWhile (· = '.'), fun c hc => ?_, ?_⟩, fun h => ?_⟩
  · simpa using List.mem_takeWhile_imp hc
  · rw [List.takeWhile_append_dropWhile]
  · have hd := List.head?_dropWhile_not (fun c => decide (c = '.')) text.toList
    simp [h] at hd

theorem Undotted.unique (h : Undotted text rest) (h' : Undotted text rest') : rest = rest' := by
  -- The dots are what can be taken off at the front, and nothing more can be.
  have hd : ∀ {rest : String}, Undotted text rest →
      rest.toList = text.toList.dropWhile (· = '.') := by
    rintro rest ⟨⟨dots, hd, ht⟩, hh⟩
    rw [ht, List.dropWhile_append_of_pos (by simpa using hd)]
    cases hr : rest.toList with
    | nil => rfl
    | cons c cs =>
      rw [hr] at hh
      rw [List.dropWhile_cons_of_neg (by simpa using hh)]
  exact String.toList_inj.1 ((hd h).trans (hd h').symm)

theorem TargetOffends.not_isTarget (h : TargetOffends node fault) : ¬ IsTarget node := by
  rintro ⟨hn, text, ht⟩
  cases h with
  | unknown hd he => exact hn.elim hd he
  | notString _ ht' => simp [ht] at ht'

theorem TargetOffends.unique (h : TargetOffends node fault) (ho : TargetOffends node other) :
    fault = other := by
  cases h with
  | unknown hd he =>
    cases ho with
    | unknown => rfl
    | notString hn => exact absurd hn (not_or.2 ⟨hd, he⟩)
  | notString hn =>
    cases ho with
    | unknown hd he => exact absurd hn (not_or.2 ⟨hd, he⟩)
    | notString => rfl

theorem setTarget_of_dir (h : node.name = "dir") (target : Target) :
    setTarget target node = ({ target with folder := · }) <$> fieldText "dir" node := by
  simp only [setTarget, h]
  rfl

theorem setTarget_of_extension (h : node.name = "extension") (target : Target) :
    setTarget target node =
      (fun text : String => { target with
        extension := String.ofList (text.toList.dropWhile (· = '.')) }) <$>
          fieldText "extension" node := by
  simp only [setTarget, h]
  rfl

theorem setTarget_of_ne (hd : node.name ≠ "dir") (he : node.name ≠ "extension")
    (target : Target) : setTarget target node = .error (.unknownOutputField node.name) := by
  unfold setTarget
  split
  · contradiction
  · contradiction
  · rfl

theorem setTarget_step (node : Node) (hm : MakesTarget fields target) :
    (∃ next, setTarget target node = .ok next ∧ IsTarget node ∧
        MakesTarget (fields ++ [node]) next) ∨
      ∃ fault, setTarget target node = .error fault ∧ TargetOffends node fault := by
  by_cases hd : node.name = "dir"
  · rw [setTarget_of_dir hd]
    have he : node.name ≠ "extension" := by simp [hd]
    obtain ⟨text, hr, ht⟩ | ⟨hr, ht⟩ := fieldText_cases "dir" node
    · rw [hr]
      refine .inl ⟨_, rfl, ⟨.inl hd, text, ht⟩, ?_, ?_⟩
      · simp [lastText?_append_of_eq hd, ht]
      · rw [lastText?_append_of_ne he]
        exact hm.extension
    · rw [hr]
      exact .inr ⟨_, rfl, hd ▸ .notString (.inl hd) ht⟩
  · by_cases he : node.name = "extension"
    · rw [setTarget_of_extension he]
      obtain ⟨text, hr, ht⟩ | ⟨hr, ht⟩ := fieldText_cases "extension" node
      · rw [hr]
        refine .inl ⟨_, rfl, ⟨.inr he, text, ht⟩, ?_, ?_⟩
        · rw [lastText?_append_of_ne hd]
          exact hm.folder
        · rw [lastText?_append_of_eq he, ht]
          exact undotted_dropWhile text
      · rw [hr]
        exact .inr ⟨_, rfl, he ▸ .notString (.inr he) ht⟩
    · exact .inr ⟨_, setTarget_of_ne hd he target, .unknown hd he⟩

theorem target_reading : Reading setTarget Target.default (∀ node ∈ ·, IsTarget node) MakesTarget
    (fun _ => TargetOffends) :=
  .of_each ⟨rfl, undotted_dropWhile "cs"⟩ setTarget_step TargetOffends.not_isTarget
    TargetOffends.unique

end

end ToolSwitch.Settings
