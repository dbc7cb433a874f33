import Mathlib.Data.List.Perm.Basic
import ToolSwitch.Proofs.Settings.Fields

/-!
Which nodes make settings, what settings they make, and which node is to blame where they make none.
-/

namespace ToolSwitch.Settings

open ToolSwitch.Kdl ToolSwitch.Schema

/-- The nodes in the blocks of a name, in order. -/
def fields (block : String) (nodes : List Node) : List Node :=
  (named block nodes).flatMap Node.children

/-- Nodes that make settings. -/
structure Sound (nodes : List Node) : Prop where
  known : ∀ node ∈ nodes,
    node.name = "generator" ∨ node.name = "source" ∨ node.name = "output"
  generator : (named "generator" nodes).length ≤ 1
  output : (named "output" nodes).length ≤ 1
  sources : ∀ node ∈ named "source" nodes, ∃ text, node.text? = some text
  options : ∀ field ∈ fields "generator" nodes, IsOption field
  targets : ∀ field ∈ fields "output" nodes, IsTarget field

/-- How a node offends behind others.  Whether a block is repeated is asked before what is in it. -/
inductive Offends (before : List Node) (node : Node) : SettingsFault → Prop where
  | unknown : node.name ≠ "generator" → node.name ≠ "source" → node.name ≠ "output" →
      Offends before node (.unknownNode node.name)
  | repeatedGenerator : node.name = "generator" → named "generator" before ≠ [] →
      Offends before node .repeatedGenerator
  | generator {fault : SettingsFault} : node.name = "generator" → named "generator" before = [] →
      First (∀ field ∈ ·, IsOption field) (fun _ => OptionOffends) node.children fault →
      Offends before node fault
  | source : node.name = "source" → node.text? = none → Offends before node (.notString "source")
  | repeatedOutput : node.name = "output" → named "output" before ≠ [] →
      Offends before node .repeatedOutput
  | output {fault : SettingsFault} : node.name = "output" → named "output" before = [] →
      First (∀ field ∈ ·, IsTarget field) (fun _ => TargetOffends) node.children fault →
      Offends before node fault

/-- The settings that nodes make. -/
structure Makes (nodes : List Node) (settings : Settings) : Prop where
  sources : settings.sources = (named "source" nodes).filterMap Node.text?
  options : MakesOptions (fields "generator" nodes) settings.options
  target_isSome : settings.target.isSome ↔ named "output" nodes ≠ []
  target : ∀ target, settings.target = some target → MakesTarget (fields "output" nodes) target

/-- What has been made of nodes on the way. -/
structure MakesProgress (nodes : List Node) (progress : Progress) : Prop where
  settings : Makes nodes progress.settings
  seenGenerator : progress.seenGenerator ↔ named "generator" nodes ≠ []

section

variable {before nodes others : List Node} {node : Node} {name block : String}
  {fault other : SettingsFault} {settings settings' : Settings} {progress : Progress}

theorem fields_append_of_ne (h : node.name ≠ block) (before : List Node) :
    fields block (before ++ [node]) = fields block before := by
  rw [fields, named_append_of_ne h, fields]

theorem fields_append_of_first (h : node.name = block) (hb : named block before = []) :
    fields block (before ++ [node]) = node.children := by
  simp [fields, named_append_of_eq h, hb]

theorem Sound.of_append {front back : List Node} (h : Sound (front ++ back)) : Sound front := by
  have hn : ∀ name, named name (front ++ back) = named name front ++ named name back :=
    fun name => List.filter_append ..
  have hf : ∀ block, fields block (front ++ back) = fields block front ++ fields block back :=
    fun block => by rw [fields, hn, List.flatMap_append, fields, fields]
  constructor
  case known => exact fun node hm => h.known node (List.mem_append_left _ hm)
  case generator =>
    have hg := h.generator
    rw [hn, List.length_append] at hg
    omega
  case output =>
    have ho := h.output
    rw [hn, List.length_append] at ho
    omega
  case sources => exact fun node hm => h.sources node (hn _ ▸ List.mem_append_left _ hm)
  case options => exact fun field hm => h.options field (hf _ ▸ List.mem_append_left _ hm)
  case targets => exact fun field hm => h.targets field (hf _ ▸ List.mem_append_left _ hm)

theorem Offends.not_sound (h : Offends before node fault) : ¬ Sound (before ++ [node]) := by
  intro hs
  cases h with
  | unknown hg hn ho =>
    obtain he | he | he := hs.known node (by simp)
    · exact hg he
    · exact hn he
    · exact ho he
  | repeatedGenerator hn hb =>
    have hl := hs.generator
    rw [named_append_of_eq hn, List.length_append, List.length_singleton] at hl
    exact hb (List.length_eq_zero_iff.1 (by omega))
  | generator hn hb hf =>
    have ho := hs.options
    rw [fields_append_of_first hn hb] at ho
    exact options_reading.not_sound hf ho
  | source hn ht =>
    obtain ⟨text, hx⟩ := hs.sources node (by simp [named_append_of_eq hn])
    simp [ht] at hx
  | repeatedOutput hn hb =>
    have hl := hs.output
    rw [named_append_of_eq hn, List.length_append, List.length_singleton] at hl
    exact hb (List.length_eq_zero_iff.1 (by omega))
  | output hn hb hf =>
    have ho := hs.targets
    rw [fields_append_of_first hn hb] at ho
    exact target_reading.not_sound hf ho

theorem Offends.unique (h : Offends before node fault) (ho : Offends before node other) :
    fault = other := by
  cases h with
  | unknown hg hn hu => cases ho <;> simp_all
  | repeatedGenerator hn hb => cases ho <;> simp_all
  | generator hn hb hf =>
    cases ho with
    | generator _ _ hf' => exact options_reading.first_unique hf hf'
    | unknown | repeatedGenerator | source | repeatedOutput | output => simp_all
  | source hn ht => cases ho <;> simp_all
  | repeatedOutput hn hb => cases ho <;> simp_all
  | output hn hb hf =>
    cases ho with
    | output _ _ hf' => exact target_reading.first_unique hf hf'
    | unknown | repeatedGenerator | source | repeatedOutput | generator => simp_all

theorem Sound.append (hs : Sound before)
    (hg : node.name = "generator" →
      named "generator" before = [] ∧ ∀ field ∈ node.children, IsOption field)
    (ht : node.name = "source" → ∃ text, node.text? = some text)
    (ho : node.name = "output" →
      named "output" before = [] ∧ ∀ field ∈ node.children, IsTarget field)
    (hn : node.name = "generator" ∨ node.name = "source" ∨ node.name = "output") :
    Sound (before ++ [node]) := by
  constructor
  case known => exact List.forall_mem_append.2 ⟨hs.known, by simpa using hn⟩
  case generator =>
    by_cases h : node.name = "generator"
    · simp [named_append_of_eq h, (hg h).1]
    · simpa [named_append_of_ne h] using hs.generator
  case output =>
    by_cases h : node.name = "output"
    · simp [named_append_of_eq h, (ho h).1]
    · simpa [named_append_of_ne h] using hs.output
  case sources =>
    by_cases h : node.name = "source"
    · rw [named_append_of_eq h]
      exact List.forall_mem_append.2 ⟨hs.sources, by simpa using ht h⟩
    · simpa [named_append_of_ne h] using hs.sources
  case options =>
    by_cases h : node.name = "generator"
    · simpa [fields_append_of_first h (hg h).1] using (hg h).2
    · simpa [fields_append_of_ne h] using hs.options
  case targets =>
    by_cases h : node.name = "output"
    · simpa [fields_append_of_first h (ho h).1] using (ho h).2
    · simpa [fields_append_of_ne h] using hs.targets

theorem add_of_generator (h : node.name = "generator") (hs : progress.seenGenerator = false) :
    progress.add node =
      (fun options => ⟨{ progress.settings with options }, true⟩) <$>
        node.children.foldlM setOption Options.default := by
  simp only [Progress.add, h, hs]
  rfl

theorem add_of_source (h : node.name = "source") (progress : Progress) :
    progress.add node =
      (fun text => { progress with settings :=
        { progress.settings with sources := progress.settings.sources ++ [text] } }) <$>
          fieldText "source" node := by
  simp only [Progress.add, h]
  rfl

theorem add_of_output (h : node.name = "output") (hs : progress.settings.target = none) :
    progress.add node =
      (fun target => { progress with settings :=
        { progress.settings with target := some target } }) <$>
          node.children.foldlM setTarget Target.default := by
  simp only [Progress.add, h, hs]
  rfl

theorem add_of_ne (hg : node.name ≠ "generator") (hs : node.name ≠ "source")
    (ho : node.name ≠ "output") (progress : Progress) :
    progress.add node = .error (.unknownNode node.name) := by
  unfold Progress.add
  split
  · contradiction
  · contradiction
  · contradiction
  · rfl

theorem add_generator_step (hn : node.name = "generator") (hs : Sound before)
    (hm : MakesProgress before progress) :
    Steps Progress.add Sound MakesProgress Offends before progress node := by
  by_cases hb : named "generator" before = []
  · have hseen : progress.seenGenerator = false := by
      rw [← Bool.not_eq_true, hm.seenGenerator, not_not]
      exact hb
    rw [Steps, add_of_generator hn hseen]
    obtain ⟨ho, options, hr, hmakes⟩ | ⟨fault, hr, hf⟩ := options_reading.outcome node.children
    · rw [hr]
      refine .inl ⟨_, rfl, hs.append (fun _ => ⟨hb, ho⟩) (by simp [hn]) (by simp [hn]) (.inl hn),
        ⟨?_, ?_, ?_, ?_⟩, by simp [named_append_of_eq hn]⟩
      · rw [named_append_of_ne (by simp [hn])]
        exact hm.settings.sources
      · rw [fields_append_of_first hn hb]
        exact hmakes
      · rw [named_append_of_ne (by simp [hn])]
        exact hm.settings.target_isSome
      · rw [fields_append_of_ne (by simp [hn])]
        exact hm.settings.target
    · rw [hr]
      exact .inr ⟨fault, rfl, .generator hn hb hf⟩
  · refine .inr ⟨.repeatedGenerator, ?_, .repeatedGenerator hn hb⟩
    simp only [Progress.add, hn, hm.seenGenerator.2 hb, if_true]

theorem add_source_step (hn : node.name = "source") (hs : Sound before)
    (hm : MakesProgress before progress) :
    Steps Progress.add Sound MakesProgress Offends before progress node := by
  rw [Steps, add_of_source hn]
  obtain ⟨text, hr, ht⟩ | ⟨hr, ht⟩ := fieldText_cases "source" node
  · rw [hr]
    refine .inl ⟨_, rfl, hs.append (by simp [hn]) (fun _ => ⟨text, ht⟩) (by simp [hn])
      (.inr (.inl hn)), ⟨?_, ?_, ?_, ?_⟩, ?_⟩
    · simp [named_append_of_eq hn, ht, hm.settings.sources]
    · rw [fields_append_of_ne (by simp [hn])]
      exact hm.settings.options
    · rw [named_append_of_ne (by simp [hn])]
      exact hm.settings.target_isSome
    · rw [fields_append_of_ne (by simp [hn])]
      exact hm.settings.target
    · rw [named_append_of_ne (by simp [hn])]
      exact hm.seenGenerator
  · rw [hr]
    exact .inr ⟨_, rfl, .source hn ht⟩

theorem add_output_step (hn : node.name = "output") (hs : Sound before)
    (hm : MakesProgress before progress) :
    Steps Progress.add Sound MakesProgress Offends before progress node := by
  by_cases hb : named "output" before = []
  · have hnone : progress.settings.target = none := by
      rw [← Option.not_isSome_iff_eq_none, hm.settings.target_isSome, not_not]
      exact hb
    rw [Steps, add_of_output hn hnone]
    obtain ⟨ho, target, hr, hmakes⟩ | ⟨fault, hr, hf⟩ := target_reading.outcome node.children
    · rw [hr]
      refine .inl ⟨_, rfl, hs.append (by simp [hn]) (by simp [hn]) (fun _ => ⟨hb, ho⟩)
        (.inr (.inr hn)), ⟨?_, ?_, by simp [named_append_of_eq hn], ?_⟩, ?_⟩
      · rw [named_append_of_ne (by simp [hn])]
        exact hm.settings.sources
      · rw [fields_append_of_ne (by simp [hn])]
        exact hm.settings.options
      · rw [fields_append_of_first hn hb]
        rintro _ ⟨⟩
        exact hmakes
      · rw [named_append_of_ne (by simp [hn])]
        exact hm.seenGenerator
    · rw [hr]
      exact .inr ⟨fault, rfl, .output hn hb hf⟩
  · refine .inr ⟨.repeatedOutput, ?_, .repeatedOutput hn hb⟩
    simp only [Progress.add, hn, hm.settings.target_isSome.2 hb, if_true]

theorem nodes_reading : Reading Progress.add Progress.start Sound MakesProgress Offends where
  sound_nil := by constructor <;> simp [named, fields]
  made_nil := by
    refine ⟨⟨rfl, ⟨rfl, rfl⟩, ?_, ?_⟩, ?_⟩
    · simp [Progress.start, default, named]
    · simp [Progress.start, default]
    · simp [Progress.start, named]
  of_append := Sound.of_append
  step node hs hm := by
    by_cases hg : node.name = "generator"
    · exact add_generator_step hg hs hm
    by_cases hn : node.name = "source"
    · exact add_source_step hn hs hm
    by_cases ho : node.name = "output"
    · exact add_output_step ho hs hm
    exact .inr ⟨_, add_of_ne hg hn ho _, .unknown hg hn ho⟩
  refuses := Offends.not_sound
  unique := Offends.unique

theorem ofNodes_eq_ok : ofNodes nodes = .ok settings ↔
    ∃ progress, nodes.foldlM Progress.add Progress.start = .ok progress ∧
      progress.settings = settings := by
  rw [ofNodes]
  cases nodes.foldlM Progress.add Progress.start <;> simp

theorem ofNodes_eq_error : ofNodes nodes = .error fault ↔
    nodes.foldlM Progress.add Progress.start = .error fault := by
  rw [ofNodes]
  cases nodes.foldlM Progress.add Progress.start <;> simp

theorem makes_of_ofNodes (h : ofNodes nodes = .ok settings) : Makes nodes settings := by
  obtain ⟨progress, hr, rfl⟩ := ofNodes_eq_ok.1 h
  exact (nodes_reading.made_of_ok hr).settings

theorem exists_ofNodes_iff : (∃ settings, ofNodes nodes = .ok settings) ↔ Sound nodes := by
  rw [← nodes_reading.ok_iff]
  constructor
  · rintro ⟨settings, h⟩
    obtain ⟨progress, hr, -⟩ := ofNodes_eq_ok.1 h
    exact ⟨progress, hr⟩
  · rintro ⟨progress, hr⟩
    exact ⟨progress.settings, ofNodes_eq_ok.2 ⟨progress, hr, rfl⟩⟩

/-! ### Order -/

theorem scope_word_injective {scope scope' : Scope} (h : scope.word = scope'.word) :
    scope = scope' := by
  cases scope <;> cases scope' <;> simp_all [Scope.word]

theorem getters_word_injective {getters getters' : Getters} (h : getters.word = getters'.word) :
    getters = getters' := by
  cases getters <;> cases getters' <;> simp_all [Getters.word]

theorem MakesOptions.unique {fields : List Node} {options options' : Options}
    (h : MakesOptions fields options) (h' : MakesOptions fields options') : options = options' := by
  cases options
  cases options'
  rw [Options.mk.injEq]
  exact ⟨scope_word_injective (h.scope.trans h'.scope.symm),
    getters_word_injective (h.getters.trans h'.getters.symm)⟩

theorem MakesTarget.unique {fields : List Node} {target target' : Target}
    (h : MakesTarget fields target) (h' : MakesTarget fields target') : target = target' := by
  cases target
  cases target'
  rw [Target.mk.injEq]
  exact ⟨h.folder.trans h'.folder.symm, h.extension.unique h'.extension⟩

theorem Makes.unique (h : Makes nodes settings) (h' : Makes nodes settings') :
    settings = settings' := by
  have hs := h.sources.trans h'.sources.symm
  have ho := h.options.unique h'.options
  have ht : settings.target = settings'.target := by
    cases htarget : settings.target with
    | none =>
      have hn : ¬ settings'.target.isSome := by
        rw [h'.target_isSome, ← h.target_isSome, htarget]
        simp
      exact (Option.not_isSome_iff_eq_none.1 hn).symm
    | some target =>
      obtain ⟨target', htarget'⟩ := Option.isSome_iff_exists.1
        (h'.target_isSome.2 (h.target_isSome.1 (htarget ▸ rfl)))
      rw [htarget', (h.target _ htarget).unique (h'.target _ htarget')]
  cases settings
  cases settings'
  simp_all

theorem named_of_perm (h : others.Perm nodes) (hl : (named name nodes).length ≤ 1) :
    named name others = named name nodes := by
  have hp : (named name others).Perm (named name nodes) := h.filter _
  match hn : named name nodes with
  | [] => exact List.perm_nil.1 (hn ▸ hp)
  | [node] => exact List.perm_singleton.1 (hn ▸ hp)
  | _ :: _ :: _ => simp [hn] at hl

/-- All that settings are made of is in the sources, which keep their order, and in blocks of which
there is one at most. -/
theorem Sound.congr (hs : Sound nodes) (h : others.Perm nodes)
    (hn : named "source" others = named "source" nodes) :
    Sound others ∧ ∀ settings, Makes others settings ↔ Makes nodes settings := by
  have hg := named_of_perm h hs.generator
  have ho := named_of_perm h hs.output
  have hfg : fields "generator" others = fields "generator" nodes := by rw [fields, hg, fields]
  have hfo : fields "output" others = fields "output" nodes := by rw [fields, ho, fields]
  refine ⟨⟨fun node hm => hs.known node (h.subset hm), hg ▸ hs.generator, ho ▸ hs.output,
    hn ▸ hs.sources, hfg ▸ hs.options, hfo ▸ hs.targets⟩, fun settings => ⟨fun hm => ?_, fun hm => ?_⟩⟩
  · exact ⟨hn ▸ hm.sources, hfg ▸ hm.options, ho ▸ hm.target_isSome, hfo ▸ hm.target⟩
  · exact ⟨hn ▸ hm.sources, hfg ▸ hm.options, ho ▸ hm.target_isSome, hfo ▸ hm.target⟩

theorem ofNodes_of_perm (h : others.Perm nodes)
    (hn : named "source" others = named "source" nodes) (hr : ofNodes nodes = .ok settings) :
    ofNodes others = .ok settings := by
  obtain ⟨hs, hm⟩ := (exists_ofNodes_iff.1 ⟨settings, hr⟩).congr h hn
  obtain ⟨settings', hr'⟩ := exists_ofNodes_iff.2 hs
  rw [hr', ((hm _).1 (makes_of_ofNodes hr')).unique (makes_of_ofNodes hr)]

/-- Nodes make settings if they are sound, whichever order their blocks are in, and otherwise the
first that offends is reported. -/
theorem settings_of_nodes (nodes : List Node) :
    (∀ text, Document.parse? text = some nodes → ofText text = ofNodes nodes) ∧
      ((∃ settings, ofNodes nodes = .ok settings) ↔ Sound nodes) ∧
      (∀ settings, ofNodes nodes = .ok settings → Makes nodes settings) ∧
      (∀ others, others.Perm nodes → named "source" others = named "source" nodes →
        ∀ settings, ofNodes others = .ok settings ↔ ofNodes nodes = .ok settings) ∧
      ∀ fault, ofNodes nodes = .error fault ↔ First Sound Offends nodes fault := by
  refine ⟨fun text ht => by rw [ofText, ht], exists_ofNodes_iff, fun _ => makes_of_ofNodes,
    fun others hp hn settings => ⟨ofNodes_of_perm hp.symm hn.symm, ofNodes_of_perm hp hn⟩,
    fun fault => ?_⟩
  rw [ofNodes_eq_error, nodes_reading.error_iff]

end

end ToolSwitch.Settings
