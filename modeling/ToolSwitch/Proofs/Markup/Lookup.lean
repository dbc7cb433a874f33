import ToolSwitch.Proofs.Markup.Path
import ToolSwitch.Proofs.Markup.Written

/-!
Attributes by their keys.  An accepted tag holds under each key the one attribute that has been read
there, or none; and in which order the attributes stand makes no difference.
-/

namespace ToolSwitch.Markup

open ToolSwitch.Text

/-- What an attribute stands for. -/
def Written.Means (item : Written) (value : String) : Prop :=
  ∃ raw text, item.value = .ok raw ∧ Reference.read raw = .ok text ∧ value = String.ofList text

theorem Written.Means.unique {item : Written} {value other : String} (h : item.Means value)
    (h' : item.Means other) : value = other := by
  obtain ⟨raw, text, hv, hr, rfl⟩ := h
  obtain ⟨raw', text', hv', hr', rfl⟩ := h'
  cases hv.symm.trans hv'
  cases hr.symm.trans hr'
  rfl

namespace Attribute

/-- An attribute that has been read, and how it is written. -/
structure ReadFrom (read : Attribute) (item : Written) : Prop where
  key : read.key = item.key
  value : item.Means read.value

section

variable {size : Nat} {text : Bytes} {key : Name}

/-- Reading attributes together gives what is written, in order. -/
theorem readAll_written {seen : List (Name × Nat)} {attributes : List Attribute}
    (h : readAll size seen text = .ok attributes) :
    List.Forall₂ ReadFrom attributes (written size text).1 := by
  fun_induction readAll size seen text generalizing attributes with
  | case1 | case3 | case4 => cases h
  | case2 seen text hk =>
    cases h
    rw [written_of_end hk]
    exact .nil
  | case5 seen text key position afterKey hk hl raw after hv ih =>
    rw [written_of_value hk hv]
    cases hr : readValue key raw with
    | error defect =>
      rw [hr] at h
      cases h
    | ok value =>
      rw [hr] at h
      cases ho : readAll size ((key, position) :: seen) after with
      | error defect =>
        rw [ho] at h
        cases h
      | ok others =>
        rw [ho] at h
        cases h
        obtain ⟨text, ht, he⟩ := readValue_eq_ok hr
        exact .cons ⟨rfl, raw, text, rfl, ht, he⟩ (ih ho)

/-- What is found among attributes as they are written, and the value found among those read. -/
inductive FoundAs : Option Written → Option String → Prop where
  | one {item : Written} {value : String} : item.Means value → FoundAs (some item) (some value)
  | none : FoundAs none none

theorem find?_of_readFrom {attributes : List Attribute} {items : List Written}
    (h : List.Forall₂ ReadFrom attributes items) (key : Name) :
    FoundAs (items.find? (·.key = key)) ((attributes.find? (·.key = key)).map Attribute.value) := by
  induction h with
  | nil => exact .none
  | @cons read item attributes items hi _ ih =>
    by_cases he : item.key = key
    · rw [List.find?_cons_of_pos (by simpa using he),
        List.find?_cons_of_pos (by simpa [hi.key] using he)]
      exact .one hi.value
    · rw [List.find?_cons_of_neg (by simpa using he),
        List.find?_cons_of_neg (by simpa [hi.key] using he)]
      exact ih

theorem filter_of_find? {items : List Written} (hn : (items.map Written.key).Nodup) {item : Written}
    (h : items.find? (·.key = key) = some item) : items.filter (·.key = key) = [item] := by
  obtain ⟨hk, before, after, rfl, hb⟩ := List.find?_eq_some_iff_append.1 h
  have hk : item.key = key := by simpa using hk
  rw [List.map_append, List.map_cons, List.nodup_append, List.nodup_cons] at hn
  have ha : ∀ other ∈ after, other.key ≠ key := fun other ho he =>
    hn.2.1.1 (hk ▸ he ▸ List.mem_map_of_mem ho)
  rw [List.filter_append, List.filter_cons_of_pos (by simpa using hk),
    List.filter_eq_nil_iff.2 (by simpa using hb), List.filter_eq_nil_iff.2 (by simpa using ha)]
  rfl

end

end Attribute

/-- Elements that are told apart neither by their names nor by what is under a key. -/
structure Element.Agrees (element element' : Element) : Prop where
  name : element.name = element'.name
  attribute? : ∀ key, element.attribute? key = element'.attribute? key

namespace Tag

variable {tag tag' : Tag} {element element' : Element}

/-- What there is under a key in a tag: the one attribute that has it, or nothing. -/
inductive Holds (tag : Tag) (key : Name) : Option String → Prop where
  | one {item : Written} {value : String} :
      tag.written.1.filter (·.key = key) = [item] → item.Means value → Holds tag key (some value)
  | none : tag.written.1.filter (·.key = key) = [] → Holds tag key none

theorem sound_of_toElement (h : tag.toElement = .ok element) : tag.Sound := by
  have hs := tag.toElement_spec
  rw [h] at hs
  exact hs

/-- An accepted tag holds just what has been read in it. -/
theorem holds_of_toElement (h : tag.toElement = .ok element) (key : String) :
    tag.Holds (.ofString key) (element.attribute? key) := by
  have hr := Attribute.readAll_written (readAll_of_toElement h)
  have hk := (sound_of_toElement h).attributes.keys
  have hf := Attribute.find?_of_readFrom hr (.ofString key)
  change Attribute.FoundAs (tag.written.1.find? (·.key = .ofString key))
    (element.attribute? key) at hf
  generalize hi : tag.written.1.find? (·.key = .ofString key) = found at hf
  generalize element.attribute? key = value at hf ⊢
  cases hf with
  | one hm => exact .one (Attribute.filter_of_find? hk hi) hm
  | none => exact .none (by simpa using hi)

theorem Holds.eq_some_iff {key : Name} {held : Option String} (h : tag.Holds key held)
    (value : String) :
    held = some value ↔ ∃ item ∈ tag.written.1, item.key = key ∧ item.Means value := by
  cases h with
  | @one item found hi hm =>
    have hf : ∀ other ∈ tag.written.1, other.key = key → other = item := fun other ho he => by
      have hf : other ∈ tag.written.1.filter (·.key = key) :=
        List.mem_filter.2 ⟨ho, by simpa using he⟩
      rw [hi] at hf
      exact List.mem_singleton.1 hf
    have hm' : item ∈ tag.written.1 ∧ item.key = key := by
      have hf : item ∈ tag.written.1.filter (·.key = key) := hi ▸ List.mem_singleton_self item
      simpa using List.mem_filter.1 hf
    rw [Option.some.injEq]
    constructor
    · rintro rfl
      exact ⟨item, hm'.1, hm'.2, hm⟩
    · rintro ⟨other, ho, he, hv⟩
      exact hm.unique (hf other ho he ▸ hv)
  | none hi =>
    refine iff_of_false nofun ?_
    rintro ⟨item, ho, he, -⟩
    exact absurd he (by simpa using List.filter_eq_nil_iff.1 hi item ho)

/-- The attributes of a tag apart from where they stand. -/
def contents (tag : Tag) : List (Name × Option Bytes) :=
  tag.written.1.map fun item => (item.key, item.value.toOption)

/-- Tags with the same attributes in whatever order. -/
structure Reorders (tag tag' : Tag) : Prop where
  name : tag.name = tag'.name
  contents : tag.contents.Perm tag'.contents
  cut : tag.written.2.isSome = tag'.written.2.isSome

theorem sound_iff : tag.Sound ↔ (tag.contents.map Prod.fst).Nodup ∧
    (∀ item ∈ tag.contents, ∃ raw, item.2 = some raw ∧ 0x3C ∉ raw ∧ Resolves raw) ∧
    tag.written.2.isSome = false := by
  have hk : tag.contents.map Prod.fst = tag.written.1.map Written.key := by
    rw [contents, List.map_map]
    rfl
  have hv : ∀ item : Written, Attribute.Readable item.value ↔
      ∃ raw, item.value.toOption = some raw ∧ 0x3C ∉ raw ∧ Resolves raw := fun item => by
    rw [Attribute.Readable]
    cases item.value <;> simp [Except.toOption]
  rw [hk, contents, List.forall_mem_map, Option.isSome_eq_false_iff, Option.isNone_iff_eq_none]
  constructor
  · rintro ⟨⟨hn, hr⟩, hc⟩
    exact ⟨hn, fun item hm => (hv item).1 (hr item hm), hc⟩
  · rintro ⟨hn, hr, hc⟩
    exact ⟨⟨hn, fun item hm => (hv item).2 (hr item hm)⟩, hc⟩

theorem means_iff_contents (key : Name) (value : String) :
    (∃ item ∈ tag.written.1, item.key = key ∧ item.Means value) ↔
      ∃ raw text, (key, some raw) ∈ tag.contents ∧ Reference.read raw = .ok text ∧
        value = String.ofList text := by
  constructor
  · rintro ⟨item, hm, rfl, raw, text, hv, hr⟩
    exact ⟨raw, text, List.mem_map.2 ⟨item, hm, by rw [hv]; rfl⟩, hr⟩
  · rintro ⟨raw, text, hm, hr⟩
    obtain ⟨item, hm, he⟩ := List.mem_map.1 hm
    obtain ⟨hk, hv⟩ := Prod.mk.inj he
    refine ⟨item, hm, hk, raw, text, ?_, hr⟩
    cases hi : item.value with
    | error fault =>
      rw [hi] at hv
      cases hv
    | ok other =>
      rw [hi] at hv
      cases hv
      rfl

namespace Reorders

theorem refl (tag : Tag) : tag.Reorders tag :=
  ⟨rfl, .rfl, rfl⟩

theorem sound_iff (h : tag.Reorders tag') : tag.Sound ↔ tag'.Sound := by
  rw [Tag.sound_iff, Tag.sound_iff, (h.contents.map Prod.fst).nodup_iff, h.cut]
  simp only [h.contents.mem_iff]

theorem agrees (h : tag.Reorders tag') (he : tag.toElement = .ok element)
    (he' : tag'.toElement = .ok element') : element.Agrees element' := by
  refine ⟨?_, fun key => Option.ext fun value => ?_⟩
  · rw [toElement_name he, toElement_name he', h.name]
  · rw [(holds_of_toElement he key).eq_some_iff, (holds_of_toElement he' key).eq_some_iff,
      means_iff_contents, means_iff_contents]
    simp only [h.contents.mem_iff]

/-- Both tags are accepted or both are refused. -/
theorem toElement (h : tag.Reorders tag') :
    (∃ element element', tag.toElement = .ok element ∧ tag'.toElement = .ok element' ∧
        element.Agrees element') ∨
      ∃ defect defect', tag.toElement = .error defect ∧ tag'.toElement = .error defect' := by
  have hs := tag.toElement_spec
  have hs' := tag'.toElement_spec
  cases he : tag.toElement with
  | error defect =>
    cases he' : tag'.toElement with
    | error defect' => exact .inr ⟨defect, defect', rfl, rfl⟩
    | ok element' =>
      rw [he] at hs
      rw [he'] at hs'
      exact absurd (h.sound_iff.2 hs') hs.not_sound
  | ok element =>
    cases he' : tag'.toElement with
    | error defect' =>
      rw [he] at hs
      rw [he'] at hs'
      exact absurd (h.sound_iff.1 hs) hs'.not_sound
    | ok element' => exact .inl ⟨element, element', rfl, rfl, h.agrees he he'⟩

end Reorders

end Tag

end ToolSwitch.Markup
