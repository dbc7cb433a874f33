import Mathlib.Data.List.Nodup
import ToolSwitch.Markup.Attribute

/-!
The attributes of a tag as they are written, apart from whether they may stand there.  Checking them
as they are read accepts the tags whose attributes are sound all together, and stops at the first
that is not.
-/

namespace ToolSwitch.Markup

open ToolSwitch.Text

theorem first_unique {α : Type} {sound : List α → Prop} {before before' after after' : List α}
    {item item' : α} (hs : ∀ front back, sound (front ++ back) → sound front)
    (h : before ++ item :: after = before' ++ item' :: after') (hb : sound before)
    (hi : ¬ sound (before ++ [item])) (hb' : sound before') (hi' : ¬ sound (before' ++ [item'])) :
    before = before' ∧ item = item' := by
  obtain ⟨between, he, hr⟩ | ⟨between, he, hr⟩ := List.append_eq_append_iff.1 h
  · cases between with
    | nil => exact ⟨by simpa using he.symm, (List.cons.inj hr).1⟩
    | cons first between =>
      obtain rfl := (List.cons.inj hr).1
      rw [he, List.append_cons] at hb'
      exact absurd (hs _ _ hb') hi
  · cases between with
    | nil => exact ⟨by simpa using he, (List.cons.inj hr).1.symm⟩
    | cons first between =>
      obtain rfl := (List.cons.inj hr).1
      rw [he, List.append_cons] at hb
      exact absurd (hs _ _ hb) hi'

/-- An attribute as it stands in a tag, at a position told like those of the faults. -/
structure Written where
  key : Name
  position : Nat
  /-- What stands between the quotes, or why there is no quoted value. -/
  value : Except AttributeFault Bytes

/-- Bytes that are text in which all references mean something. -/
def Resolves (raw : Bytes) : Prop :=
  ∃ text, Utf8.decode raw = .ok text ∧ ∃ expanded, Reference.expand text = .ok expanded

theorem resolves_iff (raw : Bytes) : Resolves raw ↔ ∃ text, Reference.read raw = .ok text := by
  unfold Resolves Reference.read
  constructor
  · rintro ⟨text, hd, expanded, he⟩
    refine ⟨expanded, ?_⟩
    rw [hd]
    change (Reference.expand text).mapError Fault.reference = .ok expanded
    rw [he]
    rfl
  · rintro ⟨expanded, hr⟩
    cases hd : Utf8.decode raw with
    | error fault =>
      rw [hd] at hr
      cases hr
    | ok text =>
      rw [hd] at hr
      change (Reference.expand text).mapError Fault.reference = .ok expanded at hr
      refine ⟨text, rfl, ?_⟩
      cases he : Reference.expand text with
      | error fault =>
        rw [he] at hr
        cases hr
      | ok other => exact ⟨other, rfl⟩

namespace Attribute

/-- The attributes of a tag, and what is wrong with the text behind the last if that is no key.
Nothing is looked at behind a value that is missing. -/
def written (size : Nat) (text : Bytes) : List Written × Option AttributeFault :=
  match _hk : scanKey size text with
  | .error fault => ([], some fault)
  | .ok none => ([], none)
  | .ok (some (key, position, afterKey)) =>
    match _hv : scanValue size afterKey with
    | .error fault => ([⟨key, position, .error fault⟩], none)
    | .ok (value, after) =>
      (⟨key, position, .ok value⟩ :: (written size after).1, (written size after).2)
termination_by text.length
decreasing_by
  all_goals
    have := scanKey_length size _hk
    have := scanValue_length size _hv
    omega

section

variable {size position : Nat} {text afterKey value after : Bytes} {key : Name}
  {fault : AttributeFault}

theorem written_of_no_key (h : scanKey size text = .error fault) :
    written size text = ([], some fault) := by
  rw [written]
  split <;> simp_all

theorem written_of_end (h : scanKey size text = .ok none) : written size text = ([], none) := by
  rw [written]
  split <;> simp_all

theorem written_of_no_value (h : scanKey size text = .ok (some (key, position, afterKey)))
    (hv : scanValue size afterKey = .error fault) :
    written size text = ([⟨key, position, .error fault⟩], none) := by
  rw [written]
  split <;> simp_all
  split <;> simp_all

theorem written_of_value (h : scanKey size text = .ok (some (key, position, afterKey)))
    (hv : scanValue size afterKey = .ok (value, after)) :
    written size text =
      (⟨key, position, .ok value⟩ :: (written size after).1, (written size after).2) := by
  rw [written]
  split <;> simp_all
  split <;> simp_all

end

def Readable (value : Except AttributeFault Bytes) : Prop :=
  ∃ raw, value = .ok raw ∧ 0x3C ∉ raw ∧ Resolves raw

structure Sound (attributes : List Written) : Prop where
  keys : (attributes.map Written.key).Nodup
  values : ∀ item ∈ attributes, Readable item.value

/-- What is wrong with an attribute behind others.  A key that is taken counts before anything in
the value, and a bracket before the text that it stands in. -/
inductive Breaks (before : List Written) (item : Written) : Defect → Prop where
  | duplicate {first : Written} : first ∈ before → first.key = item.key →
      Breaks before item (.markup (.attribute (.duplicate item.position first.position)))
  | value {fault : AttributeFault} : item.key ∉ before.map Written.key →
      item.value = .error fault → Breaks before item (.markup (.attribute fault))
  | bracket {raw : Bytes} : item.key ∉ before.map Written.key → item.value = .ok raw →
      0x3C ∈ raw → Breaks before item (.malformed (.rawAngleBracket item.key.text))
  | unread {raw : Bytes} {fault : Fault} : item.key ∉ before.map Written.key →
      item.value = .ok raw → 0x3C ∉ raw → Reference.read raw = .error fault →
      Breaks before item (.markup fault)

/-- What is first wrong with attributes, or with the text behind them. -/
inductive FirstBreak (attributes : List Written) (cut : Option AttributeFault) : Defect → Prop where
  | item {before after : List Written} {item : Written} {defect : Defect} :
      attributes = before ++ item :: after → Sound before →
      Breaks before item defect → FirstBreak attributes cut defect
  | cut {fault : AttributeFault} : Sound attributes → cut = some fault →
      FirstBreak attributes cut (.markup (.attribute fault))

section

variable {before after attributes : List Written} {item : Written} {cut : Option AttributeFault}
  {defect other : Defect}

theorem sound_nil : Sound [] :=
  ⟨List.nodup_nil, by simp⟩

theorem sound_append_singleton :
    Sound (before ++ [item]) ↔
      Sound before ∧ item.key ∉ before.map Written.key ∧ Readable item.value := by
  constructor
  · rintro ⟨hk, hv⟩
    rw [List.map_append, List.nodup_append] at hk
    rw [List.forall_mem_append, List.forall_mem_singleton] at hv
    refine ⟨⟨hk.1, hv.1⟩, fun hm => ?_, hv.2⟩
    exact hk.2.2 _ hm _ (by simp) rfl
  · rintro ⟨⟨hk, hv⟩, hn, hr⟩
    refine ⟨?_, List.forall_mem_append.2 ⟨hv, List.forall_mem_singleton.2 hr⟩⟩
    rw [List.map_append, List.nodup_append]
    refine ⟨hk, by simp, fun a ha b hb he => hn ?_⟩
    obtain rfl : b = item.key := by simpa using hb
    exact he ▸ ha

theorem Sound.of_append (h : Sound (before ++ after)) : Sound before := by
  obtain ⟨hk, hv⟩ := h
  rw [List.map_append, List.nodup_append] at hk
  exact ⟨hk.1, (List.forall_mem_append.1 hv).1⟩

theorem Breaks.not_sound (h : Breaks before item defect) : ¬ Sound (before ++ [item]) := by
  rw [sound_append_singleton]
  rintro ⟨-, hk, raw, hv, hb, hr⟩
  cases h with
  | duplicate hm he => exact hk (he ▸ List.mem_map_of_mem hm)
  | value _ he => cases hv.symm.trans he
  | bracket _ he hm =>
    cases hv.symm.trans he
    exact hb hm
  | unread _ he _ hf =>
    cases hv.symm.trans he
    obtain ⟨text, ht⟩ := (resolves_iff _).1 hr
    cases ht.symm.trans hf

theorem FirstBreak.not_sound (h : FirstBreak attributes cut defect) :
    ¬ (Sound attributes ∧ cut = none) := by
  rintro ⟨hs, hc⟩
  cases h with
  | @item before after item _ he _ hb =>
    rw [he, List.append_cons] at hs
    exact hb.not_sound hs.of_append
  | cut _ hi => cases hi.symm.trans hc

theorem Breaks.unique (hs : Sound before) (h : Breaks before item defect)
    (h' : Breaks before item other) : defect = other := by
  cases h with
  | duplicate hm he =>
    cases h' with
    | duplicate hm' he' => rw [List.inj_on_of_nodup_map hs.keys hm hm' (he.trans he'.symm)]
    | value hn | bracket hn | unread hn => exact absurd (he ▸ List.mem_map_of_mem hm) hn
  | value hn hv =>
    cases h' with
    | duplicate hm he => exact absurd (he ▸ List.mem_map_of_mem hm) hn
    | value _ hv' =>
      cases hv.symm.trans hv'
      rfl
    | bracket _ hv' | unread _ hv' => cases hv.symm.trans hv'
  | bracket hn hv hb =>
    cases h' with
    | duplicate hm he => exact absurd (he ▸ List.mem_map_of_mem hm) hn
    | value _ hv' => cases hv.symm.trans hv'
    | bracket => rfl
    | unread _ hv' hb' =>
      cases hv.symm.trans hv'
      exact absurd hb hb'
  | unread hn hv hb hr =>
    cases h' with
    | duplicate hm he => exact absurd (he ▸ List.mem_map_of_mem hm) hn
    | value _ hv' => cases hv.symm.trans hv'
    | bracket _ hv' hb' =>
      cases hv.symm.trans hv'
      exact absurd hb' hb
    | unread _ hv' _ hr' =>
      cases hv.symm.trans hv'
      cases hr.symm.trans hr'
      rfl

theorem FirstBreak.unique (h : FirstBreak attributes cut defect)
    (h' : FirstBreak attributes cut other) : defect = other := by
  cases h with
  | item he hs hb =>
    cases h' with
    | item he' hs' hb' =>
      obtain ⟨rfl, rfl⟩ := first_unique (fun _ _ => Sound.of_append) (he.symm.trans he') hs
        hb.not_sound hs' hb'.not_sound
      exact hb.unique hs hb'
    | cut hs' =>
      rw [he, List.append_cons] at hs'
      exact absurd hs'.of_append hb.not_sound
  | cut hs hc =>
    cases h' with
    | item he' hs' hb' =>
      rw [he', List.append_cons] at hs
      exact absurd hs.of_append hb'.not_sound
    | cut _ hc' =>
      cases hc.symm.trans hc'
      rfl

end

theorem readValue_eq {key : Name} {value : Bytes} :
    readValue key value =
      if 0x3C ∈ value then .error (.malformed (.rawAngleBracket key.text))
      else (String.ofList <$> Reference.read value).mapError .markup := by
  simp [readValue]

theorem readValue_spec {before : List Written} {key : Name} {position : Nat} {raw : Bytes}
    (hn : key ∉ before.map Written.key) :
    match readValue key raw with
    | .ok _ => Readable (.ok raw)
    | .error defect => Breaks before ⟨key, position, .ok raw⟩ defect := by
  rw [readValue_eq]
  by_cases hb : 0x3C ∈ raw
  · rw [if_pos hb]
    exact @Breaks.bracket before ⟨key, position, .ok raw⟩ raw hn rfl hb
  · rw [if_neg hb]
    cases hr : Reference.read raw with
    | error fault => exact .unread hn rfl hb hr
    | ok text => exact ⟨raw, rfl, hb, (resolves_iff raw).2 ⟨text, hr⟩⟩

/-- The keys that are taken behind some attributes, the last one first. -/
def taken (before : List Written) : List (Name × Nat) :=
  (before.map fun item => (item.key, item.position)).reverse

theorem taken_nil : taken [] = [] :=
  rfl

theorem taken_append_singleton (before : List Written) (item : Written) :
    taken (before ++ [item]) = (item.key, item.position) :: taken before := by
  simp [taken]

theorem not_mem_of_lookup {before : List Written} {key : Name}
    (h : (taken before).lookup key = none) : key ∉ before.map Written.key := by
  rw [List.lookup_eq_none_iff] at h
  simp only [taken, List.mem_reverse, List.mem_map] at h ⊢
  rintro ⟨item, hm, rfl⟩
  simpa using h _ ⟨item, hm, rfl⟩

theorem mem_of_lookup {before : List Written} {key : Name} {previous : Nat}
    (h : (taken before).lookup key = some previous) :
    ∃ first ∈ before, first.key = key ∧ first.position = previous := by
  have hm : (key, previous) ∈ taken before := by
    obtain ⟨front, back, he, -⟩ := List.lookup_eq_some_iff.1 h
    rw [he]
    simp
  simpa [taken] using hm

theorem readAll_spec {size : Nat} {text : Bytes} {before : List Written} (hs : Sound before) :
    match readAll size (taken before) text with
    | .ok _ => Sound (before ++ (written size text).1) ∧ (written size text).2 = none
    | .error defect =>
      FirstBreak (before ++ (written size text).1) (written size text).2 defect := by
  generalize ht : taken before = seen
  fun_induction readAll size seen text generalizing before with
  | case1 seen text fault h =>
    rw [written_of_no_key h, List.append_nil]
    exact .cut hs rfl
  | case2 seen text h =>
    rw [written_of_end h, List.append_nil]
    exact ⟨hs, rfl⟩
  | case3 seen text key position afterKey h previous hl =>
    obtain ⟨first, hm, rfl, rfl⟩ := mem_of_lookup (ht ▸ hl)
    cases hv : scanValue size afterKey with
    | error fault =>
      rw [written_of_no_value h hv]
      exact .item rfl hs (@Breaks.duplicate before ⟨_, position, .error fault⟩ first hm rfl)
    | ok cut =>
      rw [written_of_value h hv]
      exact .item rfl hs (@Breaks.duplicate before ⟨_, position, .ok cut.1⟩ first hm rfl)
  | case4 seen text key position afterKey h hl fault hv =>
    rw [written_of_no_value h hv]
    exact .item rfl hs (.value (not_mem_of_lookup (ht ▸ hl)) rfl)
  | case5 seen text key position afterKey h hl raw after hv ih =>
    have hn := not_mem_of_lookup (ht ▸ hl)
    have hr := @readValue_spec before key position raw hn
    rw [written_of_value h hv]
    cases hv : readValue key raw with
    | error defect =>
      rw [hv] at hr
      exact .item rfl hs hr
    | ok value =>
      rw [hv] at hr
      have hb : Sound (before ++ [⟨key, position, .ok raw⟩]) :=
        sound_append_singleton.2 ⟨hs, hn, hr⟩
      have hi := ih hb (by rw [taken_append_singleton, ht])
      rw [List.append_assoc] at hi
      cases ho : readAll size ((key, position) :: seen) after with
      | error defect => rw [ho] at hi; exact hi
      | ok others => rw [ho] at hi; exact hi

end Attribute

namespace Tag

def written (tag : Tag) : List Written × Option AttributeFault :=
  Attribute.written (tag.name.bytes.length + tag.attributeText.length) tag.attributeText

structure Sound (tag : Tag) : Prop where
  attributes : Attribute.Sound tag.written.1
  uncut : tag.written.2 = none

def FirstBreak (tag : Tag) (defect : Defect) : Prop :=
  Attribute.FirstBreak tag.written.1 tag.written.2 defect

theorem FirstBreak.not_sound {tag : Tag} {defect : Defect} (h : tag.FirstBreak defect) :
    ¬ tag.Sound :=
  fun hs => Attribute.FirstBreak.not_sound h ⟨hs.attributes, hs.uncut⟩

/-- Reading a tag accepts it if it is sound, and else tells what is first wrong with it. -/
theorem toElement_spec (tag : Tag) :
    match tag.toElement with
    | .ok _ => tag.Sound
    | .error defect => tag.FirstBreak defect := by
  have h := @Attribute.readAll_spec (tag.name.bytes.length + tag.attributeText.length)
    tag.attributeText [] Attribute.sound_nil
  rw [Attribute.taken_nil] at h
  unfold toElement
  cases hr : Attribute.readAll (tag.name.bytes.length + tag.attributeText.length) []
      tag.attributeText with
  | error defect => rw [hr] at h; exact h
  | ok attributes => rw [hr] at h; exact ⟨h.1, h.2⟩

end Tag

end ToolSwitch.Markup
