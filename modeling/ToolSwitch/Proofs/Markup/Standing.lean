import Mathlib.Data.List.Induction
import ToolSwitch.Markup.Document
import ToolSwitch.Proofs.Markup.Written

/-!
Where the events of the lexer stand in the element tree, and whether they may stand there.  The
place that reading keeps on its way is told by the events behind it.
-/

namespace ToolSwitch.Markup

open ToolSwitch.Text

namespace Event

def tag? : Event → Option Tag
  | .startTag tag | .emptyTag tag => some tag
  | .endTag | .text _ | .cdata | .aside => none

def nest (path : List Name) : Event → List Name
  | .startTag tag => tag.name :: path
  | .endTag => path.tail
  | .emptyTag _ | .text _ | .cdata | .aside => path

/-- The elements that are still open behind events, innermost first. -/
def enclosing (events : List Event) : List Name :=
  events.foldl nest []

def outsideFrom (path : List Name) : List Event → List Event
  | [] => []
  | event :: rest => (if path = [] then [event] else []) ++ outsideFrom (event.nest path) rest

/-- The events that stand where no element is open. -/
def outside (events : List Event) : List Event :=
  outsideFrom [] events

def roots (events : List Event) : List Tag :=
  (outside events).filterMap tag?

variable {before after : List Event} {event : Event}

theorem enclosing_append_singleton (before : List Event) (event : Event) :
    enclosing (before ++ [event]) = event.nest (enclosing before) := by
  simp [enclosing]

theorem outsideFrom_append (path : List Name) (before after : List Event) :
    outsideFrom path (before ++ after) =
      outsideFrom path before ++ outsideFrom (before.foldl nest path) after := by
  induction before generalizing path with
  | nil => rfl
  | cons event rest ih => simp [outsideFrom, ih]

theorem outside_append_singleton (before : List Event) (event : Event) :
    outside (before ++ [event]) =
      outside before ++ if enclosing before = [] then [event] else [] := by
  rw [outside, outsideFrom_append, outsideFrom, outsideFrom, List.append_nil]
  rfl

theorem roots_append_singleton (before : List Event) (event : Event) :
    roots (before ++ [event]) =
      roots before ++ if enclosing before = [] then event.tag?.toList else [] := by
  rw [roots, outside_append_singleton, List.filterMap_append]
  split
  · cases ht : event.tag? <;> simp [roots, ht]
  · simp [roots]

theorem roots_ne_nil {events : List Event} (h : enclosing events ≠ []) : roots events ≠ [] := by
  induction events using List.reverseRecOn with
  | nil => exact absurd rfl h
  | append_singleton before event ih =>
    rw [roots_append_singleton]
    by_cases hb : enclosing before = []
    · rw [enclosing_append_singleton, hb] at h
      cases event <;> simp [nest, tag?, hb] at h ⊢
    · simp [ih hb]

theorem roots_append_ne_nil :
    roots (before ++ [event]) ≠ [] ↔ roots before ≠ [] ∨ event.tag?.isSome := by
  rw [roots_append_singleton]
  by_cases hb : enclosing before = []
  · cases event.tag? <;> simp [hb]
  · simp [hb, roots_ne_nil hb]

/-- Bytes that stand for nothing but white space and marks that are as invisible. -/
def Invisible (raw : Bytes) : Prop :=
  ∃ text, Reference.read raw = .ok text ∧ ∀ c ∈ text, Blank.isWhiteSpace c ∨ c = '\uFEFF'

/-- Events that do not keep a document from being a single element with text inside it. -/
structure Sound (events : List Event) : Prop where
  tags : ∀ event ∈ events, ∀ tag, event.tag? = some tag → tag.Sound
  texts : ∀ raw, .text raw ∈ events → Resolves raw
  root : (roots events).length ≤ 1
  blank : ∀ raw, .text raw ∈ outside events → Invisible raw
  cdata : .cdata ∉ outside events

/-- What keeps one more event behind others that are sound. -/
structure Fits (before : List Event) (event : Event) : Prop where
  tag : ∀ tag, event.tag? = some tag → tag.Sound
  text : ∀ raw, event = .text raw → Resolves raw
  root : ∀ tag, event.tag? = some tag → enclosing before = [] → roots before = []
  blank : ∀ raw, event = .text raw → enclosing before = [] → Invisible raw
  cdata : event = .cdata → enclosing before ≠ []

/-- What is wrong with an event behind others.  That an element or a text stands outside counts
before anything in the tag, and behind anything in the text. -/
inductive Breaks (before : List Event) (event : Event) : Defect → Prop where
  | secondRoot {tag : Tag} : event.tag? = some tag → enclosing before = [] →
      roots before ≠ [] → Breaks before event (.malformed (.secondRoot tag.name.text))
  | tag {tag : Tag} {defect : Defect} : event.tag? = some tag →
      (enclosing before = [] → roots before = []) → tag.FirstBreak defect →
      Breaks before event defect
  | text {raw : Bytes} {fault : Fault} : event = .text raw →
      Reference.read raw = .error fault → Breaks before event (.markup fault)
  | textOutside {raw : Bytes} : event = .text raw → enclosing before = [] → Resolves raw →
      ¬ Invisible raw → Breaks before event (.malformed .textOutsideRoot)
  | cdataOutside : event = .cdata → enclosing before = [] →
      Breaks before event (.malformed .cdataOutsideRoot)

theorem sound_nil : Sound [] := by
  constructor <;> simp [roots, outside, outsideFrom]

theorem roots_length_le_one :
    (roots (before ++ [event])).length ≤ 1 ↔ (roots before).length ≤ 1 ∧
      ∀ tag, event.tag? = some tag → enclosing before = [] → roots before = [] := by
  rw [roots_append_singleton]
  by_cases hb : enclosing before = []
  · cases event.tag? with
    | none => simp [hb]
    | some tag => simp +contextual [hb]
  · simp [hb]

theorem sound_append_singleton :
    Sound (before ++ [event]) ↔ Sound before ∧ Fits before event := by
  constructor
  · rintro ⟨ht, hx, hr, hb, hc⟩
    rw [roots_length_le_one] at hr
    simp only [outside_append_singleton, List.mem_append, List.mem_ite_nil_right,
      List.mem_singleton] at ht hx hb hc
    refine ⟨⟨fun other hm => ht other (.inl hm), fun raw hm => hx raw (.inl hm), hr.1,
      fun raw hm => hb raw (.inl hm), fun hm => hc (.inl hm)⟩, ht event (.inr rfl),
      fun raw he => hx raw (.inr he.symm), hr.2, fun raw he ho => hb raw (.inr ⟨ho, he.symm⟩),
      fun he ho => hc (.inr ⟨ho, he.symm⟩)⟩
  · rintro ⟨⟨ht, hx, hr, hb, hc⟩, ht', hx', hr', hb', hc'⟩
    refine ⟨?_, ?_, roots_length_le_one.2 ⟨hr, hr'⟩, ?_, ?_⟩
    all_goals
      simp only [outside_append_singleton, List.mem_append, List.mem_ite_nil_right,
        List.mem_singleton]
    · rintro other (hm | rfl)
      · exact ht other hm
      · exact ht'
    · rintro raw (hm | he)
      · exact hx raw hm
      · exact hx' raw he.symm
    · rintro raw (hm | ⟨ho, he⟩)
      · exact hb raw hm
      · exact hb' raw he.symm ho
    · rintro (hm | ⟨ho, he⟩)
      · exact hc hm
      · exact hc' he.symm ho

theorem Sound.of_append (h : Sound (before ++ after)) : Sound before := by
  induction after using List.reverseRecOn with
  | nil => rwa [List.append_nil] at h
  | append_singleton after event ih =>
    rw [← List.append_assoc, sound_append_singleton] at h
    exact ih h.1

theorem Breaks.not_fits {defect : Defect} (h : Breaks before event defect) :
    ¬ Fits before event := by
  rintro ⟨ht, hx, hr, hb, hc⟩
  cases h with
  | secondRoot he ho hn => exact hn (hr _ he ho)
  | tag he _ hf => exact hf.not_sound (ht _ he)
  | text he hf =>
    obtain ⟨text, hx⟩ := (resolves_iff _).1 (hx _ he)
    cases hx.symm.trans hf
  | textOutside he ho _ hi => exact hi (hb _ he ho)
  | cdataOutside he ho => exact hc he ho

theorem Breaks.unique {defect other : Defect} (h : Breaks before event defect)
    (h' : Breaks before event other) : defect = other := by
  cases h with
  | secondRoot he ho hr =>
    cases h' with
    | secondRoot he' =>
      cases he.symm.trans he'
      rfl
    | tag _ hr' => exact absurd (hr' ho) hr
    | text he' | textOutside he' | cdataOutside he' =>
      subst he'
      cases he
  | tag he hr hf =>
    cases h' with
    | secondRoot _ ho' hr' => exact absurd (hr ho') hr'
    | tag he' _ hf' =>
      cases he.symm.trans he'
      exact hf.unique hf'
    | text he' | textOutside he' | cdataOutside he' =>
      subst he'
      cases he
  | text he hf =>
    subst he
    cases h' with
    | secondRoot he' | tag he' | cdataOutside he' => cases he'
    | text he' hf' =>
      cases he'
      cases hf.symm.trans hf'
      rfl
    | textOutside he' _ hx =>
      cases he'
      obtain ⟨text, ht⟩ := (resolves_iff _).1 hx
      cases ht.symm.trans hf
  | textOutside he ho hx hi =>
    subst he
    cases h' with
    | secondRoot he' | tag he' | cdataOutside he' => cases he'
    | text he' hf' =>
      cases he'
      obtain ⟨text, ht⟩ := (resolves_iff _).1 hx
      cases ht.symm.trans hf'
    | textOutside => rfl
  | cdataOutside he ho =>
    subst he
    cases h' with
    | secondRoot he' | tag he' | text he' | textOutside he' => cases he'
    | cdataOutside => rfl

theorem invisible_iff {raw : Bytes} {text : List Char} (h : Reference.read raw = .ok text) :
    Invisible raw ↔ isBlank text := by
  simp [Invisible, isBlank, h]

theorem Fits.of_tag {tag : Tag} (h : event.tag? = some tag) (hs : tag.Sound)
    (hr : enclosing before = [] → roots before = []) : Fits before event := by
  refine ⟨fun other ho => ?_, fun raw he => ?_, fun _ _ => hr, fun raw he => ?_, fun he => ?_⟩
  · cases h.symm.trans ho
    exact hs
  all_goals
    subst he
    cases h

theorem Fits.of_text {raw : Bytes} (hx : Resolves raw)
    (hi : enclosing before = [] → Invisible raw) : Fits before (.text raw) := by
  constructor <;> simp_all [tag?]

theorem Fits.of_cdata (h : enclosing before ≠ []) : Fits before .cdata := by
  constructor <;> simp_all [tag?]

theorem Fits.of_other (hx : ∀ raw, event ≠ .text raw) (hc : event ≠ .cdata)
    (ht : event.tag? = none) : Fits before event := by
  constructor <;> simp_all

end Event

structure Place.Behind (place : Place) (before : List Event) : Prop where
  path : place.path = (Event.enclosing before).map Name.text
  seenRoot : place.seenRoot = true ↔ Event.roots before ≠ []
  sound : Event.Sound before

namespace Place

variable {place next : Place} {before : List Event} {event : Event}

theorem behind_start : Place.start.Behind [] :=
  ⟨rfl, by simp [start, Event.roots, Event.outside, Event.outsideFrom], Event.sound_nil⟩

namespace Behind

theorem isEmpty (h : place.Behind before) :
    place.path.isEmpty = true ↔ Event.enclosing before = [] := by
  rw [h.path, List.isEmpty_iff, List.map_eq_nil_iff]

theorem checkRoot (h : place.Behind before) (tag : Tag) :
    place.checkRoot tag = if Event.enclosing before = [] ∧ Event.roots before ≠ [] then
      .error (.malformed (.secondRoot tag.name.text)) else .ok () := by
  simp only [Place.checkRoot, h.isEmpty, h.seenRoot]

theorem append (h : place.Behind before) (hf : Event.Fits before event)
    (hp : next.path = (event.nest (Event.enclosing before)).map Name.text)
    (hn : next.seenRoot = (place.seenRoot || event.tag?.isSome)) :
    next.Behind (before ++ [event]) := by
  refine ⟨?_, ?_, Event.sound_append_singleton.2 ⟨h.sound, hf⟩⟩
  · rw [hp, Event.enclosing_append_singleton]
  · rw [hn, Bool.or_eq_true, h.seenRoot, Event.roots_append_ne_nil]

theorem tag_spec {tag : Tag} (h : place.Behind before) (he : event.tag? = some tag) :
    match (place.checkRoot tag).bind fun _ => tag.toElement with
    | .ok _ => Event.Fits before event
    | .error defect => Event.Breaks before event defect := by
  rw [h.checkRoot]
  by_cases hr : Event.enclosing before = [] ∧ Event.roots before ≠ []
  · rw [if_pos hr]
    exact .secondRoot he hr.1 hr.2
  · rw [if_neg hr]
    rw [not_and, not_not] at hr
    have ht := tag.toElement_spec
    cases hf : tag.toElement with
    | error defect =>
      rw [hf] at ht
      exact .tag he hr ht
    | ok element =>
      rw [hf] at ht
      exact .of_tag he ht hr

theorem read_startTag (h : place.Behind before) (tag : Tag) :
    match (place.read (.startTag tag)).1 with
    | .ok _ => (place.read (.startTag tag)).2.Behind (before ++ [.startTag tag])
    | .error defect => Event.Breaks before (.startTag tag) defect := by
  have ht := h.tag_spec (rfl : Event.tag? (.startTag tag) = some tag)
  rw [Place.read]
  cases hr : place.checkRoot tag with
  | error defect => rw [hr] at ht; exact ht
  | ok _ =>
    cases he : tag.toElement with
    | error defect => rw [hr, he] at ht; exact ht
    | ok element =>
      rw [hr, he] at ht
      exact h.append ht (by rw [enter, h.path]; rfl) (by simp [enter, Event.tag?])

theorem read_emptyTag (h : place.Behind before) (tag : Tag) :
    match (place.read (.emptyTag tag)).1 with
    | .ok _ => (place.read (.emptyTag tag)).2.Behind (before ++ [.emptyTag tag])
    | .error defect => Event.Breaks before (.emptyTag tag) defect := by
  have ht := h.tag_spec (rfl : Event.tag? (.emptyTag tag) = some tag)
  rw [Place.read]
  cases hr : place.checkRoot tag with
  | error defect => rw [hr] at ht; exact ht
  | ok _ =>
    cases he : tag.toElement with
    | error defect => rw [hr, he] at ht; exact ht
    | ok element =>
      rw [hr, he] at ht
      exact h.append ht h.path (by simp [Event.tag?])

theorem checkText_eq {raw : Bytes} {text : List Char} (hr : Reference.read raw = .ok text) :
    place.checkText raw = if place.path.isEmpty ∧ !isBlank text then
      .error (.malformed .textOutsideRoot) else .ok () := by
  rw [Place.checkText, hr]
  rfl

theorem read_text (h : place.Behind before) (raw : Bytes) :
    match (place.read (.text raw)).1 with
    | .ok _ => (place.read (.text raw)).2.Behind (before ++ [.text raw])
    | .error defect => Event.Breaks before (.text raw) defect := by
  rw [Place.read]
  cases hr : Reference.read raw with
  | error fault =>
    rw [checkText, hr]
    exact .text rfl hr
  | ok text =>
    rw [checkText_eq hr]
    have hx : Resolves raw := (resolves_iff raw).2 ⟨text, hr⟩
    by_cases hi : Event.enclosing before = [] ∧ ¬ Event.Invisible raw
    · have hc : place.path.isEmpty ∧ !isBlank text :=
        ⟨h.isEmpty.2 hi.1, by simpa [Event.invisible_iff hr] using hi.2⟩
      rw [if_pos hc]
      exact .textOutside rfl hi.1 hx hi.2
    · have hc : ¬ (place.path.isEmpty ∧ !isBlank text) := by
        rw [h.isEmpty]
        simpa [Event.invisible_iff hr] using hi
      rw [if_neg hc]
      rw [not_and, not_not] at hi
      exact h.append (.of_text hx hi) h.path (by simp [Event.tag?])

theorem read_cdata (h : place.Behind before) :
    match (place.read .cdata).1 with
    | .ok _ => (place.read .cdata).2.Behind (before ++ [.cdata])
    | .error defect => Event.Breaks before .cdata defect := by
  rw [Place.read, checkCdata]
  by_cases ho : Event.enclosing before = []
  · rw [if_pos (h.isEmpty.2 ho)]
    exact .cdataOutside rfl ho
  · rw [if_neg (mt h.isEmpty.1 ho)]
    exact h.append (.of_cdata ho) h.path (by simp [Event.tag?])

/-- Reading one more event lets it through if it is sound where it stands, and else tells what is
wrong with it. -/
theorem read (h : place.Behind before) (event : Event) :
    match (place.read event).1 with
    | .ok _ => (place.read event).2.Behind (before ++ [event])
    | .error defect => Event.Breaks before event defect := by
  cases event with
  | startTag tag => exact h.read_startTag tag
  | emptyTag tag => exact h.read_emptyTag tag
  | text raw => exact h.read_text raw
  | cdata => exact h.read_cdata
  | endTag =>
    refine h.append (.of_other (by simp) (by simp) rfl) ?_ (by simp [Place.read, leave, Event.tag?])
    rw [Place.read, leave, h.path, ← List.map_tail]
    rfl
  | aside =>
    exact h.append (.of_other (by simp) (by simp) rfl) h.path (by simp [Place.read, Event.tag?])

end Behind

end Place

end ToolSwitch.Markup
