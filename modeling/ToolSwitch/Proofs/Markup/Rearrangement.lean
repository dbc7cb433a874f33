import ToolSwitch.Proofs.Markup.Cut
import ToolSwitch.Proofs.Markup.Layout
import ToolSwitch.Proofs.Markup.Standing

/-!
A tag whose attributes are put into another order.  It holds the same, and it ends in the same place
unless a quotation mark stands in a name.
-/

namespace ToolSwitch.Markup

open ToolSwitch.Text

/-- The tag that stands between `<` and `>`. -/
def Event.ofContent (content : Bytes) : Event :=
  if content.getLast? = some 0x2F then .emptyTag (.ofContent content.dropLast)
  else .startTag (.ofContent content)

/-- A tag with its attributes in another order, or the very same event. -/
inductive Event.Reorders : Event → Event → Prop where
  | startTag {tag tag' : Tag} : tag.Reorders tag' → Reorders (.startTag tag) (.startTag tag')
  | emptyTag {tag tag' : Tag} : tag.Reorders tag' → Reorders (.emptyTag tag) (.emptyTag tag')
  | refl (event : Event) : Reorders event event

/-- The bytes of a tag that consist of its name and all its attributes, but for white space and the
mark of an empty tag. -/
inductive Tag.LaidOut (tag : Tag) : Bytes → Prop where
  | intro {tail mark : Bytes} {laid : List (Bytes × Spelling)} :
      (∀ b ∈ tag.name.bytes, isSpace b = false) → Attribute.Parted laid →
      laid.map (·.2.content) = tag.contents → (∀ b ∈ tail, isSpace b) →
      (mark = [] ∨ mark = [0x2F]) →
      LaidOut tag (tag.name.bytes ++ (Attribute.lay laid ++ (tail ++ mark)))

/-- What stands in a tag and what may stand in its place: its attributes in another order, parted by
whatever white space. -/
inductive Rearranges : Bytes → Bytes → Prop where
  | intro {name tail : Bytes} {laid laid' : List (Bytes × Spelling)} :
      (∀ b ∈ name, isSpace b = false) → Attribute.Parted laid → Attribute.Parted laid' →
      (laid.map Prod.snd).Perm (laid'.map Prod.snd) →
      Rearranges (name ++ (Attribute.lay laid ++ tail)) (name ++ (Attribute.lay laid' ++ tail))

section

variable {name tail : Bytes} {laid laid' : List (Bytes × Spelling)}

theorem eq_nil_iff_of_perm (h : (laid.map Prod.snd).Perm (laid'.map Prod.snd)) :
    laid = [] ↔ laid' = [] := by
  have hl := h.length_eq
  rw [List.length_map, List.length_map] at hl
  rw [← List.length_eq_zero_iff, hl, List.length_eq_zero_iff]

theorem Tag.ofContent_lay (hn : ∀ b ∈ name, isSpace b = false) (hp : Attribute.Parted laid)
    (hl : laid ≠ []) (tail : Bytes) :
    Tag.ofContent (name ++ (Attribute.lay laid ++ tail)) =
      ⟨⟨name⟩, Attribute.lay laid ++ tail⟩ := by
  obtain ⟨⟨gap, item⟩, laid, rfl⟩ := List.exists_cons_of_ne_nil hl
  obtain ⟨space, spaces, rfl⟩ : ∃ space spaces, gap = space :: spaces :=
    List.exists_cons_of_ne_nil (hp.first _ rfl)
  have hs : (!isSpace space) = false := by
    rw [hp.spaces _ List.mem_cons_self space List.mem_cons_self]
    rfl
  have hn : ∀ b ∈ name, (!isSpace b) = true := fun b hb => by rw [hn b hb]; rfl
  rw [Tag.ofContent, Attribute.lay_cons, List.cons_append, List.cons_append,
    takeWhile_append_cons hn hs, dropWhile_append_cons hn hs]

theorem Tag.reorders_lay (hn : ∀ b ∈ name, isSpace b = false) (hp : Attribute.Parted laid)
    (hp' : Attribute.Parted laid') (h : (laid.map Prod.snd).Perm (laid'.map Prod.snd))
    (tail : Bytes) :
    (Tag.ofContent (name ++ (Attribute.lay laid ++ tail))).Reorders
      (Tag.ofContent (name ++ (Attribute.lay laid' ++ tail))) := by
  by_cases hl : laid = []
  · obtain rfl := (eq_nil_iff_of_perm h).1 hl
    rw [hl]
    exact .refl _
  · have hl' : laid' ≠ [] := mt (eq_nil_iff_of_perm h).2 hl
    rw [Tag.ofContent_lay hn hp hl, Tag.ofContent_lay hn hp' hl']
    let size := name.length + (Attribute.lay laid ++ tail).length
    let size' := name.length + (Attribute.lay laid' ++ tail).length
    have hc := Attribute.contents_lay hp.spaces size tail
    have hc' := Attribute.contents_lay hp'.spaces size' tail
    rw [Attribute.contents_resize size' size tail] at hc'
    obtain ⟨hc, hf⟩ := Prod.mk.inj hc
    obtain ⟨hc', hf'⟩ := Prod.mk.inj hc'
    have hm := h.map Spelling.content
    rw [List.map_map, List.map_map] at hm
    refine ⟨rfl, ?_, hf.trans hf'.symm⟩
    exact (List.Perm.of_eq hc).trans ((hm.append_right _).trans (List.Perm.of_eq hc'.symm))

/-- Laid attributes end with a quotation mark. -/
theorem Attribute.getLast?_append_lay (hl : laid ≠ []) (front : Bytes) :
    (front ++ Attribute.lay laid).getLast? ≠ some 0x2F := by
  obtain ⟨init, item, rfl⟩ := (List.eq_nil_or_concat laid).resolve_left hl
  have ht : Attribute.lay (init.concat item) = Attribute.lay init ++ (item.1 ++
      (item.2.key.bytes ++
        (item.2.before ++ 0x3D :: (item.2.after ++ item.2.quote :: item.2.raw)))) ++
          [item.2.quote] := by
    simp [Attribute.lay, Spelling.text, Spelling.quoted]
  rw [ht, ← List.append_assoc, List.getLast?_concat, ne_eq, Option.some.injEq]
  obtain hq | hq := item.2.quote_mark <;> rw [hq] <;> decide

end

theorem Event.ofContent_append_slash (content : Bytes) :
    Event.ofContent (content ++ [0x2F]) = .emptyTag (.ofContent content) := by
  rw [Event.ofContent, List.getLast?_concat, if_pos rfl, List.dropLast_concat]

theorem Event.ofContent_of_last {content : Bytes} (h : content.getLast? ≠ some 0x2F) :
    Event.ofContent content = .startTag (.ofContent content) :=
  if_neg h

/-- Two attributes that change places. -/
theorem Rearranges.swap {name tail : Bytes} (hn : ∀ b ∈ name, isSpace b = false)
    (first second : Spelling) :
    Rearranges (name ++ (0x20 :: first.text ++ (0x20 :: second.text ++ tail)))
      (name ++ (0x20 :: second.text ++ (0x20 :: first.text ++ tail))) := by
  have hp (first second : Spelling) : Attribute.Parted [([0x20], first), ([0x20], second)] := by
    constructor <;> simp [isSpace]
  have h := @Rearranges.intro name tail _ _ hn (hp first second) (hp second first) (.swap ..)
  simpa [Attribute.lay] using h

theorem Tag.bytes_ofContent (content : Bytes) :
    (Tag.ofContent content).name.bytes ++ (Tag.ofContent content).attributeText = content :=
  List.takeWhile_append_dropWhile

theorem Tag.laidOut_of_toElement {content mark : Bytes} {element : Element}
    (h : (Tag.ofContent content).toElement = .ok element) (hm : mark = [] ∨ mark = [0x2F]) :
    (Tag.ofContent content).LaidOut (content ++ mark) := by
  have hs := Tag.sound_of_toElement h
  have hv : ∀ item ∈ (Tag.ofContent content).written.1, ∃ raw, item.value = .ok raw :=
    fun item hi => by
      obtain ⟨raw, hr, -⟩ := hs.attributes.values item hi
      exact ⟨raw, hr⟩
  obtain ⟨laid, tail, ht, hg, hb, hc⟩ := Attribute.exists_lay hv hs.uncut
  have hp : Attribute.Parted laid := by
    refine ⟨hg, fun item hi he => ?_⟩
    obtain ⟨others, rfl⟩ := List.head?_eq_some_iff.1 hi
    -- the text of the attributes begins with white space, and a key does not
    have hd : content.dropWhile (!isSpace ·) = item.2.first ::
        (item.2.more ++ (item.2.before ++ 0x3D :: item.2.quoted) ++ Attribute.lay others ++
          tail) := by
      refine Eq.trans ht ?_
      rw [Attribute.lay_cons, he]
      simp [Spelling.text, Spelling.key]
    have hf := (of_dropWhile_eq_cons hd).2.2
    rw [item.2.first_ne_space] at hf
    cases hf
  have he : content ++ mark = (Tag.ofContent content).name.bytes ++
      (Attribute.lay laid ++ (tail ++ mark)) := by
    rw [← List.append_assoc (Attribute.lay laid), ← ht, ← List.append_assoc, Tag.bytes_ofContent]
  rw [he]
  exact .intro (fun b hm => by simpa using List.mem_takeWhile_imp hm) hp hc hb hm

/-- A tag that is accepted has all its attributes spelled in it. -/
theorem Event.laidOut_of_toElement {content : Bytes} {tag : Tag} {element : Element}
    (ht : (Event.ofContent content).tag? = some tag) (h : tag.toElement = .ok element) :
    tag.LaidOut content := by
  unfold Event.ofContent at ht
  split at ht
  · next hl =>
    cases ht
    have hm := Tag.laidOut_of_toElement h (.inr rfl)
    rwa [List.dropLast_append_getLast? 0x2F hl] at hm
  · cases ht
    have hm := Tag.laidOut_of_toElement h (.inl rfl)
    rwa [List.append_nil] at hm

/-- Whether a tag is empty is told behind its attributes. -/
theorem Event.ofContent_lay (name tail : Bytes) :
    (∃ front, ∀ laid, Event.ofContent (name ++ (Attribute.lay laid ++ tail)) =
        .emptyTag (.ofContent (name ++ (Attribute.lay laid ++ front)))) ∨
      ∀ laid ≠ [], Event.ofContent (name ++ (Attribute.lay laid ++ tail)) =
        .startTag (.ofContent (name ++ (Attribute.lay laid ++ tail))) := by
  obtain rfl | ⟨front, b, rfl⟩ := List.eq_nil_or_concat tail
  · refine .inr fun laid hl => ?_
    rw [List.append_nil]
    exact ofContent_of_last (Attribute.getLast?_append_lay hl name)
  · have ha (laid : List (Bytes × Spelling)) : name ++ (Attribute.lay laid ++ front.concat b) =
        name ++ (Attribute.lay laid ++ front) ++ [b] := by simp
    by_cases hb : b = 0x2F
    · refine .inl ⟨front, fun laid => ?_⟩
      rw [ha, hb, ofContent_append_slash]
    · refine .inr fun laid _ => ofContent_of_last ?_
      rw [ha, List.getLast?_concat]
      exact fun he => hb (Option.some.inj he)

theorem Rearranges.reorders {content content' : Bytes} (h : Rearranges content content') :
    (Event.ofContent content).Reorders (Event.ofContent content') := by
  obtain @⟨name, tail, laid, laid', hn, hp, hp', h⟩ := h
  have ht := Tag.reorders_lay hn hp hp' h
  by_cases hl : laid = []
  · obtain rfl := (eq_nil_iff_of_perm h).1 hl
    rw [hl]
    exact .refl _
  · have hl' : laid' ≠ [] := mt (eq_nil_iff_of_perm h).2 hl
    obtain ⟨front, he⟩ | he := Event.ofContent_lay name tail
    · rw [he laid, he laid']
      exact .emptyTag (ht front)
    · rw [he laid hl, he laid' hl']
      exact .startTag (ht tail)

/-! Where a tag ends. -/

/-- There is no quotation mark in the name. -/
def Name.Unmarked (name : Name) : Prop :=
  ∀ b ∈ name.bytes, b ≠ 0x22 ∧ b ≠ 0x27

/-- There is no quotation mark in the name of a tag, nor in those of its attributes. -/
structure Tag.Unmarked (tag : Tag) : Prop where
  name : tag.name.Unmarked
  keys : ∀ item ∈ tag.written.1, item.key.Unmarked

section

variable {text rest : Bytes}

theorem closes_append (h : Closes text) : Closes (text ++ rest) ↔ Closes rest := by
  rw [Closes, List.foldlM_append, h]
  rfl

theorem closes_cons_of_plain {b : UInt8} (hb : b ≠ 0x22 ∧ b ≠ 0x27) :
    Closes (b :: rest) ↔ b ≠ 0x3E ∧ Closes rest := by
  rw [Closes, List.foldlM_cons, tagStep, if_neg (not_or.2 hb)]
  by_cases he : b = 0x3E
  · rw [if_pos he]
    refine iff_of_false (fun hn => ?_) fun h => h.1 he
    cases hn
  · rw [if_neg he]
    exact (and_iff_right he).symm

/-- Bytes that are no quotation marks close if the tag does not end among them. -/
theorem closes_append_of_unmarked (h : ∀ b ∈ text, b ≠ 0x22 ∧ b ≠ 0x27) :
    Closes (text ++ rest) ↔ Closes text ∧ Closes rest := by
  induction text with
  | nil => exact (and_iff_right rfl).symm
  | cons b text ih =>
    obtain ⟨hb, ht⟩ := List.forall_mem_cons.1 h
    rw [List.cons_append, closes_cons_of_plain hb, closes_cons_of_plain hb, ih ht, and_assoc]

theorem closes_spaces (h : ∀ b ∈ text, isSpace b) : Closes text := by
  induction text with
  | nil => rfl
  | cons b text ih =>
    obtain ⟨hb, ht⟩ := List.forall_mem_cons.1 h
    have hn : ∀ b, isSpace b → b ≠ 0x22 ∧ b ≠ 0x27 ∧ b ≠ 0x3E := fun b hb => by
      refine ⟨?_, ?_, ?_⟩ <;> rintro rfl <;> cases hb
    obtain ⟨hq, ha, he⟩ := hn b hb
    exact (closes_cons_of_plain ⟨hq, ha⟩).2 ⟨he, ih ht⟩

theorem foldlM_quoted {quote : UInt8} (h : ∀ b ∈ text, (b != quote) = true) :
    text.foldlM tagStep (some quote) = some (some quote) := by
  induction text with
  | nil => rfl
  | cons b text ih =>
    obtain ⟨hb, ht⟩ := List.forall_mem_cons.1 h
    rw [List.foldlM_cons, tagStep, if_neg (by simpa using hb)]
    exact ih ht

/-- A quoted value closes whatever stands in it. -/
theorem Spelling.closes_quoted (item : Spelling) : Closes item.quoted := by
  have ho : item.quote ≠ 0x3E := by
    obtain h | h := item.quote_mark <;> rw [h] <;> decide
  rw [quoted, closes_append (closes_spaces item.after_space), Closes, List.foldlM_cons, tagStep,
    if_neg ho, if_pos item.quote_mark]
  change (item.raw ++ [item.quote]).foldlM tagStep (some item.quote) = some none
  rw [List.foldlM_append, foldlM_quoted item.raw_ne_quote]
  change tagStep (some item.quote) item.quote >>= pure = some none
  rw [tagStep, if_pos rfl]
  rfl

theorem Spelling.closes_text_append {item : Spelling} (h : item.key.Unmarked) :
    Closes (item.text ++ rest) ↔ Closes item.text ∧ Closes rest := by
  have hb : Closes (item.before ++ 0x3D :: item.quoted) := by
    rw [closes_append (closes_spaces item.before_space), closes_cons_of_plain (by decide)]
    exact ⟨by decide, item.closes_quoted⟩
  have ht : Closes item.text ↔ Closes item.key.bytes := by
    rw [text, closes_append_of_unmarked h]
    exact and_iff_left hb
  rw [ht, text, List.append_assoc, closes_append_of_unmarked h, closes_append hb]

theorem Attribute.closes_lay {laid : List (Bytes × Spelling)}
    (hs : ∀ item ∈ laid, ∀ b ∈ item.1, isSpace b) (h : ∀ item ∈ laid, item.2.key.Unmarked) :
    Closes (Attribute.lay laid ++ rest) ↔ (∀ item ∈ laid, Closes item.2.text) ∧ Closes rest := by
  induction laid with
  | nil => exact (and_iff_right nofun).symm
  | cons item laid ih =>
    obtain ⟨hg, hs⟩ := List.forall_mem_cons.1 hs
    obtain ⟨hi, hl⟩ := List.forall_mem_cons.1 h
    rw [lay_cons, List.append_assoc, List.append_assoc, closes_append (closes_spaces hg),
      Spelling.closes_text_append hi, ih hs hl, List.forall_mem_cons, and_assoc]

end

theorem Tag.key_mem_of_lay {name : Bytes} {laid : List (Bytes × Spelling)}
    (hn : ∀ b ∈ name, isSpace b = false) (hp : Attribute.Parted laid) (hl : laid ≠ [])
    (tail : Bytes) {item : Bytes × Spelling} (hi : item ∈ laid) :
    ∃ found ∈ (Tag.ofContent (name ++ (Attribute.lay laid ++ tail))).written.1,
      found.key = item.2.key := by
  rw [Tag.ofContent_lay hn hp hl]
  have hc := (Prod.mk.inj (Attribute.contents_lay hp.spaces
    (name.length + (Attribute.lay laid ++ tail).length) tail)).1
  have hm : item.2.content ∈ laid.map (·.2.content) := List.mem_map_of_mem hi
  have hm := hc ▸ List.mem_append_left _ hm
  obtain ⟨found, hf, he⟩ := List.mem_map.1 hm
  exact ⟨found, hf, congrArg Prod.fst he⟩

/-- Where no name has a quotation mark in it, a tag ends in the same place whatever the order of its
attributes. -/
theorem Rearranges.closes {content content' : Bytes} {tag : Tag} (h : Rearranges content content')
    (ht : (Event.ofContent content).tag? = some tag) (hu : tag.Unmarked) (hc : Closes content) :
    Closes content' := by
  obtain ⟨hm, hk⟩ := hu
  obtain @⟨name, tail, laid, laid', hn, hp, hp', h⟩ := h
  by_cases hl : laid = []
  · obtain rfl := (eq_nil_iff_of_perm h).1 hl
    exact hl ▸ hc
  · obtain ⟨front, rfl⟩ : ∃ front, tag = .ofContent (name ++ (Attribute.lay laid ++ front)) := by
      obtain ⟨front, he⟩ | he := Event.ofContent_lay name tail
      · rw [he laid] at ht
        exact ⟨front, (Option.some.inj ht).symm⟩
      · rw [he laid hl] at ht
        exact ⟨tail, (Option.some.inj ht).symm⟩
    have hu : ∀ item ∈ laid, item.2.key.Unmarked := fun item hi => by
      obtain ⟨found, hf, he⟩ := Tag.key_mem_of_lay hn hp hl front hi
      exact he ▸ hk found hf
    have hu' : ∀ item ∈ laid', item.2.key.Unmarked := fun item hi => by
      obtain ⟨other, ho, he⟩ := List.mem_map.1 (h.mem_iff.2 (List.mem_map_of_mem hi))
      exact he ▸ hu other ho
    rw [Tag.ofContent_lay hn hp hl] at hm
    obtain ⟨hc, ha⟩ := (closes_append_of_unmarked hm).1 hc
    obtain ⟨ha, hr⟩ := (Attribute.closes_lay hp.spaces hu).1 ha
    refine (closes_append_of_unmarked hm).2 ⟨hc, (Attribute.closes_lay hp'.spaces hu').2 ⟨?_, hr⟩⟩
    intro item hi
    obtain ⟨other, ho, he⟩ := List.mem_map.1 (h.mem_iff.2 (List.mem_map_of_mem hi))
    exact he ▸ ha other ho

theorem Rearranges.isTag {content content' : Bytes} (h : Rearranges content content')
    (ht : IsTag content) (hc : Closes content') : IsTag content' := by
  have hh : ∀ b ∈ content'.head?, b ∈ content.head? ∨ isSpace b := fun b hb => by
    obtain @⟨name, tail, laid, laid', hn, hp, hp', h⟩ := h
    cases name with
    | cons first name => exact .inl hb
    | nil =>
      cases laid' with
      | nil =>
        obtain rfl : laid = [] := by simpa using h.eq_nil
        exact .inl hb
      | cons item laid' =>
        obtain ⟨space, spaces, hg⟩ := List.exists_cons_of_ne_nil (hp'.first item rfl)
        rw [List.nil_append, Attribute.lay_cons, hg] at hb
        obtain rfl : space = b := by simpa using hb
        exact .inr (hp'.spaces item List.mem_cons_self space (hg ▸ List.mem_cons_self))
  refine ⟨⟨hc, fun b hb => ?_⟩, fun b hb => ?_⟩
  · obtain hb | hs := hh b hb
    · exact ht.head b hb
    · constructor <;> rintro rfl <;> cases hs
  · obtain hb | hs := hh b hb
    · exact ht.slash b hb
    · rintro rfl
      cases hs

end ToolSwitch.Markup
