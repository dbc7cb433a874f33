import Mathlib.Data.List.TakeWhile
import ToolSwitch.Proofs.Markup.Lookup

/-!
Attributes as they are spelled in a tag.  What the scanner finds in a tag is spelled there, and where
attributes are spelled one behind the other, the scanner finds them and nothing else.
-/

namespace ToolSwitch.Markup

open ToolSwitch.Text

section

variable {α : Type} {p : α → Bool} {front text rest : List α} {a : α}

theorem dropWhile_append_cons (hf : ∀ b ∈ front, p b) (ha : p a = false) (rest : List α) :
    (front ++ a :: rest).dropWhile p = a :: rest := by
  rw [List.dropWhile_append_of_pos hf, List.dropWhile_cons_of_neg (by simp [ha])]

theorem takeWhile_append_cons (hf : ∀ b ∈ front, p b) (ha : p a = false) (rest : List α) :
    (front ++ a :: rest).takeWhile p = front := by
  rw [List.takeWhile_append_of_pos hf, List.takeWhile_cons_of_neg (by simp [ha]), List.append_nil]

theorem of_dropWhile_eq_cons (h : text.dropWhile p = a :: rest) :
    text = text.takeWhile p ++ a :: rest ∧ (∀ b ∈ text.takeWhile p, p b) ∧ p a = false := by
  have hn := List.head?_dropWhile_not p text
  rw [h] at hn
  exact ⟨by rw [← h, List.takeWhile_append_dropWhile], fun _ => List.mem_takeWhile_imp, hn⟩

end

/-- An attribute, with the white space on both sides of its `=`. -/
structure Spelling where
  first : UInt8
  more : Bytes
  before : Bytes
  after : Bytes
  quote : UInt8
  raw : Bytes
  first_ne_space : isSpace first = false
  more_key : ∀ b ∈ more, Attribute.isKeyByte b
  before_space : ∀ b ∈ before, isSpace b
  after_space : ∀ b ∈ after, isSpace b
  quote_mark : quote = 0x22 ∨ quote = 0x27
  raw_ne_quote : ∀ b ∈ raw, (b != quote) = true

namespace Spelling

/-- An attribute between double quotes, with no white space in it. -/
def plain (first : UInt8) (more raw : Bytes) (hf : isSpace first = false)
    (hm : ∀ b ∈ more, Attribute.isKeyByte b) (hr : ∀ b ∈ raw, (b != 0x22) = true) : Spelling :=
  ⟨first, more, [], [], 0x22, raw, hf, hm, nofun, nofun, .inl rfl, hr⟩

def key (item : Spelling) : Name :=
  ⟨item.first :: item.more⟩

/-- The value with its quotes, and the white space in front. -/
def quoted (item : Spelling) : Bytes :=
  item.after ++ item.quote :: (item.raw ++ [item.quote])

def text (item : Spelling) : Bytes :=
  item.key.bytes ++ (item.before ++ 0x3D :: item.quoted)

/-- The attribute apart from how it is spelled. -/
def content (item : Spelling) : Name × Option Bytes :=
  (item.key, some item.raw)

end Spelling

namespace Attribute

section

variable {size position : Nat} {text afterKey raw after : Bytes} {key : Name}

theorem isKeyByte_eq_false {b : UInt8} : isKeyByte b = false ↔ b = 0x3D ∨ isSpace b := by
  simp only [isKeyByte, Bool.and_eq_false_iff, bne_eq_false_iff_eq, Bool.not_eq_eq_eq_not,
    Bool.not_false]

/-- A key ends at the first white space or `=`. -/
theorem span_key (item : Spelling) (rest : Bytes) :
    (item.more ++ (item.before ++ 0x3D :: rest)).takeWhile isKeyByte = item.more ∧
      (item.more ++ (item.before ++ 0x3D :: rest)).dropWhile isKeyByte =
        item.before ++ 0x3D :: rest := by
  cases hb : item.before with
  | nil =>
    have he : isKeyByte 0x3D = false := rfl
    exact ⟨takeWhile_append_cons item.more_key he rest, dropWhile_append_cons item.more_key he rest⟩
  | cons space spaces =>
    have he : isKeyByte space = false :=
      isKeyByte_eq_false.2 (.inr (item.before_space space (hb ▸ List.mem_cons_self)))
    exact ⟨takeWhile_append_cons item.more_key he _, dropWhile_append_cons item.more_key he _⟩

theorem scanKey_spelling {gap : Bytes} (hg : ∀ b ∈ gap, isSpace b) (item : Spelling)
    (rest : Bytes) :
    ∃ position, scanKey size (gap ++ (item.text ++ rest)) =
      .ok (some (item.key, position, item.quoted ++ rest)) := by
  have ht : item.text ++ rest =
      item.first :: (item.more ++ (item.before ++ 0x3D :: (item.quoted ++ rest))) := by
    simp [Spelling.text, Spelling.key]
  obtain ⟨hm, hd⟩ := span_key item (item.quoted ++ rest)
  rw [ht, scanKey, dropWhile_append_cons hg item.first_ne_space]
  dsimp only
  rw [hm, hd, dropWhile_append_cons item.before_space rfl]
  exact ⟨_, rfl⟩

theorem scanValue_spelling (item : Spelling) (rest : Bytes) :
    scanValue size (item.quoted ++ rest) = .ok (item.raw, rest) := by
  have ht : item.quoted ++ rest =
      item.after ++ item.quote :: (item.raw ++ item.quote :: rest) := by
    simp [Spelling.quoted]
  have hs : isSpace item.quote = false := by
    obtain h | h := item.quote_mark <;> rw [h] <;> rfl
  have hq : (item.quote != item.quote) = false := by simp
  rw [ht, scanValue, dropWhile_append_cons item.after_space hs]
  dsimp only
  rw [if_pos item.quote_mark, dropWhile_append_cons item.raw_ne_quote hq,
    takeWhile_append_cons item.raw_ne_quote hq]

theorem of_scanKey (h : scanKey size text = .ok (some (key, position, afterKey))) :
    ∃ gap first more before, text = gap ++ first :: (more ++ (before ++ 0x3D :: afterKey)) ∧
      (∀ b ∈ gap, isSpace b) ∧ isSpace first = false ∧ (∀ b ∈ more, isKeyByte b) ∧
      (∀ b ∈ before, isSpace b) ∧ key = ⟨first :: more⟩ := by
  unfold scanKey at h
  split at h
  · cases h
  · next first rest hs =>
    split at h
    · cases h
    · next b after hd =>
      split at h
      · next he =>
        cases h
        obtain ⟨ht, hg, hf⟩ := of_dropWhile_eq_cons hs
        obtain ⟨hb, hbs, -⟩ := of_dropWhile_eq_cons hd
        refine ⟨_, first, rest.takeWhile isKeyByte, _, ?_, hg, hf,
          fun _ => List.mem_takeWhile_imp, hbs, rfl⟩
        rw [← he, ← hb, List.takeWhile_append_dropWhile, ← ht]
      · cases h

theorem of_scanValue (h : scanValue size text = .ok (raw, after)) :
    ∃ gap quote, text = gap ++ quote :: (raw ++ quote :: after) ∧ (∀ b ∈ gap, isSpace b) ∧
      (quote = 0x22 ∨ quote = 0x27) ∧ ∀ b ∈ raw, (b != quote) = true := by
  unfold scanValue at h
  split at h
  · cases h
  · next quote rest hs =>
    split at h
    · next hq =>
      split at h
      · cases h
      · next b after' hd =>
        cases h
        obtain ⟨ht, hg, -⟩ := of_dropWhile_eq_cons hs
        obtain ⟨hr, hn, hb⟩ := of_dropWhile_eq_cons hd
        obtain rfl : b = quote := by simpa using hb
        refine ⟨_, b, ?_, hg, hq, hn⟩
        rw [← hr, ← ht]
    · cases h

/-- What the scanner finds is spelled in the tag. -/
theorem exists_spelling (hk : scanKey size text = .ok (some (key, position, afterKey)))
    (hv : scanValue size afterKey = .ok (raw, after)) :
    ∃ gap, ∃ item : Spelling, text = gap ++ (item.text ++ after) ∧ (∀ b ∈ gap, isSpace b) ∧
      item.key = key ∧ item.raw = raw := by
  obtain ⟨gap, first, more, before, rfl, hg, hf, hm, hb, rfl⟩ := of_scanKey hk
  obtain ⟨between, quote, rfl, ha, hq, hr⟩ := of_scanValue hv
  refine ⟨gap, ⟨first, more, before, between, quote, raw, hf, hm, hb, ha, hq, hr⟩, ?_, hg, rfl, rfl⟩
  simp [Spelling.text, Spelling.key, Spelling.quoted]

end

/-- Attributes one behind the other, with what stands in front of each. -/
def lay (laid : List (Bytes × Spelling)) : Bytes :=
  laid.flatMap fun item => item.1 ++ item.2.text

/-- Only white space stands in front of attributes, and there is some in front of the first. -/
structure Parted (laid : List (Bytes × Spelling)) : Prop where
  spaces : ∀ item ∈ laid, ∀ b ∈ item.1, isSpace b
  first : ∀ item ∈ laid.head?, item.1 ≠ []

theorem lay_cons (item : Bytes × Spelling) (laid : List (Bytes × Spelling)) :
    lay (item :: laid) = item.1 ++ (item.2.text ++ lay laid) := by
  simp [lay]

/-- What a scan of attributes comes to, apart from where they stand. -/
def contents (found : List Written × Option AttributeFault) : List (Name × Option Bytes) × Bool :=
  (found.1.map fun item => (item.key, item.value.toOption), found.2.isSome)

/-- The size of a tag tells only in positions. -/
theorem scanKey_resize (size size' : Nat) (text : Bytes) :
    match scanKey size text with
    | .error _ => ∃ fault, scanKey size' text = .error fault
    | .ok none => scanKey size' text = .ok none
    | .ok (some (key, _, after)) =>
      ∃ position, scanKey size' text = .ok (some (key, position, after)) := by
  unfold scanKey
  cases text.dropWhile isSpace with
  | nil => rfl
  | cons first rest =>
    dsimp only
    cases (rest.dropWhile isKeyByte).dropWhile isSpace with
    | nil => exact ⟨_, rfl⟩
    | cons b after =>
      dsimp only
      by_cases hb : b = 0x3D
      · rw [if_pos hb, if_pos hb]
        exact ⟨_, rfl⟩
      · rw [if_neg hb, if_neg hb]
        exact ⟨_, rfl⟩

theorem scanValue_resize (size size' : Nat) (text : Bytes) :
    match scanValue size text with
    | .error _ => ∃ fault, scanValue size' text = .error fault
    | .ok found => scanValue size' text = .ok found := by
  unfold scanValue
  cases text.dropWhile isSpace with
  | nil => exact ⟨_, rfl⟩
  | cons quote rest =>
    dsimp only
    by_cases hq : quote = 0x22 ∨ quote = 0x27
    · rw [if_pos hq, if_pos hq]
      cases rest.dropWhile (· != quote) with
      | nil => exact ⟨_, rfl⟩
      | cons b after => rfl
    · rw [if_neg hq, if_neg hq]
      exact ⟨_, rfl⟩

theorem contents_resize (size size' : Nat) (text : Bytes) :
    contents (written size text) = contents (written size' text) := by
  fun_induction written size text with
  | case1 text fault hk =>
    have hs := scanKey_resize size size' text
    rw [hk] at hs
    obtain ⟨fault', hk'⟩ := hs
    rw [written_of_no_key hk']
    rfl
  | case2 text hk =>
    have hs := scanKey_resize size size' text
    rw [hk] at hs
    rw [written_of_end hs]
  | case3 text key position afterKey hk fault hv =>
    have hs := scanKey_resize size size' text
    have hs' := scanValue_resize size size' afterKey
    rw [hk] at hs
    rw [hv] at hs'
    obtain ⟨position', hk'⟩ := hs
    obtain ⟨fault', hv'⟩ := hs'
    rw [written_of_no_value hk' hv']
    rfl
  | case4 text key position afterKey hk value after hv ih =>
    have hs := scanKey_resize size size' text
    have hv' := scanValue_resize size size' afterKey
    rw [hk] at hs
    rw [hv] at hv'
    obtain ⟨position', hk'⟩ := hs
    obtain ⟨hc, hf⟩ := Prod.mk.inj ih
    rw [written_of_value hk' hv']
    exact Prod.ext (congrArg ((key, some value) :: ·) hc) hf

theorem contents_lay {laid : List (Bytes × Spelling)}
    (hs : ∀ item ∈ laid, ∀ b ∈ item.1, isSpace b) (size : Nat) (tail : Bytes) :
    contents (written size (lay laid ++ tail)) =
      (laid.map (·.2.content) ++ (contents (written size tail)).1,
        (contents (written size tail)).2) := by
  induction laid with
  | nil => rfl
  | cons item laid ih =>
    obtain ⟨hi, hl⟩ := List.forall_mem_cons.1 hs
    obtain ⟨position, hk⟩ := @scanKey_spelling size _ hi item.2 (lay laid ++ tail)
    rw [lay_cons, List.append_assoc, List.append_assoc,
      written_of_value hk (scanValue_spelling item.2 _)]
    obtain ⟨hc, hf⟩ := Prod.mk.inj (ih hl)
    exact Prod.ext (congrArg (item.2.content :: ·) hc) hf

/-- What is found in a tag without a fault is laid there, and only white space behind it. -/
theorem exists_lay {size : Nat} {text : Bytes}
    (hv : ∀ item ∈ (written size text).1, ∃ raw, item.value = .ok raw)
    (hc : (written size text).2 = none) :
    ∃ laid tail, text = lay laid ++ tail ∧ (∀ item ∈ laid, ∀ b ∈ item.1, isSpace b) ∧
      (∀ b ∈ tail, isSpace b) ∧
      laid.map (·.2.content) = (contents (written size text)).1 := by
  fun_induction written size text with
  | case1 => cases hc
  | case2 text hk =>
    refine ⟨[], text, rfl, nofun, ?_, rfl⟩
    unfold scanKey at hk
    split at hk
    · next hs => exact List.dropWhile_eq_nil_iff.1 hs
    · split at hk
      · cases hk
      · split at hk <;> cases hk
  | case3 text key position afterKey hk fault he =>
    obtain ⟨raw, hr⟩ := hv _ List.mem_cons_self
    cases hr
  | case4 text key position afterKey hk raw after he ih =>
    obtain ⟨laid, tail, ht, hs, hb, hm⟩ :=
      ih (fun item hi => hv item (List.mem_cons_of_mem _ hi)) hc
    obtain ⟨gap, item, hg, hgap, rfl, rfl⟩ := exists_spelling hk he
    refine ⟨(gap, item) :: laid, tail, ?_, List.forall_mem_cons.2 ⟨hgap, hs⟩, hb, ?_⟩
    · rw [lay_cons, List.append_assoc, List.append_assoc, ← ht, hg]
    · rw [List.map_cons, hm]
      rfl

end Attribute

end ToolSwitch.Markup
