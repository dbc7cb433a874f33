import ToolSwitch.Markup.Token

/-!
Where a piece of markup ends.  It is cut off by what stands in it alone, so other bytes may stand
behind it.
-/

namespace ToolSwitch.Markup

open ToolSwitch.Text

theorem cutWhere_eq_some_iff {σ : Type} {step : σ → UInt8 → Option σ} {state : σ}
    {seen text before after : Bytes} :
    cutWhere step state seen text = some (before, after) ↔
      ∃ content b last, text = content ++ b :: after ∧ before = seen.reverse ++ content ∧
        content.foldlM step state = some last ∧ step last b = none := by
  induction text generalizing state seen with
  | nil => simp [cutWhere]
  | cons a text ih =>
    rw [cutWhere]
    cases hs : step state a with
    | none =>
      constructor
      · rintro ⟨⟩
        exact ⟨[], a, state, rfl, (List.append_nil _).symm, rfl, hs⟩
      · rintro ⟨_ | ⟨c, content⟩, b, last, ht, rfl, hf, hb⟩
        · cases ht
          rw [List.append_nil]
        · cases ht
          rw [List.foldlM_cons, hs] at hf
          cases hf
    | some next =>
      dsimp only
      rw [ih, List.reverse_cons]
      constructor
      · rintro ⟨content, b, last, rfl, rfl, hf, hb⟩
        refine ⟨a :: content, b, last, rfl, List.append_assoc .., ?_, hb⟩
        rw [List.foldlM_cons, hs]
        exact hf
      · rintro ⟨_ | ⟨c, content⟩, b, last, ht, rfl, hf, hb⟩
        · cases ht
          cases hf
          cases hs.symm.trans hb
        · cases ht
          rw [List.foldlM_cons, hs] at hf
          exact ⟨content, b, last, rfl, by simp, hf, hb⟩

/-- Bytes that neither end a tag nor leave a quotation open in it. -/
def Closes (text : Bytes) : Prop :=
  text.foldlM tagStep none = some none

/-- The bytes of a tag end at the first `>` outside quotation marks. -/
theorem cutWhere_tagStep {text content rest : Bytes} :
    cutWhere tagStep none [] text = some (content, rest) ↔
      text = content ++ 0x3E :: rest ∧ Closes content := by
  have hb {state : Option UInt8} {b : UInt8} :
      tagStep state b = none ↔ state = none ∧ b = 0x3E := by
    cases state with
    | none =>
      rw [tagStep]
      split
      · simp_all
      · split <;> simp_all
    | some quote => simp [tagStep]
  rw [cutWhere_eq_some_iff]
  constructor
  · rintro ⟨_, b, last, rfl, rfl, hf, he⟩
    obtain ⟨rfl, rfl⟩ := hb.1 he
    exact ⟨rfl, hf⟩
  · rintro ⟨rfl, hc⟩
    exact ⟨content, 0x3E, none, rfl, rfl, hc, hb.2 ⟨rfl, rfl⟩⟩

def Construct.tag? : Construct → Option Tag
  | .startTag tag | .emptyTag tag => some tag
  | .endTag _ | .cdata | .comment | .instruction | .doctype _ => none

/-- Markup that is no tag at the head of `front ++ text`, and the same whatever stands behind it. -/
structure CutsOff (cut : Bytes → Cut) (front text rest : Bytes) (construct : Construct) : Prop where
  tag? : construct.tag? = none
  replace : ∃ piece, text = piece ++ rest ∧ ∀ other,
    cut (front ++ (piece ++ other)) = .ok (construct, other)

section Cut

variable {text rest content : Bytes} {construct : Construct} {a b : UInt8}

theorem cutsOff_of_eq {σ : Type} {step : σ → UInt8 → Option σ} {state : σ}
    {good : Bytes → Prop} [DecidablePred good] {make : Bytes → Construct} {fault : Unfinished}
    {cut : Bytes → Cut}
    (hc : ∀ text, cut text = match cutWhere step state [] text with
      | none => .error (fault, [])
      | some (content, rest) =>
        if good content then .ok (make content, rest) else .error (fault, rest))
    (hg : ∀ content, good content → 2 ≤ content.length) (hm : ∀ content, (make content).tag? = none)
    (h : cut (a :: b :: text) = .ok (construct, rest)) :
    CutsOff cut [a, b] text rest construct := by
  rw [hc] at h
  cases hw : cutWhere step state [] (a :: b :: text) with
  | none =>
    rw [hw] at h
    cases h
  | some found =>
    obtain ⟨content, behind⟩ := found
    rw [hw] at h
    dsimp only at h
    split at h
    · next hb =>
      cases h
      obtain ⟨_, c, last, ht, rfl, hf, hl⟩ := cutWhere_eq_some_iff.1 hw
      have hg := hg content hb
      obtain _ | ⟨x, _ | ⟨y, content⟩⟩ := content
      · simp at hg
      · simp at hg
      · cases ht
        refine ⟨hm _, content ++ [c], by simp, fun other => ?_⟩
        have hw : cutWhere step state [] ([a, b] ++ (content ++ [c] ++ other)) =
            some (a :: b :: content, other) :=
          cutWhere_eq_some_iff.2 ⟨a :: b :: content, c, last, by simp, rfl, hf, hl⟩
        rw [hc, hw]
        exact if_pos hb
    · cases h

theorem length_le_of_beginsWith {word : String} (h : beginsWith word content) :
    (Utf8.encode word).length ≤ content.length :=
  (List.isPrefixOf_iff_prefix.1 h).length_le

theorem cutComment_cutsOff : cutComment (a :: b :: text) = .ok (construct, rest) →
    CutsOff cutComment [a, b] text rest construct :=
  cutsOff_of_eq (fun _ => rfl) (fun _ h => Nat.le_trans (by decide) (length_le_of_beginsWith h))
    fun _ => rfl

theorem cutCdata_cutsOff : cutCdata (a :: b :: text) = .ok (construct, rest) →
    CutsOff cutCdata [a, b] text rest construct :=
  cutsOff_of_eq (fun _ => rfl) (fun _ h => Nat.le_trans (by decide) (length_le_of_beginsWith h))
    fun _ => rfl

theorem cutDoctype_cutsOff : cutDoctype (a :: b :: text) = .ok (construct, rest) →
    CutsOff cutDoctype [a, b] text rest construct :=
  cutsOff_of_eq (fun _ => rfl)
    (fun _ h => Nat.le_trans (by decide) (List.length_map upper ▸ length_le_of_beginsWith h))
    fun _ => rfl

theorem cutInstruction_cutsOff : cutInstruction (a :: b :: text) = .ok (construct, rest) →
    CutsOff cutInstruction [a, b] text rest construct :=
  cutsOff_of_eq (fun _ => rfl) (fun _ h => h) fun _ => rfl

theorem cutMarkup_eq_cutTag {b : UInt8} (hx : b ≠ 0x21) (hi : b ≠ 0x3F) (text : Bytes) :
    cutMarkup (b :: text) = cutTag (b :: text) := by
  unfold cutMarkup
  split <;> simp_all

/-- What stands between `<` and `>`. -/
def Construct.within : Bytes → Construct
  | 0x2F :: name => .ofEndTag name
  | content => .ofTag content

theorem cutTag_eq_ok_iff : cutTag text = .ok (construct, rest) ↔
    ∃ content, text = content ++ 0x3E :: rest ∧ Closes content ∧ construct = .within content := by
  have hc : cutTag text = match cutWhere tagStep none [] text with
      | none => .error (.tag, [])
      | some (content, rest) => .ok (.within content, rest) := by
    unfold cutTag Construct.within
    split <;> simp_all
  rw [hc]
  constructor
  · intro h
    split at h
    · cases h
    · next content behind hw =>
      cases h
      obtain ⟨ht, hl⟩ := cutWhere_tagStep.1 hw
      exact ⟨content, ht, hl, rfl⟩
  · rintro ⟨content, ht, hl, rfl⟩
    rw [cutWhere_tagStep.2 ⟨ht, hl⟩]

/-- Bytes that a tag can consist of, an end tag included. -/
structure IsWithin (content : Bytes) : Prop where
  closes : Closes content
  head : ∀ b ∈ content.head?, b ≠ 0x21 ∧ b ≠ 0x3F

theorem IsWithin.cutMarkup (h : IsWithin content) (rest : Bytes) :
    cutMarkup (content ++ 0x3E :: rest) = .ok (.within content, rest) := by
  have hc : cutTag (content ++ 0x3E :: rest) = .ok (.within content, rest) :=
    cutTag_eq_ok_iff.2 ⟨content, rfl, h.closes, rfl⟩
  cases content with
  | nil => exact (cutMarkup_eq_cutTag (by decide) (by decide) rest).trans hc
  | cons b content =>
    obtain ⟨hx, hi⟩ := h.head b rfl
    exact (cutMarkup_eq_cutTag hx hi _).trans hc

theorem cutMarkup_cases (h : cutMarkup text = .ok (construct, rest)) :
    CutsOff cutMarkup [] text rest construct ∨
      ∃ content, text = content ++ 0x3E :: rest ∧ IsWithin content ∧
        construct = .within content := by
  unfold cutMarkup at h
  split at h
  · obtain ⟨ht, piece, rfl, hp⟩ := cutCdata_cutsOff h
    exact .inl ⟨ht, 0x21 :: 0x5B :: piece, rfl, hp⟩
  · obtain ⟨ht, piece, rfl, hp⟩ := cutComment_cutsOff h
    exact .inl ⟨ht, 0x21 :: 0x2D :: piece, rfl, hp⟩
  · obtain ⟨ht, piece, rfl, hp⟩ := cutDoctype_cutsOff h
    exact .inl ⟨ht, 0x21 :: 0x44 :: piece, rfl, hp⟩
  · obtain ⟨ht, piece, rfl, hp⟩ := cutDoctype_cutsOff h
    exact .inl ⟨ht, 0x21 :: 0x64 :: piece, rfl, hp⟩
  · cases h
  · next text =>
    cases text with
    | nil => cases h
    | cons b text =>
      obtain ⟨ht, piece, rfl, hp⟩ := cutInstruction_cutsOff h
      exact .inl ⟨ht, 0x3F :: b :: piece, rfl, hp⟩
  · next hc hm hd hd' hx hi =>
    obtain ⟨content, rfl, hl, rfl⟩ := cutTag_eq_ok_iff.1 h
    refine .inr ⟨content, rfl, ⟨hl, fun b hb => ?_⟩, rfl⟩
    obtain ⟨more, rfl⟩ := List.head?_eq_some_iff.1 hb
    exact ⟨fun he => hx _ (by rw [he]; rfl), fun he => hi _ (by rw [he]; rfl)⟩

/-- Markup that is complete is read the same if other bytes stand behind it. -/
theorem cutMarkup_replace (h : cutMarkup text = .ok (construct, rest)) :
    ∃ piece, text = piece ++ rest ∧ ∀ other, cutMarkup (piece ++ other) =
      .ok (construct, other) := by
  obtain hc | ⟨content, rfl, hw, rfl⟩ := cutMarkup_cases h
  · exact hc.replace
  · refine ⟨content ++ [0x3E], by simp, fun other => ?_⟩
    rw [List.append_assoc, List.singleton_append, hw.cutMarkup]

/-- Bytes that are a start tag or an empty one if they stand between `<` and `>`. -/
structure IsTag (content : Bytes) : Prop extends IsWithin content where
  slash : ∀ b ∈ content.head?, b ≠ 0x2F

theorem IsTag.cutMarkup (h : IsTag content) (rest : Bytes) :
    cutMarkup (content ++ 0x3E :: rest) = .ok (.ofTag content, rest) := by
  have hw : Construct.within content = .ofTag content := by
    unfold Construct.within
    split
    · exact absurd rfl (h.slash _ rfl)
    · rfl
  rw [h.toIsWithin.cutMarkup, hw]

theorem isTag_of_cutMarkup {tag : Tag} (h : cutMarkup text = .ok (construct, rest))
    (ht : construct.tag? = some tag) :
    ∃ content, text = content ++ 0x3E :: rest ∧ IsTag content ∧ construct = .ofTag content := by
  obtain hc | ⟨content, rfl, hw, rfl⟩ := cutMarkup_cases h
  · cases hc.tag?.symm.trans ht
  · unfold Construct.within at ht ⊢
    split at ht
    · cases ht
    · next hn =>
      refine ⟨content, rfl, ⟨hw, fun b hb => ?_⟩, rfl⟩
      obtain ⟨more, rfl⟩ := List.head?_eq_some_iff.1 hb
      exact fun he => hn more (by rw [he])

end Cut

end ToolSwitch.Markup
