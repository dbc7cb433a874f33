import Mathlib.Data.List.Forall2
import ToolSwitch.Proofs.Markup.Rearrangement
import ToolSwitch.Proofs.Markup.Truncation

/-!
A tag with another in its place in a document.  Each piece of markup is cut off the same whatever
stands behind it, so the tokens around the tag stay what they are.
-/

namespace ToolSwitch.Markup

open ToolSwitch.Text

section Construct

variable {construct : Construct}

theorem toToken_ofTag (waiting : List Name) (first last : Nat) (content : Bytes) :
    ((Construct.ofTag content).toToken waiting first last).event = .ok (.ofContent content) := by
  unfold Construct.ofTag Event.ofContent
  split <;> rfl

theorem tag?_of_toToken {waiting : List Name} {first last : Nat} {event : Event} {tag : Tag}
    (he : (construct.toToken waiting first last).event = .ok event) (ht : event.tag? = some tag) :
    construct.tag? = some tag := by
  unfold Construct.toToken at he
  split at he
  · cases he
    exact ht
  · cases he
    exact ht
  · split at he
    · cases he
    · split at he <;> cases he
      cases ht
  all_goals
    cases he
    try cases ht

end Construct

/-- Both are refused, or both are accepted and `r` holds of what they come to. -/
inductive Together {ε α : Type} (r : α → α → Prop) : Except ε α → Except ε α → Prop where
  | error {fault fault' : ε} : Together r (.error fault) (.error fault')
  | ok {item item' : α} : r item item' → Together r (.ok item) (.ok item')

theorem Together.refl {ε α : Type} {r : α → α → Prop} (h : ∀ item, r item item)
    (x : Except ε α) : Together r x x := by
  cases x with
  | error fault => exact .error
  | ok item => exact .ok (h item)

/-- Tokens of the same kind wherever they stand, with the attributes of tags in any order. -/
def Token.Alike (token token' : Token) : Prop :=
  Together Event.Reorders token.event token'.event

theorem Event.Reorders.nest {event event' : Event} (h : event.Reorders event') (path : List Name) :
    event.nest path = event'.nest path := by
  cases h with
  | startTag h => exact congrArg (· :: path) h.name
  | emptyTag h => rfl
  | refl => rfl

section Tokens

variable {size : Nat} {waiting : List Name} {bytes : Bytes}

theorem toToken_ofTag_waiting (waiting : List Name) (first last : Nat) (content : Bytes) :
    ((Construct.ofTag content).toToken waiting first last).waiting =
      (Event.ofContent content).nest waiting := by
  unfold Construct.ofTag Event.ofContent
  split <;> rfl

theorem toToken_ofTag_position (waiting : List Name) (first last : Nat) (content : Bytes) :
    ((Construct.ofTag content).toToken waiting first last).position = last := by
  unfold Construct.ofTag
  split <;> rfl

/-- Offsets tell only in positions. -/
theorem toToken_resize (construct : Construct) (waiting : List Name)
    (first last first' last' : Nat) :
    (construct.toToken waiting first last).Alike (construct.toToken waiting first' last') ∧
      (construct.toToken waiting first last).waiting =
        (construct.toToken waiting first' last').waiting := by
  cases construct with
  | startTag | emptyTag | cdata | comment | instruction => exact ⟨.ok (.refl _), rfl⟩
  | doctype named =>
    cases named with
    | false => exact ⟨.error, rfl⟩
    | true => exact ⟨.ok (.refl _), rfl⟩
  | endTag name =>
    cases waiting with
    | nil => exact ⟨.error, rfl⟩
    | cons innermost outer =>
      rw [Construct.toToken, Construct.toToken]
      by_cases hn : name = innermost
      · rw [if_pos hn, if_pos hn]
        exact ⟨.ok (.refl _), rfl⟩
      · rw [if_neg hn, if_neg hn]
        exact ⟨.error, rfl⟩

theorem tokensFrom_of_fault {text rest : Bytes} {fault : Unfinished}
    (h : cutMarkup text = .error (fault, rest)) :
    (tokensFrom size waiting (0x3C :: text)).list =
      [⟨.error (.unfinished fault), size - (text.length + 1), waiting⟩] := by
  rw [tokensFrom, if_pos rfl]
  split
  · next he =>
    cases h.symm.trans he
    rfl
  · next he => cases h.symm.trans he

theorem tokensFrom_resize (size size' : Nat) (waiting : List Name) (bytes : Bytes) :
    List.Forall₂ Token.Alike (tokensFrom size waiting bytes).list
      (tokensFrom size' waiting bytes).list := by
  fun_induction tokensFrom size waiting bytes with
  | case1 =>
    rw [tokensFrom]
    exact .nil
  | case2 waiting text first fault rest h =>
    rw [tokensFrom_of_fault h]
    exact .cons .error .nil
  | case3 waiting text first construct rest h token ih =>
    obtain ⟨ha, hw⟩ := toToken_resize construct waiting first (size - rest.length)
      (size' - (text.length + 1)) (size' - rest.length)
    rw [tokensFrom_of_cut h]
    exact .cons ha (hw ▸ ih)
  | case4 waiting b text hb rest raw ih =>
    rw [tokensFrom_of_text hb]
    exact .cons (.ok (.refl _)) ih

/-- A text ends in front of the next markup, whatever that is. -/
theorem tokensFrom_text_append {b : UInt8} (hb : b ≠ 0x3C) {text : Bytes}
    (ht : ∀ b ∈ text, (b != 0x3C) = true) {rest : Bytes} (hr : rest.head? = some 0x3C) :
    (tokensFrom size waiting (b :: (text ++ rest))).list =
      ⟨.ok (.text (b :: text)), size - rest.length, waiting⟩ ::
        (tokensFrom size waiting rest).list := by
  obtain ⟨markup, rfl⟩ := List.head?_eq_some_iff.1 hr
  rw [tokensFrom_of_text hb, dropWhile_append_cons ht rfl, takeWhile_append_cons ht rfl]

/-- Wherever there is a tag in a document, another one that holds the same may stand. -/
theorem exists_replace {token : Token} {event : Event} {tag : Tag}
    (hm : token ∈ (tokensFrom size waiting bytes).list) (he : token.event = .ok event)
    (ht : event.tag? = some tag) :
    ∃ front content back, bytes = front ++ 0x3C :: (content ++ 0x3E :: back) ∧
      event = .ofContent content ∧ token.position = size - back.length ∧ IsTag content ∧
      ∀ content' size', IsTag content' → (Event.ofContent content).Reorders (.ofContent content') →
        List.Forall₂ Token.Alike (tokensFrom size waiting bytes).list
          (tokensFrom size' waiting (front ++ 0x3C :: (content' ++ 0x3E :: back))).list := by
  fun_induction tokensFrom size waiting bytes with
  | case1 => cases hm
  | case2 waiting text first fault rest h =>
    cases List.mem_singleton.1 hm
    cases he
  | case3 waiting text first construct rest h first' ih =>
    obtain rfl | hm := List.mem_cons.1 hm
    · obtain ⟨content, rfl, hc, rfl⟩ := isTag_of_cutMarkup h (tag?_of_toToken he ht)
      cases (toToken_ofTag ..).symm.trans he
      refine ⟨[], content, rest, rfl, rfl, toToken_ofTag_position .., hc, ?_⟩
      intro content' size' hc' hr
      rw [List.nil_append, tokensFrom_of_cut (hc'.cutMarkup rest)]
      refine .cons ?_ ?_
      · rw [Token.Alike, toToken_ofTag, toToken_ofTag]
        exact .ok hr
      · rw [toToken_ofTag_waiting, toToken_ofTag_waiting, ← hr.nest]
        exact tokensFrom_resize ..
    · obtain ⟨front, content, back, rfl, hev, hp, hc, hr⟩ := ih hm
      obtain ⟨piece, rfl, hpiece⟩ := cutMarkup_replace h
      refine ⟨0x3C :: (piece ++ front), content, back, by simp, hev, hp, hc, ?_⟩
      intro content' size' hc' ho
      rw [List.cons_append, List.append_assoc, tokensFrom_of_cut (hpiece _)]
      obtain ⟨ha, hw⟩ := toToken_resize construct waiting first
        (size - (front ++ 0x3C :: (content ++ 0x3E :: back)).length) _ _
      exact .cons ha (hw ▸ hr content' size' hc' ho)
  | case4 waiting b text hb rest raw ih =>
    obtain rfl | hm := List.mem_cons.1 hm
    · cases he
      cases ht
    · obtain ⟨front, content, back, hd, hev, hp, hc, hr⟩ := ih hm
      have hs : text.takeWhile (· != 0x3C) ++ rest = text := List.takeWhile_append_dropWhile
      -- what is behind the text begins with the same markup, or with the tag itself
      have hh (content' : Bytes) :
          (front ++ 0x3C :: (content' ++ 0x3E :: back)).head? = some 0x3C := by
        cases front with
        | nil => rfl
        | cons first front => simpa using (of_dropWhile_eq_cons hd).2.2
      refine ⟨raw ++ front, content, back, ?_, hev, hp, hc, fun content' size' hc' ho => ?_⟩
      · rw [List.append_assoc, ← hd, List.cons_append, hs]
      · rw [List.append_assoc, List.cons_append, tokensFrom_text_append hb
          (fun _ => List.mem_takeWhile_imp) (hh content')]
        exact .cons (.ok (.refl _)) (hr content' size' hc' ho)

end Tokens

def Token.tag? (token : Token) : Option Tag :=
  token.event.toOption.bind Event.tag?

/-- Where the token of a tag stands in the bytes of a document. -/
structure Token.Stands (token : Token) (bytes front content back : Bytes) : Prop where
  split : bytes = front ++ 0x3C :: (content ++ 0x3E :: back)
  event : token.event = .ok (.ofContent content)
  position : token.position = bytes.length - back.length

theorem Event.ofContent_injective {content content' : Bytes}
    (h : Event.ofContent content = .ofContent content') : content = content' := by
  have ht {content content' : Bytes} (h : Tag.ofContent content = .ofContent content') :
      content = content' := by
    rw [← Tag.bytes_ofContent content, h, Tag.bytes_ofContent]
  unfold Event.ofContent at h
  split at h
  · next hl =>
    split at h
    · next hl' =>
      have hd := ht (Event.emptyTag.inj h)
      rw [← List.dropLast_append_getLast? _ hl, hd, List.dropLast_append_getLast? _ hl']
    · cases h
  · split at h
    · cases h
    · exact ht (Event.startTag.inj h)

theorem Token.Stands.unique {token : Token} {bytes front content back front' content' back' : Bytes}
    (h : token.Stands bytes front content back) (h' : token.Stands bytes front' content' back') :
    front = front' ∧ content = content' ∧ back = back' := by
  have hc := Event.ofContent_injective (Except.ok.inj (h.event.symm.trans h'.event))
  subst hc
  have hl : back.length = back'.length := by
    have hp := h.position.symm.trans h'.position
    have ht := congrArg List.length h.split
    have ht' := congrArg List.length h'.split
    simp only [List.length_append, List.length_cons] at ht ht'
    omega
  obtain ⟨hf, hr⟩ := List.append_inj' (h.split.symm.trans h'.split) (by simp [hl])
  exact ⟨hf, rfl, by simpa using hr⟩

section Document

variable {bytes : Bytes} {token : Token}

theorem tag?_eq_some {tag : Tag} (h : token.tag? = some tag) :
    ∃ event, token.event = .ok event ∧ event.tag? = some tag := by
  unfold Token.tag? at h
  cases he : token.event with
  | error fault =>
    rw [he] at h
    cases h
  | ok event =>
    rw [he] at h
    exact ⟨event, rfl, h⟩

theorem Token.Stands.tag? {front content back : Bytes} {tag : Tag}
    (hs : token.Stands bytes front content back) (ht : token.tag? = some tag) :
    (Event.ofContent content).tag? = some tag := by
  obtain ⟨event, he, ht⟩ := tag?_eq_some ht
  cases he.symm.trans hs.event
  exact ht

theorem exists_stands {tag : Tag} (hm : token ∈ (tokens bytes).list) (ht : token.tag? = some tag) :
    ∃ front content back, token.Stands (dropMark bytes) front content back := by
  obtain ⟨event, he, ht⟩ := tag?_eq_some ht
  obtain ⟨front, content, back, hb, rfl, hp, -⟩ := exists_replace hm he ht
  exact ⟨front, content, back, hb, he, hp⟩

theorem exists_stands_of_head {bytes front content back : Bytes}
    (hb : bytes = front ++ 0x3C :: (content ++ 0x3E :: back))
    (hh : ((tokens bytes).list.head?.map fun token => (token.event.toOption, token.position)) =
      some (some (.ofContent content), bytes.length - back.length)) :
    ∃ token ∈ (tokens bytes).list, token.Stands bytes front content back := by
  obtain ⟨token, ht, he⟩ := Option.map_eq_some_iff.1 hh
  obtain ⟨he, hp⟩ := Prod.mk.inj he
  refine ⟨token, List.mem_of_mem_head? ht, hb, ?_, hp⟩
  cases hv : token.event with
  | error fault =>
    rw [hv] at he
    cases he
  | ok event =>
    rw [hv] at he
    exact congrArg _ (Option.some.inj he)

theorem Token.Stands.replaceable {front content back : Bytes}
    (hs : token.Stands (dropMark bytes) front content back) (hm : token ∈ (tokens bytes).list) :
    IsTag content ∧ ∀ content' size', IsTag content' →
      (Event.ofContent content).Reorders (.ofContent content') →
        List.Forall₂ Token.Alike (tokens bytes).list
          (tokensFrom size' [] (front ++ 0x3C :: (content' ++ 0x3E :: back))).list := by
  obtain ⟨tag, ht⟩ : ∃ tag, (Event.ofContent content).tag? = some tag := by
    unfold Event.ofContent
    split <;> exact ⟨_, rfl⟩
  obtain ⟨front', other, back', hb, he, hp, hi, hr⟩ := exists_replace hm hs.event ht
  have hs' : token.Stands (dropMark bytes) front' other back' := ⟨hb, he ▸ hs.event, hp⟩
  obtain ⟨rfl, rfl, rfl⟩ := hs.unique hs'
  exact ⟨hi, hr⟩

/-- Where a tag stands, a rearrangement of it may stand as long as it ends at its own `>`: the tokens
of the document stay alike. -/
theorem Token.Stands.rearrange {front content back content' bytes' : Bytes}
    (hs : token.Stands (dropMark bytes) front content back) (hm : token ∈ (tokens bytes).list)
    (hr : Rearranges content content') (hc : Closes content')
    (hb : dropMark bytes' = front ++ 0x3C :: (content' ++ 0x3E :: back)) :
    List.Forall₂ Token.Alike (tokens bytes).list (tokens bytes').list := by
  obtain ⟨hi, ha⟩ := hs.replaceable hm
  have hl := ha content' (dropMark bytes').length (hr.isTag hi hc) hr.reorders
  rwa [← hb] at hl

end Document

end ToolSwitch.Markup
