import ToolSwitch.Proofs.Accessor.Shape

/-!
What of an accessor can be seen.  Its code and its literals are printable, so what is not can only
stand in the identifier.
-/

namespace ToolSwitch

open ToolSwitch.CSharp ToolSwitch.Schema

namespace CSharp

/-- Whether all characters of a text can be seen. -/
def isPrintable (text : String) : Bool :=
  text.toList.all fun c => !Literal.isUnprintable c

theorem isPrintable_append (front back : String) :
    isPrintable (front ++ back) = (isPrintable front && isPrintable back) := by
  rw [isPrintable, String.toList_append, List.all_append, isPrintable, isPrintable]

theorem isPrintable_ofList {text : List Char}
    (h : text.all (fun c => !Literal.isUnprintable c) = true) :
    isPrintable (String.ofList text) := by
  rw [isPrintable, String.toList_ofList, h]

theorem isPrintable_join (texts : List String) :
    isPrintable (String.join texts) = texts.all isPrintable := by
  rw [isPrintable, String.toList_join, List.all_flatMap]
  rfl

theorem isPrintable_intercalate {separator : String} {texts : List String}
    (hs : isPrintable separator) (ht : texts.all isPrintable) :
    isPrintable (separator.intercalate texts) := by
  induction texts with
  | nil => exact isPrintable_ofList rfl
  | cons text others ih =>
    rw [List.all_cons, Bool.and_eq_true] at ht
    cases others with
    | nil => simpa using ht.1
    | cons next others =>
      rw [String.intercalate_cons_cons, isPrintable_append, isPrintable_append, ht.1, hs]
      exact ih ht.2

theorem Literal.isUnprintable_of_isDigit {c : Char} (h : c.isDigit) : isUnprintable c = false := by
  have hn : 48 ≤ c.toNat ∧ c.toNat ≤ 57 := by
    simpa [Char.isDigit, UInt32.le_iff_toNat_le] using h
  have hc : ∀ d : Char, 57 < d.toNat → c ≠ d := by
    rintro d hd rfl
    omega
  rw [isUnprintable, decide_eq_false (hc '\u2028' (by decide)),
    decide_eq_false (hc '\u2029' (by decide))]
  simp only [Bool.or_false, Bool.or_eq_false_iff, Bool.and_eq_false_iff, decide_eq_false_iff_not]
  omega

theorem isPrintable_toString (n : Nat) : isPrintable (toString n) := by
  rw [isPrintable, List.all_eq_true]
  intro c hc
  have hd : c ∈ Nat.toDigits 10 n := Nat.toList_repr (n := n) ▸ hc
  rw [Literal.isUnprintable_of_isDigit (Nat.isDigit_of_mem_toDigits (by decide) (by decide) hd)]
  rfl

/-- Text between quotes is escaped, so only code can hold what is not seen. -/
theorem Piece.isPrintable_text {piece : Piece} (h : isPrintable piece.blank) :
    isPrintable piece.text := by
  cases piece with
  | code text => exact h
  | literal value =>
    rw [isPrintable, toList_text_literal, List.all_cons, List.all_append, List.all_eq_true.2]
    · rfl
    · intro c hc
      rw [Literal.not_isUnprintable_of_mem_escape hc]
      rfl

theorem Line.isPrintable_text {line : Line} (h : isPrintable line.blank) :
    isPrintable line.text := by
  rw [blank, isPrintable_join, List.all_map] at h
  rw [text, isPrintable_join, List.all_map]
  exact List.all_eq_true.2 fun piece hp => Piece.isPrintable_text (List.all_eq_true.1 h piece hp)

end CSharp

namespace Accessor

theorem setupShape_isPrintable (rows : Nat) (kind : Kind) :
    (setupShape rows kind).all isPrintable := by
  have hr : isPrintable (",".intercalate
      (List.replicate rows "new string[2] \x7b \"\", \"\" \x7d")) := by
    refine isPrintable_intercalate (isPrintable_ofList (by decide)) (List.all_eq_true.2 ?_)
    intro row hm
    rw [List.eq_of_mem_replicate hm]
    exact isPrintable_ofList (by decide)
  cases kind
  all_goals
    simp only [setupShape, List.all_cons, List.all_nil, isPrintable_append, isPrintable_toString,
      hr, Bool.and_eq_true, true_and, and_true]
    and_intros <;> exact isPrintable_ofList (by decide)

theorem words_isPrintable (getters : Getters) (kind : Kind) :
    isPrintable (getterMember getters kind) ∧ isPrintable (getterDefault getters kind) ∧
      isPrintable (switchType kind) ∧ isPrintable (payload kind) := by
  cases getters <;> cases kind <;> and_intros <;> exact isPrintable_ofList (by decide)

theorem shape_isPrintable (getters : Getters) (kind : Kind) (rows : Nat) :
    (shape getters kind rows).all isPrintable := by
  obtain ⟨hm, hd, ht, hp⟩ := words_isPrintable getters kind
  simp only [shape, List.all_append, setupShape_isPrintable, List.all_cons, List.all_nil,
    isPrintable_append, hm, hd, ht, hp, Bool.and_eq_true, and_true]
  and_intros <;> exact isPrintable_ofList (by decide)

variable (getters : Getters) (lead : String) (property : Property)

/-- Behind its first line an accessor holds nothing that is not seen, line breaks apart. -/
theorem body_isPrintable : ∀ line ∈ body getters lead property, isPrintable line.text := by
  intro line hl
  have hs := shape_isPrintable getters property.kind property.switches.choices.length
  rw [← body_blank getters lead, List.all_map] at hs
  exact Line.isPrintable_text (List.all_eq_true.1 hs line hl)

/-- The text behind an identifier is printable but for its line breaks. -/
theorem return_not_mem_body : '\r' ∉ Line.below (body getters lead property) := by
  rw [Line.below, List.mem_flatMap]
  rintro ⟨line, hl, hm⟩
  obtain hm | hm := List.mem_cons.1 hm
  · cases hm
  · cases List.all_eq_true.1 (body_isPrintable getters lead property line hl) '\r' hm

end Accessor

end ToolSwitch
