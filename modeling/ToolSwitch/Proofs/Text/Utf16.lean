import Mathlib.Logic.Function.Basic

/-!
UTF-16: a character as one code unit or two.  A text is told by its units.
-/

namespace ToolSwitch.Text.Utf16

/-- The units of a code point.  One above U+FFFF has two, one from each half of the surrogates. -/
def units (code : Nat) : List Nat :=
  if code < 0x10000 then [code]
  else [0xD800 + (code - 0x10000) / 0x400, 0xDC00 + (code - 0x10000) % 0x400]

def encode (text : List Char) : List Nat :=
  text.flatMap fun c => units c.toNat

theorem encode_cons (c : Char) (rest : List Char) :
    encode (c :: rest) = units c.toNat ++ encode rest :=
  List.flatMap_cons ..

theorem units_ne_nil (code : Nat) : units code ≠ [] := by
  unfold units
  split <;> simp

/-- No surrogate is a character, so the first unit tells how many there are. -/
theorem units_append_inj {c d : Char} {after after' : List Nat}
    (h : units c.toNat ++ after = units d.toNat ++ after') : c = d ∧ after = after' := by
  have hc : c.toNat < 0xD800 ∨ 0xDFFF < c.toNat ∧ c.toNat < 0x110000 := c.valid
  have hd : d.toNat < 0xD800 ∨ 0xDFFF < d.toNat ∧ d.toNat < 0x110000 := d.valid
  rw [← Char.toNat_inj]
  unfold units at h
  split at h <;> split at h <;>
    simp only [List.cons_append, List.nil_append, List.cons.injEq] at h
  · exact h
  · omega
  · omega
  · obtain ⟨hhigh, hlow, hafter⟩ := h
    exact ⟨by omega, hafter⟩

theorem encode_injective : Function.Injective encode := by
  intro text other h
  induction text generalizing other with
  | nil =>
    cases other with
    | nil => rfl
    | cons d others =>
      rw [encode_cons] at h
      exact absurd (List.append_eq_nil_iff.1 h.symm).1 (units_ne_nil _)
  | cons c rest ih =>
    cases other with
    | nil =>
      rw [encode_cons] at h
      exact absurd (List.append_eq_nil_iff.1 h).1 (units_ne_nil _)
    | cons d others =>
      rw [encode_cons, encode_cons] at h
      obtain ⟨rfl, hr⟩ := units_append_inj h
      rw [ih hr]

end ToolSwitch.Text.Utf16
