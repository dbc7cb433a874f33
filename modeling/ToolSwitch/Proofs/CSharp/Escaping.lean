import ToolSwitch.Proofs.CSharp.Source

/-!
Escaped text read back.  Whatever stands behind a literal that is written, it is read as one literal
with its own value.
-/

namespace ToolSwitch.CSharp

open ToolSwitch.Text

theorem Literal.isUnprintable_of_isLineEnd {c : Char} (h : isLineEnd c = true) :
    isUnprintable c = true := by
  simp only [isLineEnd, Bool.or_eq_true, decide_eq_true_eq] at h
  obtain (((rfl | rfl) | rfl) | rfl) | rfl := h <;> decide

theorem Literal.toNat_lt_of_isUnprintable {c : Char} (h : isUnprintable c = true) :
    c.toNat < 0x10000 := by
  simp only [isUnprintable, Bool.or_eq_true, Bool.and_eq_true, decide_eq_true_eq] at h
  obtain ((h | h) | rfl) | rfl := h
  · omega
  · omega
  · decide
  · decide

/-- The inside of a literal holds nothing that ends a line or is not seen. -/
theorem Literal.not_isUnprintable_of_mem_escape {value : List Char} {c : Char}
    (h : c ∈ escape value) : isUnprintable c = false := by
  have hx : ∀ n : Fin 16, isUnprintable (hexDigit n) = false := by decide
  have hd : ∀ n, isUnprintable (hexDigit (n % 16)) = false := fun n =>
    hx ⟨n % 16, Nat.mod_lt _ (by decide)⟩
  obtain ⟨d, -, hc⟩ := List.mem_flatMap.1 h
  unfold escapeChar at hc
  repeat' split at hc
  all_goals simp only [hex4, List.mem_cons, List.not_mem_nil, or_false] at hc
  -- the short escapes are of known characters
  any_goals (obtain rfl | rfl := hc <;> rfl)
  · obtain rfl | rfl | rfl | rfl | rfl | rfl := hc
    · rfl
    · rfl
    all_goals exact hd _
  · next hu =>
    subst hc
    exact Bool.not_eq_true _ ▸ hu

namespace Source

theorem hexValue?_hexDigit {n : Nat} (h : n < 16) : hexValue? (Literal.hexDigit n) = some n := by
  have hall : ∀ n : Fin 16, hexValue? (Literal.hexDigit n) = some n.val := by decide
  exact hall ⟨n, h⟩

theorem hexDigits_hex4 (n : Nat) (rest : List Char) :
    hexDigits 4 (Literal.hex4 n ++ rest) = Literal.hex4 n := by
  have hd : ∀ m, (hexValue? (Literal.hexDigit (m % 16))).isSome := fun m => by
    rw [hexValue?_hexDigit (Nat.mod_lt _ (by decide))]
    rfl
  simp only [hexDigits, Literal.hex4, List.cons_append, List.nil_append, List.take_succ_cons,
    List.take_zero, List.takeWhile_cons, hd, List.takeWhile_nil, if_true]

theorem hexNumber_hex4 {n : Nat} (h : n < 0x10000) : hexNumber (Literal.hex4 n) = n := by
  have hd : ∀ m, (hexValue? (Literal.hexDigit (m % 16))).getD 0 = m % 16 := fun m => by
    rw [hexValue?_hexDigit (Nat.mod_lt _ (by decide))]
    rfl
  simp only [hexNumber, Literal.hex4, List.foldl_cons, List.foldl_nil, hd]
  omega

theorem escape?_hex4 {n : Nat} (h : n < 0x10000) (rest : List Char) :
    escape? ('u' :: (Literal.hex4 n ++ rest)) = some ⟨'u' :: Literal.hex4 n, [n]⟩ := by
  rw [escape?, hexDigits_hex4, hexNumber_hex4 h]
  rfl

/-- What is escaped is written as a backslash and a sequence that stands for it, whatever follows. -/
theorem escapeChar_of_needsEscape {c : Char} (h : Literal.needsEscape c = true) :
    ∃ raw, Literal.escapeChar c = '\\' :: raw ∧
      ∀ rest, escape? (raw ++ rest) = some ⟨raw, Utf16.units c.toNat⟩ := by
  unfold Literal.escapeChar
  split
  · next hc =>
    subst hc
    exact ⟨['\\'], rfl, fun _ => rfl⟩
  split
  · next hc =>
    subst hc
    exact ⟨['"'], rfl, fun _ => rfl⟩
  split
  · next hc =>
    subst hc
    exact ⟨['n'], rfl, fun _ => rfl⟩
  split
  · next hc =>
    subst hc
    exact ⟨['r'], rfl, fun _ => rfl⟩
  split
  · next hc =>
    subst hc
    exact ⟨['t'], rfl, fun _ => rfl⟩
  split
  · next hc =>
    subst hc
    exact ⟨['0'], rfl, fun _ => rfl⟩
  split
  · next hu =>
    have hlt := Literal.toNat_lt_of_isUnprintable hu
    rw [Utf16.units, if_pos hlt]
    exact ⟨_, rfl, escape?_hex4 hlt⟩
  · simp_all [Literal.needsEscape]

theorem readLiteral_backslash {raw rest : List Char} {value : List Nat}
    (h : escape? (raw ++ rest) = some ⟨raw, value⟩) :
    readLiteral ('\\' :: (raw ++ rest)) =
      (readLiteral rest).map fun (inside, after) =>
        (.append ⟨'\\' :: raw, value⟩ inside, after) := by
  rw [readLiteral, if_neg (by decide), if_pos rfl, h]
  dsimp only
  rw [List.drop_left]

theorem readLiteral_plain {c : Char} (h : Literal.needsEscape c = false) (rest : List Char) :
    readLiteral (c :: rest) =
      (readLiteral rest).map fun (inside, after) =>
        (.append ⟨[c], Utf16.units c.toNat⟩ inside, after) := by
  simp only [Literal.needsEscape, Bool.or_eq_false_iff, decide_eq_false_iff_not] at h
  obtain ⟨⟨hb, hq⟩, hu⟩ := h
  have hl : ¬ isLineEnd c = true := fun hl => by
    rw [Literal.isUnprintable_of_isLineEnd hl] at hu
    cases hu
  rw [readLiteral, if_neg hq, if_neg hb, if_neg hl]

/-- Each character is read back from the way it is written. -/
theorem readLiteral_escapeChar (c : Char) (rest : List Char) :
    readLiteral (Literal.escapeChar c ++ rest) =
      (readLiteral rest).map fun (inside, after) =>
        (.append ⟨Literal.escapeChar c, Utf16.units c.toNat⟩ inside, after) := by
  cases hn : Literal.needsEscape c with
  | false =>
    rw [Literal.escapeChar_of_not_needsEscape hn]
    exact readLiteral_plain hn rest
  | true =>
    obtain ⟨raw, he, hs⟩ := escapeChar_of_needsEscape hn
    rw [he]
    exact readLiteral_backslash (hs rest)

theorem readLiteral_escape (value rest : List Char) :
    readLiteral (Literal.escape value ++ '"' :: rest) =
      some (⟨Literal.escape value, Utf16.encode value⟩, rest) := by
  induction value with
  | nil =>
    rw [Literal.escape, List.flatMap_nil, List.nil_append, readLiteral, if_pos rfl]
    rfl
  | cons c others ih =>
    rw [Literal.escape, List.flatMap_cons, List.append_assoc, readLiteral_escapeChar,
      ← Literal.escape, ih]
    rfl

end Source

/-- A character that need not be hidden is no control character, and no line ends at it. -/
theorem Literal.isUnprintable_eq_false {c : Char} (h : isUnprintable c = false) :
    (0x20 ≤ c.toNat ∧ c.toNat < 0x7F ∨ 0xA0 ≤ c.toNat) ∧ isLineEnd c = false := by
  have hl : isLineEnd c = false := by
    rw [← Bool.not_eq_true]
    intro hl
    rw [isUnprintable_of_isLineEnd hl] at h
    cases h
  simp only [isUnprintable, Bool.or_eq_false_iff, Bool.and_eq_false_iff,
    decide_eq_false_iff_not] at h
  obtain ⟨⟨⟨hc, hd⟩, -⟩, -⟩ := h
  exact ⟨by omega, hl⟩

/-- Behind a quote, the inside of a literal and the quote that ends it are read as one literal that
stands for the value and for no other, whatever follows.  The inside holds no control character and
nothing that ends a line, and a value that is left as it is would not be changed by escaping. -/
theorem Literal.content_reads (value : String) (rest : List Char) :
    (∃ inside, Source.readLiteral ((content value).toList ++ '"' :: rest) = some (inside, rest) ∧
      inside.raw = (content value).toList ∧
      ∀ other : String, inside.value = Utf16.encode other.toList ↔ other = value) ∧
    (∀ c ∈ (content value).toList,
      (0x20 ≤ c.toNat ∧ c.toNat < 0x7F ∨ 0xA0 ≤ c.toNat) ∧ isLineEnd c = false) ∧
    content value = String.ofList (escape value.toList) := by
  have hc : (content value).toList = escape value.toList := by
    rw [content_eq, String.toList_ofList]
  refine ⟨⟨⟨escape value.toList, Utf16.encode value.toList⟩, ?_, hc.symm, fun other => ?_⟩,
    fun c hm => ?_, content_eq value⟩
  · rw [hc]
    exact Source.readLiteral_escape value.toList rest
  · rw [Utf16.encode_injective.eq_iff, String.toList_inj]
    exact eq_comm
  · rw [hc] at hm
    exact isUnprintable_eq_false (not_isUnprintable_of_mem_escape hm)

end ToolSwitch.CSharp
