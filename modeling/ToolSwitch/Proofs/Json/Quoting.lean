import ToolSwitch.Json.Text

/-!
Strings in quotes are read back as they were, whatever follows the closing quote.
-/

namespace ToolSwitch.Json.Text

open ToolSwitch.Json.Value

theorem hexValue?_hexDigit : ∀ n < 16, hexValue? (hexDigit n) = some n := by
  decide

/-- The escape of a control character without a letter of its own. -/
theorem hex4_of_lt {n : Nat} (h : n < 0x20) (rest : List Char) :
    hex4 ('0' :: '0' :: hexDigit (n / 16) :: hexDigit (n % 16) :: rest) = some (n, rest) := by
  have h0 : hexValue? '0' = some 0 := rfl
  have hhigh := hexValue?_hexDigit (n / 16) (by omega)
  have hlow := hexValue?_hexDigit (n % 16) (Nat.mod_lt _ (by decide))
  have hn : ((0 * 16 + 0) * 16 + n / 16) * 16 + n % 16 = n := by omega
  rw [hex4, h0, hhigh, hlow]
  exact congrArg (fun m => some (m, rest)) hn

theorem ofCode_toNat {c : Char} (h : c.toNat < 0x20) : Unit16.ofCode c.toNat = .char c := by
  rw [Unit16.ofCode, if_neg (by omega), if_neg (by omega), Char.ofNat_toNat]

theorem units_simple {e c : Char} (h : simpleEscape? e = some c) (hu : e ≠ 'u')
    (rest : List Char) :
    units ('\\' :: e :: rest) = (units rest).map fun (read, rest) => (.char c :: read, rest) := by
  rw [units.eq_4 _ _ fun _ _ _ _ _ he => absurd he hu, h]
  cases units rest <;> rfl

theorem units_plain {c : Char} (hq : c ≠ '"') (hb : c ≠ '\\') (hc : ¬ c.toNat < 0x20)
    (rest : List Char) :
    units (c :: rest) = (units rest).map fun (read, rest) => (.char c :: read, rest) := by
  rw [units.eq_5 _ _ (by simpa using hq) (by simp [hb]) (by simp [hb]),
    if_neg (by simp [hc, hb])]
  cases units rest <;> rfl

theorem units_escapeChar (c : Char) (rest : List Char) :
    units (escapeChar c ++ rest) =
      (units rest).map fun (read, rest) => (.char c :: read, rest) := by
  unfold escapeChar
  -- the characters with a letter of their own
  iterate 7
    split
    · next h =>
      subst h
      exact units_simple rfl (by decide) rest
  split
  · next h =>
    simp only [List.cons_append, List.nil_append]
    rw [units, hex4_of_lt h]
    simp only [Option.bind_eq_bind, Option.bind_some, ofCode_toNat h]
    cases units rest <;> rfl
  · next hq hb _ _ _ _ _ hc => exact units_plain hq hb hc rest

theorem units_escaped (text rest : List Char) :
    units (text.flatMap escapeChar ++ '"' :: rest) = some (text.map .char, rest) := by
  induction text with
  | nil => rfl
  | cons c text ih =>
    rw [List.flatMap_cons, List.append_assoc, units_escapeChar, ih]
    rfl

theorem spell?_map_char (text : List Char) : spell? (text.map .char) = some text := by
  induction text with
  | nil => rfl
  | cons c text ih =>
    rw [List.map_cons, spell?, ih]
    rfl

theorem string_escaped (text : String) (rest : List Char) :
    string (text.toList.flatMap escapeChar ++ '"' :: rest) = some (some text, rest) := by
  have hs : String.ofList <$> spell? (text.toList.map .char) = some text := by
    rw [spell?_map_char]
    simp
  rw [string, units_escaped]
  exact congrArg (fun read => some (read, rest)) hs

theorem toList_quote (text : String) :
    (quote text).toList = '"' :: (text.toList.flatMap escapeChar ++ ['"']) := by
  simp [quote]

end ToolSwitch.Json.Text
