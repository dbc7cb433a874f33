import Mathlib.Data.List.DropRight
import ToolSwitch.Proofs.Json.Quoting

/-!
The text of a value is read back as the value.  Values with numbers are left out: what is a number
to a reader depends on what follows it.
-/

namespace ToolSwitch.Json

namespace Value

mutual

/-- Whether a value is made of words alone, without numbers and with all its strings text. -/
def isWords : Value → Bool
  | null | bool _ | string _ => true
  | number _ | broken => false
  | array items => isWordsItems items
  | object fields => isWordsFields fields

def isWordsItems : List Value → Bool
  | [] => true
  | item :: items => isWords item && isWordsItems items

def isWordsFields : List (String × Value) → Bool
  | [] => true
  | (_, value) :: fields => isWords value && isWordsFields fields

end

theorem isWordsItems_eq_all (items : List Value) : isWordsItems items = items.all isWords := by
  induction items with
  | nil => rw [isWordsItems, List.all_nil]
  | cons item items ih => rw [isWordsItems, List.all_cons, ih]

theorem isWordsFields_eq_all (fields : List (String × Value)) :
    isWordsFields fields = fields.all (·.2.isWords) := by
  induction fields with
  | nil => rw [isWordsFields, List.all_nil]
  | cons field fields ih => rw [isWordsFields, List.all_cons, ih]

mutual

theorem isPlain_of_isWords : ∀ value : Value, value.isWords = true → value.isPlain = true
  | null, _ | bool _, _ | string _, _ => rfl
  | number _, h | broken, h => by simp [isWords] at h
  | array items, h => isPlainItems_of_isWords items h
  | object fields, h => isPlainFields_of_isWords fields h

theorem isPlainItems_of_isWords :
    ∀ items : List Value, isWordsItems items = true → isPlainItems items = true
  | [], _ => rfl
  | item :: items, h => by
    rw [isWordsItems, Bool.and_eq_true] at h
    rw [isPlainItems, isPlain_of_isWords item h.1, isPlainItems_of_isWords items h.2, Bool.and_self]

theorem isPlainFields_of_isWords :
    ∀ fields : List (String × Value), isWordsFields fields = true → isPlainFields fields = true
  | [], _ => rfl
  | (_, value) :: fields, h => by
    rw [isWordsFields, Bool.and_eq_true] at h
    rw [isPlainFields, isPlain_of_isWords value h.1, isPlainFields_of_isWords fields h.2,
      Bool.and_self]

end

end Value

namespace Text

open ToolSwitch.Json.Value

theorem skipBlank_newline (level : Nat) (rest : List Char) :
    skipBlank ((newline level).toList ++ rest) = skipBlank rest := by
  refine List.dropWhile_append_of_pos fun c hc => ?_
  simp only [newline, String.toList_append, String.toList_ofList, List.mem_append,
    List.mem_replicate] at hc
  obtain hc | ⟨-, rfl⟩ := hc
  · obtain rfl : c = '\n' := by simpa using hc
    rfl
  · rfl

theorem skipBlank_blank (rest : List Char) : skipBlank (' ' :: rest) = skipBlank rest := rfl

theorem skipBlank_skipBlank (text : List Char) : skipBlank (skipBlank text) = skipBlank text :=
  List.dropWhile_idempotent isBlank text

/-- White space in front of a value makes no difference. -/
theorem value_congr {text other : List Char} (h : skipBlank text = skipBlank other) (fuel : Nat) :
    value fuel text = value fuel other := by
  cases fuel with
  | zero => rfl
  | succ fuel => rw [value, value, h]

theorem items_congr {text other : List Char} (h : skipBlank text = skipBlank other) (fuel : Nat) :
    items fuel text = items fuel other := by
  cases fuel with
  | zero => rfl
  | succ fuel => rw [items, items, value_congr h]

theorem fields_congr {text other : List Char} (h : skipBlank text = skipBlank other) (fuel : Nat) :
    fields fuel text = fields fuel other := by
  cases fuel with
  | zero => rfl
  | succ fuel => rw [fields, fields, h]

theorem toList_array (level : Nat) (item : Value) (others : List Value) :
    ((Value.array (item :: others)).pretty level).toList =
      '[' :: ((newline (level + 1)).toList ++ ((item.pretty (level + 1)).toList ++
        ((prettyItems (level + 1) others).toList ++ ((newline level).toList ++ [']'])))) := by
  simp [pretty]

theorem toList_object (level : Nat) (key : String) (item : Value)
    (others : List (String × Value)) :
    ((Value.object ((key, item) :: others)).pretty level).toList =
      '\x7b' :: ((newline (level + 1)).toList ++ ((quote key).toList ++ (':' :: ' ' ::
        ((item.pretty (level + 1)).toList ++ ((prettyFields (level + 1) others).toList ++
          ((newline level).toList ++ ['\x7d'])))))) := by
  simp [pretty]

theorem toList_prettyItems (level : Nat) (item : Value) (others : List Value) :
    (prettyItems level (item :: others)).toList =
      ',' :: ((newline level).toList ++ ((item.pretty level).toList ++
        (prettyItems level others).toList)) := by
  simp [prettyItems]

theorem toList_prettyFields (level : Nat) (key : String) (item : Value)
    (others : List (String × Value)) :
    (prettyFields level ((key, item) :: others)).toList =
      ',' :: ((newline level).toList ++ ((quote key).toList ++ (':' :: ' ' ::
        ((item.pretty level).toList ++ (prettyFields level others).toList)))) := by
  simp [prettyFields]

/-- A value's text begins at once, and with nothing that would close a list. -/
theorem toList_pretty {value : Value} (h : value.isWords = true) (level : Nat) :
    ∃ c tail, (value.pretty level).toList = c :: tail ∧ isBlank c = false ∧ c ≠ ']' := by
  cases value with
  | null => exact ⟨'n', "ull".toList, by simp [pretty], rfl, by decide⟩
  | bool b =>
    cases b with
    | true => exact ⟨'t', "rue".toList, by simp [pretty], rfl, by decide⟩
    | false => exact ⟨'f', "alse".toList, by simp [pretty], rfl, by decide⟩
  | number text => simp [isWords] at h
  | string text => exact ⟨'"', _, by rw [pretty, toList_quote], rfl, by decide⟩
  | broken => simp [isWords] at h
  | array items =>
    cases items with
    | nil => exact ⟨'[', [']'], by simp [pretty], rfl, by decide⟩
    | cons item others => exact ⟨'[', _, toList_array level item others, rfl, by decide⟩
  | object fields =>
    cases fields with
    | nil => exact ⟨'\x7b', ['\x7d'], by simp [pretty], rfl, by decide⟩
    | cons field others =>
      exact ⟨'\x7b', _, toList_object level field.1 field.2 others, rfl, by decide⟩

/-! With so much fuel, what is written is read back. -/

def ReadsValues (fuel : Nat) : Prop :=
  ∀ (v : Value) (level : Nat) (rest : List Char), v.isWords = true →
    (v.pretty level).toList.length ≤ fuel →
    value fuel ((v.pretty level).toList ++ rest) = some (v, rest)

def ReadsItems (fuel : Nat) : Prop :=
  ∀ (item : Value) (others : List Value) (level outer : Nat) (rest : List Char),
    isWordsItems (item :: others) = true →
    (item.pretty level).toList.length + (prettyItems level others).toList.length < fuel →
    items fuel ((item.pretty level).toList ++ ((prettyItems level others).toList ++
      ((newline outer).toList ++ ']' :: rest))) = some (item :: others, rest)

def ReadsFields (fuel : Nat) : Prop :=
  ∀ (key : String) (item : Value) (others : List (String × Value)) (level outer : Nat)
    (rest : List Char),
    isWordsFields ((key, item) :: others) = true →
    (quote key).toList.length + (item.pretty level).toList.length +
      (prettyFields level others).toList.length < fuel →
    fields fuel ((quote key).toList ++ (':' :: ' ' :: ((item.pretty level).toList ++
      ((prettyFields level others).toList ++ ((newline outer).toList ++ '\x7d' :: rest))))) =
        some (some ((key, item) :: others), rest)

theorem skipBlank_of_not_blank {c : Char} (h : isBlank c = false) (rest : List Char) :
    skipBlank (c :: rest) = c :: rest :=
  List.dropWhile_cons_of_neg (by simp [h])

theorem skipBlank_pretty {v : Value} (h : v.isWords = true) (level : Nat) (rest : List Char) :
    skipBlank ((v.pretty level).toList ++ rest) = (v.pretty level).toList ++ rest := by
  obtain ⟨c, tail, hc, hb, -⟩ := toList_pretty h level
  rw [hc, List.cons_append, skipBlank_of_not_blank hb]

theorem value_quote (fuel : Nat) (text : String) (rest : List Char) :
    value (fuel + 1) ((quote text).toList ++ rest) = some (.string text, rest) := by
  rw [toList_quote, List.cons_append, List.append_assoc, List.singleton_append]
  simp only [value, skipBlank_of_not_blank (c := '"') rfl, string_escaped, Option.bind_eq_bind,
    Option.bind_some, Option.pure_def, Option.map_some, Option.getD_some]

theorem value_bracket {fuel : Nat} {text tail : List Char} {c : Char}
    (h : skipBlank text = c :: tail) (hc : c ≠ ']') :
    value (fuel + 1) ('[' :: text) =
      (items fuel text).map fun (items, rest) => (.array items, rest) := by
  simp only [value, skipBlank_of_not_blank (c := '[') rfl]
  split
  · next he => exact absurd (List.cons.inj (h.symm.trans he)).1 hc
  · rw [items_congr (skipBlank_skipBlank text)]
    cases items fuel text <;> rfl

theorem value_brace {fuel : Nat} {text tail : List Char} {c : Char}
    (h : skipBlank text = c :: tail) (hc : c ≠ '\x7d') :
    value (fuel + 1) ('\x7b' :: text) =
      (fields fuel text).map fun (fields, rest) =>
        ((fields.map Value.object).getD .broken, rest) := by
  simp only [value, skipBlank_of_not_blank (c := '\x7b') rfl]
  split
  · next he => exact absurd (List.cons.inj (h.symm.trans he)).1 hc
  · rw [fields_congr (skipBlank_skipBlank text)]
    cases fields fuel text <;> rfl

theorem items_last {fuel : Nat} {text rest after : List Char} {item : Value}
    (hv : value fuel text = some (item, rest)) (hr : skipBlank rest = ']' :: after) :
    items (fuel + 1) text = some ([item], after) := by
  simp only [items, hv, hr, Option.bind_eq_bind, Option.bind_some, Option.pure_def]

theorem items_more {fuel : Nat} {text rest after : List Char} {item : Value}
    (hv : value fuel text = some (item, rest)) (hr : skipBlank rest = ',' :: after) :
    items (fuel + 1) text =
      (items fuel after).map fun (more, rest) => (item :: more, rest) := by
  simp only [items, hv, hr, Option.bind_eq_bind, Option.bind_some, Option.pure_def]
  cases items fuel after <;> rfl

theorem fields_last {fuel : Nat} {text rest after : List Char} {key : String} {item : Value}
    (hv : value fuel text = some (item, rest)) (hr : skipBlank rest = '\x7d' :: after) :
    fields (fuel + 1) ((quote key).toList ++ ':' :: text) = some (some [(key, item)], after) := by
  rw [toList_quote, List.cons_append, List.append_assoc, List.singleton_append]
  simp only [fields, skipBlank_of_not_blank (c := '"') rfl,
    skipBlank_of_not_blank (c := ':') rfl, string_escaped, hv, hr, Option.bind_eq_bind,
    Option.bind_some, Option.pure_def, Option.map_some]

theorem fields_more {fuel : Nat} {text rest after : List Char} {key : String} {item : Value}
    (hv : value fuel text = some (item, rest)) (hr : skipBlank rest = ',' :: after) :
    fields (fuel + 1) ((quote key).toList ++ ':' :: text) =
      (fields fuel after).map fun (more, rest) => (more.map ((key, item) :: ·), rest) := by
  rw [toList_quote, List.cons_append, List.append_assoc, List.singleton_append]
  simp only [fields, skipBlank_of_not_blank (c := '"') rfl,
    skipBlank_of_not_blank (c := ':') rfl, string_escaped, hv, hr, Option.bind_eq_bind,
    Option.bind_some, Option.pure_def, Option.map_some]
  cases fields fuel after <;> rfl

theorem readsValues_succ {fuel : Nat} (hi : ReadsItems fuel) (hf : ReadsFields fuel) :
    ReadsValues (fuel + 1) := by
  intro v level rest hw hl
  cases v with
  | null => simp [pretty, value, skipBlank, isBlank, literal, ← String.length_toList]
  | bool b =>
    cases b <;> simp [pretty, value, skipBlank, isBlank, literal, ← String.length_toList]
  | number text => simp [isWords] at hw
  | string text => exact value_quote fuel text rest
  | broken => simp [isWords] at hw
  | array items =>
    cases items with
    | nil => simp [pretty, value, skipBlank, isBlank]
    | cons item others =>
      rw [toList_array] at hl ⊢
      have hr := hi item others (level + 1) level rest hw (by simp at hl; omega)
      have hw' : item.isWords = true := (Bool.and_eq_true_iff.1 hw).1
      obtain ⟨c, tail, hp, hb, hc⟩ := toList_pretty hw' (level + 1)
      have hs : ∀ after, skipBlank ((newline (level + 1)).toList ++
          ((item.pretty (level + 1)).toList ++ after)) = c :: (tail ++ after) := fun after => by
        rw [skipBlank_newline, skipBlank_pretty hw', hp, List.cons_append]
      simp only [List.cons_append, List.append_assoc, List.nil_append]
      rw [value_bracket (hs _) hc, items_congr (skipBlank_newline _ _), hr]
      rfl
  | object fields =>
    cases fields with
    | nil => simp [pretty, value, skipBlank, isBlank]
    | cons field others =>
      obtain ⟨key, item⟩ := field
      rw [toList_object] at hl ⊢
      have hr := hf key item others (level + 1) level rest hw (by simp at hl; omega)
      have hs : ∀ after, skipBlank ((newline (level + 1)).toList ++
          ((quote key).toList ++ after)) =
            '"' :: (key.toList.flatMap escapeChar ++ ['"'] ++ after) := fun after => by
        rw [skipBlank_newline, toList_quote, List.cons_append, skipBlank_of_not_blank rfl]
      simp only [List.cons_append, List.append_assoc, List.nil_append]
      rw [value_brace (hs _) (by decide), fields_congr (skipBlank_newline _ _), hr]
      rfl

theorem readsItems_succ {fuel : Nat} (hv : ReadsValues fuel) (hi : ReadsItems fuel) :
    ReadsItems (fuel + 1) := by
  intro item others level outer rest hw hl
  obtain ⟨hitem, hothers⟩ := Bool.and_eq_true_iff.1 hw
  have hr := fun after => hv item level after hitem (by omega)
  cases others with
  | nil =>
    refine items_last (hr _) ?_
    rw [prettyItems, String.toList_empty, List.nil_append, skipBlank_newline]
    rfl
  | cons next others =>
    rw [toList_prettyItems] at hl ⊢
    have hn := hi next others level outer rest hothers (by simp at hl; omega)
    simp only [List.cons_append, List.append_assoc]
    rw [items_more (hr _) (skipBlank_of_not_blank rfl _), items_congr (skipBlank_newline _ _), hn]
    rfl

theorem readsFields_succ {fuel : Nat} (hv : ReadsValues fuel) (hf : ReadsFields fuel) :
    ReadsFields (fuel + 1) := by
  intro key item others level outer rest hw hl
  obtain ⟨hitem, hothers⟩ := Bool.and_eq_true_iff.1 hw
  have hr := fun after => (value_congr (skipBlank_blank _) fuel).trans
    (hv item level after hitem (by omega))
  cases others with
  | nil =>
    refine fields_last (hr _) ?_
    rw [prettyFields, String.toList_empty, List.nil_append, skipBlank_newline]
    rfl
  | cons next others =>
    obtain ⟨nextKey, next⟩ := next
    rw [toList_prettyFields] at hl ⊢
    have hn := hf nextKey next others level outer rest hothers (by simp at hl ⊢; omega)
    simp only [List.cons_append, List.append_assoc]
    rw [fields_more (hr _) (skipBlank_of_not_blank rfl _), fields_congr (skipBlank_newline _ _), hn]
    rfl

theorem reads (fuel : Nat) : ReadsValues fuel ∧ ReadsItems fuel ∧ ReadsFields fuel := by
  induction fuel with
  | zero =>
    refine ⟨fun v level rest hw hl => ?_, fun _ _ _ _ _ _ hl => absurd hl (Nat.not_lt_zero _),
      fun _ _ _ _ _ _ _ hl => absurd hl (Nat.not_lt_zero _)⟩
    obtain ⟨c, tail, hc, -, -⟩ := toList_pretty hw level
    simp [hc] at hl
  | succ fuel ih =>
    obtain ⟨hv, hi, hf⟩ := ih
    exact ⟨readsValues_succ hi hf, readsItems_succ hv hi, readsFields_succ hv hf⟩

/-- What is written is read back, also with white space behind it. -/
theorem parse_render {v : Value} (h : v.isWords = true) {blank : String}
    (hb : skipBlank blank.toList = []) : parse (v.render ++ blank) = some v := by
  have hr := (reads (2 * (v.render ++ blank).toList.length + 2)).1 v 0 blank.toList h
    (by rw [String.toList_append, List.length_append, ← render]; omega)
  rw [parse, String.toList_append]
  rw [String.toList_append, ← render] at hr
  simp only [hr, hb, Option.bind_eq_bind, Option.bind_some, List.isEmpty_nil, if_true]

end Text

end ToolSwitch.Json
