import ToolSwitch.Markup.Fault

/-!
References in text and in attribute values: the five named ones, and characters by number.
-/

namespace ToolSwitch.Markup.Reference

open ToolSwitch.Text

def digit? (radix : Nat) (c : Char) : Option Nat :=
  let value :=
    if '0' ≤ c ∧ c ≤ '9' then some (c.toNat - '0'.toNat)
    else if 'a' ≤ c ∧ c ≤ 'z' then some (c.toNat - 'a'.toNat + 10)
    else if 'A' ≤ c ∧ c ≤ 'Z' then some (c.toNat - 'A'.toNat + 10)
    else none
  value.filter (· < radix)

/-- Continues a number that has to fit 32 bits.  A digit is looked at before the bound it breaks. -/
def digits (radix value : Nat) : List Char → Except NumberFault Nat
  | [] => .ok value
  | c :: rest =>
    match digit? radix c with
    | none => .error .notDigit
    | some d =>
      if value * radix + d < UInt32.size then digits radix (value * radix + d) rest
      else .error .tooLarge

def number (radix : Nat) : List Char → Except CharacterFault Nat
  | [] => .error (.number .empty)
  | c :: rest =>
    if c = '+' ∨ c = '-' then .error .signed
    else (digits radix 0 (c :: rest)).mapError .number

/-- The character that stands for the text after `&#`. -/
def character (text : List Char) : Except CharacterFault Char := do
  let value ←
    match text with
    | 'x' :: hexadecimal => number 16 hexadecimal
    | decimal => number 10 decimal
  if value = 0 then .error .zero
  else if value.isValidChar then .ok (Char.ofNat value)
  else .error (.notScalar value)

def named? : List Char → Option Char
  | ['l', 't'] => some '<'
  | ['g', 't'] => some '>'
  | ['a', 'm', 'p'] => some '&'
  | ['a', 'p', 'o', 's'] => some '\''
  | ['q', 'u', 'o', 't'] => some '"'
  | _ => none

/-- The length of a text in bytes. -/
def width (text : List Char) : Nat :=
  text.foldr (fun c n => c.utf8Size + n) 0

/-- The character meant by the text between `&` and `;`, which begins at byte `start`. -/
def meaning (start : Nat) (name : List Char) : Except ReferenceFault Char :=
  match name with
  | '#' :: code => (character code).mapError .character
  | _ =>
    match named? name with
    | some c => .ok c
    | none => .error (.unknown start (start + width name) (String.ofList name))

/-- The text up to the `;` that ends a reference and the text after that, if no `&` comes first. -/
def splitEnd : List Char → Option (List Char × List Char)
  | [] => none
  | c :: rest =>
    if c = ';' then some ([], rest)
    else if c = '&' then none
    else (splitEnd rest).map fun (name, after) => (c :: name, after)

theorem splitEnd_length {text name after : List Char} (h : splitEnd text = some (name, after)) :
    after.length < text.length := by
  induction text generalizing name with
  | nil => simp [splitEnd] at h
  | cons c rest ih =>
    rw [splitEnd] at h
    split at h
    · cases h; exact Nat.lt_succ_self _
    · split at h
      · cases h
      · obtain ⟨⟨name', after'⟩, h', e⟩ := Option.map_eq_some_iff.1 h
        cases e
        exact Nat.lt_succ_of_lt (ih h')

/-- Expands the references of a text whose first character is at byte `index`. -/
def expandFrom (index : Nat) : List Char → Except ReferenceFault (List Char)
  | [] => .ok []
  | c :: rest =>
    if c = '&' then
      match h : splitEnd rest with
      | none => .error (.unterminated index (index + 1 + width rest))
      | some (name, after) => do
        let c ← meaning (index + 1) name
        (c :: ·) <$> expandFrom (index + 2 + width name) after
    else (c :: ·) <$> expandFrom (index + c.utf8Size) rest
termination_by text => text.length
decreasing_by
  · exact Nat.lt_succ_of_lt (splitEnd_length h)
  · exact Nat.lt_succ_self _

def expand (text : List Char) : Except ReferenceFault (List Char) :=
  expandFrom 0 text

/-- Bytes as the text they stand for, with references expanded. -/
def read (bytes : Bytes) : Except Fault (List Char) := do
  let text ← (Utf8.decode bytes).mapError .encoding
  (expand text).mapError .reference

end ToolSwitch.Markup.Reference
