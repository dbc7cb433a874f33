import ToolSwitch.Markup.Defect
import ToolSwitch.Markup.Name
import ToolSwitch.Markup.Reference

/-!
The attributes of a tag.  They are checked together and in order, so an element holds only values
that could be read, under pairwise different keys.  One of them can be looked up in a tag by itself,
which stops at its key and checks nothing but what it needs.
-/

namespace ToolSwitch.Markup

open ToolSwitch.Text

structure Attribute where
  key : Name
  value : String
  deriving DecidableEq, Repr

namespace Attribute

/-! A position in a tag of `size` bytes is told by the bytes that are left there. -/

variable (size : Nat)

def isKeyByte (b : UInt8) : Bool :=
  b != 0x3D && !isSpace b

/-- The key that comes next and what follows its `=`, or nothing at the end of the tag.  The first
byte of a key is never looked at, so a key may begin with `=`. -/
def scanKey (text : Bytes) : Except AttributeFault (Option (Name × Nat × Bytes)) :=
  match text.dropWhile isSpace with
  | [] => .ok none
  | first :: rest =>
    match (rest.dropWhile isKeyByte).dropWhile isSpace with
    | [] => .error (.noEquals size)
    | b :: after =>
      if b = 0x3D then
        .ok (some (⟨first :: rest.takeWhile isKeyByte⟩, size - (rest.length + 1), after))
      else .error (.noEquals (size - (after.length + 1)))

/-- The quoted value that comes next and what follows it. -/
def scanValue (text : Bytes) : Except AttributeFault (Bytes × Bytes) :=
  match text.dropWhile isSpace with
  | [] => .error (.noValue size)
  | quote :: rest =>
    if quote = 0x22 ∨ quote = 0x27 then
      match rest.dropWhile (· != quote) with
      | [] => .error (.unclosedQuote size (Char.ofNat quote.toNat))
      | _ :: after => .ok (rest.takeWhile (· != quote), after)
    else .error (.unquoted (size - (rest.length + 1)))

theorem length_dropWhile_le {α : Type} (p : α → Bool) (l : List α) :
    (l.dropWhile p).length ≤ l.length :=
  (List.dropWhile_suffix p).length_le

theorem scanKey_length {text after : Bytes} {key : Name} {position : Nat}
    (h : scanKey size text = .ok (some (key, position, after))) : after.length < text.length := by
  unfold scanKey at h
  split at h
  · cases h
  · next first rest hs =>
    have h₁ := length_dropWhile_le isSpace text
    have h₂ := length_dropWhile_le isKeyByte rest
    have h₃ := length_dropWhile_le isSpace (rest.dropWhile isKeyByte)
    rw [hs] at h₁
    split at h
    · cases h
    · next b rest' hs' =>
      rw [hs'] at h₃
      split at h
      · cases h
        simp only [List.length_cons] at h₁ h₃
        omega
      · cases h

theorem scanValue_length {text value after : Bytes}
    (h : scanValue size text = .ok (value, after)) : after.length < text.length := by
  unfold scanValue at h
  split at h
  · cases h
  · next quote rest hs =>
    have h₁ := length_dropWhile_le isSpace text
    rw [hs] at h₁
    split at h
    · split at h
      · cases h
      · next hs' =>
        have h₂ := length_dropWhile_le (· != quote) rest
        rw [hs'] at h₂
        cases h
        simp only [List.length_cons] at h₁ h₂
        omega
    · cases h

/-- What a raw value stands for. -/
def readValue (key : Name) (value : Bytes) : Except Defect String :=
  if value.contains 0x3C then .error (.malformed (.rawAngleBracket key.text))
  else (String.ofList <$> Reference.read value).mapError .markup

theorem readValue_eq_ok {key : Name} {raw : Bytes} {value : String}
    (h : readValue key raw = .ok value) :
    ∃ text, Reference.read raw = .ok text ∧ value = String.ofList text := by
  unfold readValue at h
  split at h
  · cases h
  · cases hr : Reference.read raw with
    | error fault =>
      rw [hr] at h
      cases h
    | ok text =>
      rw [hr] at h
      cases h
      exact ⟨text, rfl, rfl⟩

/-- Reads the rest of a tag's attributes, after those whose keys and positions are in `seen`. -/
def readAll (seen : List (Name × Nat)) (text : Bytes) : Except Defect (List Attribute) :=
  match _hk : scanKey size text with
  | .error fault => .error (.markup (.attribute fault))
  | .ok none => .ok []
  | .ok (some (key, position, afterKey)) =>
    match seen.lookup key with
    | some previous => .error (.markup (.attribute (.duplicate position previous)))
    | none =>
      match _hv : scanValue size afterKey with
      | .error fault => .error (.markup (.attribute fault))
      | .ok (raw, after) => do
        let value ← readValue key raw
        let others ← readAll ((key, position) :: seen) after
        return ⟨key, value⟩ :: others
termination_by text.length
decreasing_by
  have := scanKey_length size _hk
  have := scanValue_length size _hv
  omega

/-- The value under a key in the rest of a tag.  What comes before the key is passed over, and what
comes behind its value is not looked at. -/
def lookup (key : Name) (text : Bytes) : Except Fault (Option String) :=
  match _hk : scanKey size text with
  | .error fault => .error (.attribute fault)
  | .ok none => .ok none
  | .ok (some (other, _, afterKey)) =>
    match _hv : scanValue size afterKey with
    | .error fault => .error (.attribute fault)
    | .ok (raw, after) =>
      if other = key then (some ∘ String.ofList) <$> Reference.read raw else lookup key after
termination_by text.length
decreasing_by
  have := scanKey_length size _hk
  have := scanValue_length size _hv
  omega

section

variable {size} {key other : Name} {position : Nat} {text afterKey raw after : Bytes}

theorem lookup_of_end (h : scanKey size text = .ok none) : lookup size key text = .ok none := by
  rw [lookup]
  split <;> simp_all

theorem lookup_of_value (h : scanKey size text = .ok (some (other, position, afterKey)))
    (hv : scanValue size afterKey = .ok (raw, after)) :
    lookup size key text =
      if other = key then (some ∘ String.ofList) <$> Reference.read raw
      else lookup size key after := by
  rw [lookup]
  split <;> simp_all
  split <;> simp_all

/-- Among attributes that have been read together, looking one up never fails. -/
theorem lookup_of_readAll {seen : List (Name × Nat)} {attributes : List Attribute}
    (h : readAll size seen text = .ok attributes) (key : Name) :
    lookup size key text = .ok ((attributes.find? (·.key = key)).map Attribute.value) := by
  fun_induction readAll size seen text generalizing attributes with
  | case1 | case3 | case4 => cases h
  | case2 seen text hk =>
    cases h
    exact lookup_of_end hk
  | case5 seen text other position afterKey hk hl raw after hv ih =>
    rw [lookup_of_value hk hv]
    cases hr : readValue other raw with
    | error defect =>
      rw [hr] at h
      cases h
    | ok value =>
      rw [hr] at h
      cases ho : readAll size ((other, position) :: seen) after with
      | error defect =>
        rw [ho] at h
        cases h
      | ok others =>
        rw [ho] at h
        cases h
        obtain ⟨text, ht, rfl⟩ := readValue_eq_ok hr
        by_cases he : other = key
        · rw [if_pos he, ht, List.find?_cons_of_pos (by simpa using he)]
          rfl
        · rw [if_neg he, ih ho, List.find?_cons_of_neg (by simpa using he)]

end

end Attribute

/-- A start tag: its name, and the text after the name that is to hold attributes. -/
structure Tag where
  name : Name
  attributeText : Bytes
  deriving DecidableEq, Repr

/-- Splits what stands between `<` and `>` after the name. -/
def Tag.ofContent (content : Bytes) : Tag where
  name := ⟨content.takeWhile (!isSpace ·)⟩
  attributeText := content.dropWhile (!isSpace ·)

structure Element where
  name : Name
  attributes : List Attribute
  deriving DecidableEq, Repr

def Tag.toElement (tag : Tag) : Except Defect Element :=
  (⟨tag.name, ·⟩) <$>
    Attribute.readAll (tag.name.bytes.length + tag.attributeText.length) [] tag.attributeText

/-- The value under a key. -/
def Element.attribute? (element : Element) (key : String) : Option String :=
  (element.attributes.find? (·.key = Name.ofString key)).map Attribute.value

/-- The value under a key, looked up in a tag whose attributes need not have been checked. -/
def Tag.lookup (tag : Tag) (key : Name) : Except Fault (Option String) :=
  Attribute.lookup (tag.name.bytes.length + tag.attributeText.length) key tag.attributeText

theorem Tag.readAll_of_toElement {tag : Tag} {element : Element} (h : tag.toElement = .ok element) :
    Attribute.readAll (tag.name.bytes.length + tag.attributeText.length) [] tag.attributeText =
      .ok element.attributes := by
  unfold toElement at h
  cases hr : Attribute.readAll (tag.name.bytes.length + tag.attributeText.length) []
      tag.attributeText with
  | error defect =>
    rw [hr] at h
    cases h
  | ok attributes =>
    rw [hr] at h
    cases h
    rfl

/-- In a tag that has been accepted, what is looked up is what has been read. -/
theorem Tag.lookup_of_toElement {tag : Tag} {element : Element} (h : tag.toElement = .ok element)
    (key : String) : tag.lookup (.ofString key) = .ok (element.attribute? key) :=
  Attribute.lookup_of_readAll (readAll_of_toElement h) _

end ToolSwitch.Markup
