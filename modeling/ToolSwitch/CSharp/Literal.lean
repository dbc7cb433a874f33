/-!
Text inside a C# regular string literal.  What would end the literal, break its line or not be seen
is written as an escape sequence.
-/

namespace ToolSwitch.CSharp.Literal

/-- Control characters and the two separators that end a line. -/
def isUnprintable (c : Char) : Bool :=
  c.toNat < 0x20 || (0x7F ≤ c.toNat && c.toNat < 0xA0) || c = '\u2028' || c = '\u2029'

def needsEscape (c : Char) : Bool :=
  c = '\\' || c = '"' || isUnprintable c

def hexDigit (n : Nat) : Char :=
  if n < 10 then Char.ofNat ('0'.toNat + n) else Char.ofNat ('A'.toNat + (n - 10))

/-- The lowest sixteen bits as four hexadecimal digits. -/
def hex4 (n : Nat) : List Char :=
  [hexDigit (n / 4096 % 16), hexDigit (n / 256 % 16), hexDigit (n / 16 % 16), hexDigit (n % 16)]

def escapeChar (c : Char) : List Char :=
  if c = '\\' then ['\\', '\\']
  else if c = '"' then ['\\', '"']
  else if c = '\n' then ['\\', 'n']
  else if c = '\r' then ['\\', 'r']
  else if c = '\t' then ['\\', 't']
  else if c = '\x00' then ['\\', '0']
  else if isUnprintable c then '\\' :: 'u' :: hex4 c.toNat
  else [c]

def escape (value : List Char) : List Char :=
  value.flatMap escapeChar

theorem escapeChar_of_not_needsEscape {c : Char} (h : needsEscape c = false) :
    escapeChar c = [c] := by
  simp only [needsEscape, Bool.or_eq_false_iff, decide_eq_false_iff_not] at h
  obtain ⟨⟨hb, hq⟩, hu⟩ := h
  have ne : ∀ d : Char, isUnprintable d = true → c ≠ d := by
    intro d hd e
    rw [e, hd] at hu
    cases hu
  rw [escapeChar, if_neg hb, if_neg hq, if_neg (ne '\n' rfl), if_neg (ne '\r' rfl),
    if_neg (ne '\t' rfl), if_neg (ne '\x00' rfl), hu]
  rfl

theorem escape_of_all_not_needsEscape {value : List Char}
    (h : ∀ c ∈ value, needsEscape c = false) : escape value = value := by
  induction value with
  | nil => rfl
  | cons c rest ih =>
    rw [escape, List.flatMap_cons, escapeChar_of_not_needsEscape (h c List.mem_cons_self)]
    exact congrArg (c :: ·) (ih fun d hd => h d (List.mem_cons_of_mem c hd))

/-- The inside of the literal for a value.  Most values need no escape and stay as they are. -/
def content (value : String) : String :=
  if value.toList.any needsEscape then String.ofList (escape value.toList) else value

theorem content_eq (value : String) : content value = String.ofList (escape value.toList) := by
  unfold content
  split
  · rfl
  · next h =>
    rw [escape_of_all_not_needsEscape, String.ofList_toList]
    intro c hc
    rw [← Bool.not_eq_true]
    exact fun hn => h (List.any_eq_true.2 ⟨c, hc, hn⟩)

end ToolSwitch.CSharp.Literal
