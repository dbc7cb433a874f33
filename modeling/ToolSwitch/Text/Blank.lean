/-!
The characters with the Unicode property `White_Space`.
-/

namespace ToolSwitch.Text.Blank

/-- The ranges of code points with the property, in order. -/
def ranges : List (Nat × Nat) :=
  [(0x09, 0x0D), (0x20, 0x20), (0x85, 0x85), (0xA0, 0xA0), (0x1680, 0x1680), (0x2000, 0x200A),
    (0x2028, 0x2029), (0x202F, 0x202F), (0x205F, 0x205F), (0x3000, 0x3000)]

def isWhiteSpace (c : Char) : Bool :=
  ranges.any fun (first, last) => first ≤ c.toNat && c.toNat ≤ last

example : (ranges.map fun (first, last) => last + 1 - first).sum = 25 := by decide

end ToolSwitch.Text.Blank
