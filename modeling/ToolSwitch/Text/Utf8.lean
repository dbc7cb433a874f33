/-!
Bytes read as UTF-8.  A byte string is cut into pieces, each a scalar value or a maximal piece that
no scalar value begins with; strict decoding refuses the second kind and lossy decoding replaces it.
-/

namespace ToolSwitch.Text

abbrev Bytes := List UInt8

end ToolSwitch.Text

namespace ToolSwitch.Text.Utf8

inductive Piece where
  | scalar (c : Char)
  /-- So many bytes that begin no scalar value, whatever follows. -/
  | invalid (length : Nat)
  /-- The input ends inside a scalar value. -/
  | truncated
  deriving DecidableEq, Repr

/-- The bits a leading byte contributes, how many bytes follow it, and the range of the first of
those.  The range is narrower than a continuation byte's where the wider one would admit an
overlong form, a surrogate or a value above U+10FFFF. -/
def lead (b : UInt8) : Option (Nat × Nat × UInt8 × UInt8) :=
  if b < 0x80 then some (b.toNat, 0, 0x80, 0xBF)
  else if b < 0xC2 then none
  else if b < 0xE0 then some (b.toNat % 32, 1, 0x80, 0xBF)
  else if b = 0xE0 then some (0, 2, 0xA0, 0xBF)
  else if b = 0xED then some (13, 2, 0x80, 0x9F)
  else if b < 0xF0 then some (b.toNat % 16, 2, 0x80, 0xBF)
  else if b = 0xF0 then some (0, 3, 0x90, 0xBF)
  else if b < 0xF4 then some (b.toNat % 8, 3, 0x80, 0xBF)
  else if b = 0xF4 then some (4, 3, 0x80, 0x8F)
  else none

/-- Reads `count` continuation bytes, the first between `low` and `high`, after `used` bytes of the
same scalar value. -/
def continuation (value used : Nat) : Nat → UInt8 → UInt8 → Bytes → Piece × Bytes
  | 0, _, _, rest => (.scalar (Char.ofNat value), rest)
  | _ + 1, _, _, [] => (.truncated, [])
  | count + 1, low, high, b :: rest =>
    if low ≤ b ∧ b ≤ high then
      continuation (value * 64 + b.toNat % 64) (used + 1) count 0x80 0xBF rest
    else (.invalid used, b :: rest)

theorem continuation_length_le (value used count : Nat) (low high : UInt8) (bytes : Bytes) :
    (continuation value used count low high bytes).2.length ≤ bytes.length := by
  induction count generalizing value used low high bytes with
  | zero => exact Nat.le_refl _
  | succ count ih =>
    cases bytes with
    | nil => exact Nat.le_refl _
    | cons b rest =>
      rw [continuation]
      split
      · exact Nat.le_succ_of_le (ih _ _ _ _ _)
      · exact Nat.le_refl _

def firstPiece (b : UInt8) (rest : Bytes) : Piece × Bytes :=
  match lead b with
  | none => (.invalid 1, rest)
  | some (value, count, low, high) => continuation value 1 count low high rest

theorem firstPiece_length_le (b : UInt8) (rest : Bytes) :
    (firstPiece b rest).2.length ≤ rest.length := by
  unfold firstPiece
  split
  · exact Nat.le_refl _
  · exact continuation_length_le ..

def pieces : Bytes → List Piece
  | [] => []
  | b :: rest => (firstPiece b rest).1 :: pieces (firstPiece b rest).2
termination_by bytes => bytes.length
decreasing_by exact Nat.lt_succ_of_le (firstPiece_length_le b rest)

/-- Why bytes are not UTF-8, with the index at which the valid part ends. -/
inductive Fault where
  | invalid (length index : Nat)
  | incomplete (index : Nat)
  deriving DecidableEq, Repr

def Fault.message : Fault → String
  | .invalid length index => s!"invalid utf-8 sequence of {length} bytes from index {index}"
  | .incomplete index => s!"incomplete utf-8 byte sequence from index {index}"

def scalars (index : Nat) : List Piece → Except Fault (List Char)
  | [] => .ok []
  | .scalar c :: rest => (c :: ·) <$> scalars (index + c.utf8Size) rest
  | .invalid length :: _ => .error (.invalid length index)
  | .truncated :: _ => .error (.incomplete index)

def decode (bytes : Bytes) : Except Fault (List Char) :=
  scalars 0 (pieces bytes)

def Piece.toChar : Piece → Char
  | .scalar c => c
  | .invalid _ | .truncated => '\uFFFD'

/-- One replacement character stands for each piece that is not a scalar value. -/
def decodeLossy (bytes : Bytes) : List Char :=
  (pieces bytes).map Piece.toChar

def encode (s : String) : Bytes :=
  s.toList.flatMap String.utf8EncodeChar

/-- The text that is written as `bytes`, or the reason why there is none. -/
def read (bytes : Bytes) : Except Fault String :=
  String.ofList <$> decode bytes

def readLossy (bytes : Bytes) : String :=
  String.ofList (decodeLossy bytes)

end ToolSwitch.Text.Utf8
