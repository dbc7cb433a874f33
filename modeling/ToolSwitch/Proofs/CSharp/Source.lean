import ToolSwitch.CSharp.Line
import ToolSwitch.Proofs.Text.Utf16

/-!
C# source as a compiler takes it apart: regular string literals with their escape sequences, and the
code around them.  An escaped text between quotes is read as one literal, whatever follows it.
-/

namespace ToolSwitch.CSharp

open ToolSwitch.Text

/-- The characters that end a line of source. -/
def isLineEnd (c : Char) : Bool :=
  c = '\n' || c = '\r' || c = '\x85' || c = '\u2028' || c = '\u2029'

namespace Source

def hexValue? (c : Char) : Option Nat :=
  if '0' ≤ c ∧ c ≤ '9' then some (c.toNat - '0'.toNat)
  else if 'A' ≤ c ∧ c ≤ 'F' then some (c.toNat - 'A'.toNat + 10)
  else if 'a' ≤ c ∧ c ≤ 'f' then some (c.toNat - 'a'.toNat + 10)
  else none

/-- The hexadecimal digits at the front of a text, of which there are at most so many. -/
def hexDigits (most : Nat) (text : List Char) : List Char :=
  (text.take most).takeWhile fun c => (hexValue? c).isSome

def hexNumber (digits : List Char) : Nat :=
  digits.foldl (fun n c => 16 * n + (hexValue? c).getD 0) 0

/-- The code unit that a backslash and one character stand for. -/
def simpleEscape? : Char → Option Nat
  | '\'' => some 0x27
  | '"' => some 0x22
  | '\\' => some 0x5C
  | '0' => some 0x00
  | 'a' => some 0x07
  | 'b' => some 0x08
  | 'f' => some 0x0C
  | 'n' => some 0x0A
  | 'r' => some 0x0D
  | 't' => some 0x09
  | 'v' => some 0x0B
  | _ => none

/-- A piece of the inside of a string literal: how it is written, and the code units it means. -/
structure Inside where
  raw : List Char
  value : List Nat
  deriving DecidableEq, Repr

def Inside.append (first second : Inside) : Inside :=
  ⟨first.raw ++ second.raw, first.value ++ second.value⟩

/-- The escape sequence at the front of what follows a backslash. -/
def escape? : List Char → Option Inside
  | [] => none
  | 'x' :: text =>
    let digits := hexDigits 4 text
    if digits.length = 0 then none else some ⟨'x' :: digits, [hexNumber digits]⟩
  | 'u' :: text =>
    let digits := hexDigits 4 text
    if digits.length = 4 then some ⟨'u' :: digits, [hexNumber digits]⟩ else none
  | 'U' :: text =>
    let digits := hexDigits 8 text
    if digits.length = 8 ∧ hexNumber digits < 0x110000 then
      some ⟨'U' :: digits, Utf16.units (hexNumber digits)⟩
    else none
  | c :: _ => (simpleEscape? c).map fun unit => ⟨[c], [unit]⟩

/-- Reads a string literal from behind the quote that opens it, up to the quote that ends it.  It is
none if it is not ended, if a line ends inside it, or if a backslash in it begins no escape. -/
def readLiteral (text : List Char) : Option (Inside × List Char) :=
  match text with
  | [] => none
  | c :: rest =>
    if c = '"' then some (⟨[], []⟩, rest)
    else if c = '\\' then
      match escape? rest with
      | none => none
      | some sequence =>
        (readLiteral (rest.drop sequence.raw.length)).map fun (inside, after) =>
          (.append ⟨'\\' :: sequence.raw, sequence.value⟩ inside, after)
    else if isLineEnd c then none
    else
      (readLiteral rest).map fun (inside, after) => (.append ⟨[c], Utf16.units c.toNat⟩ inside, after)
termination_by text.length
decreasing_by
  · rw [List.length_drop, List.length_cons]
    omega
  · exact Nat.lt_succ_self _

theorem readLiteral_length {text after : List Char} {inside : Inside}
    (h : readLiteral text = some (inside, after)) : after.length < text.length := by
  fun_induction readLiteral text generalizing inside with
  | case1 | case3 | case5 => cases h
  | case2 =>
    cases h
    exact Nat.lt_succ_self _
  | case4 =>
    rename_i ih
    obtain ⟨⟨inside, after⟩, hr, h⟩ := Option.map_eq_some_iff.1 h
    cases h
    have hlt := ih hr
    rw [List.length_drop] at hlt
    rw [List.length_cons]
    omega
  | case6 =>
    rename_i ih
    obtain ⟨⟨inside, after⟩, hr, h⟩ := Option.map_eq_some_iff.1 h
    cases h
    exact Nat.lt_succ_of_lt (ih hr)

inductive Lexeme where
  | code (c : Char)
  | literal (inside : Inside)
  deriving DecidableEq, Repr

/-- Source from a place outside literals to its end, which must be outside them too. -/
def read (text : List Char) : Option (List Lexeme) :=
  match text with
  | [] => some []
  | c :: rest =>
    if c = '"' then
      match _h : readLiteral rest with
      | none => none
      | some (inside, after) => (read after).map (.literal inside :: ·)
    else (read rest).map (.code c :: ·)
termination_by text.length
decreasing_by
  · exact Nat.lt_succ_of_lt (readLiteral_length _h)
  · exact Nat.lt_succ_self _

/-- How a lexeme is written, with nothing between its quotes. -/
def Lexeme.blank : Lexeme → List Char
  | .code c => [c]
  | .literal _ => ['"', '"']

def Lexeme.inside? : Lexeme → Option Inside
  | .code _ => none
  | .literal inside => some inside

/-- Source with nothing between the quotes of its literals. -/
def blank (lexemes : List Lexeme) : List Char :=
  lexemes.flatMap Lexeme.blank

def literals (lexemes : List Lexeme) : List Inside :=
  lexemes.filterMap Lexeme.inside?

end Source

end ToolSwitch.CSharp
