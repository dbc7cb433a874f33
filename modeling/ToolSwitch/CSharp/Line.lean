import ToolSwitch.CSharp.Literal

/-!
Lines of C# source, in pieces that are either code or string literals.
-/

namespace ToolSwitch.CSharp

inductive Piece where
  | code (text : String)
  | literal (value : String)
  deriving DecidableEq, Repr

def Piece.text : Piece → String
  | .code text => text
  | .literal value => "\"" ++ Literal.content value ++ "\""

abbrev Line := List Piece

namespace Line

def text (line : Line) : String :=
  String.join (line.map Piece.text)

/-- Indents by so many levels of four blanks. -/
def indent (level : Nat) (line : Line) : Line :=
  .code (String.ofList (List.replicate (4 * level) ' ')) :: line

end Line

end ToolSwitch.CSharp
