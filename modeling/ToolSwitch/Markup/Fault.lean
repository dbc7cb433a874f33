import ToolSwitch.Text.Utf8

/-!
What can be wrong with markup, by cause, and the wording of each cause together with the causes
below it.
-/

namespace ToolSwitch.Markup

open ToolSwitch.Text

/-- Markup that the input ends in, or that is none. -/
inductive Unfinished where
  | unknown
  | instruction
  | comment
  | doctype
  | cdata
  | tag
  deriving DecidableEq, Repr

def Unfinished.message : Unfinished → String
  | .unknown => "unknown or missed symbol in markup"
  | .instruction =>
    "processing instruction or xml declaration not closed: `?>` not found before end of input"
  | .comment => "comment not closed: `-->` not found before end of input"
  | .doctype => "DOCTYPE not closed: `>` not found before end of input"
  | .cdata => "CDATA not closed: `]]>` not found before end of input"
  | .tag => "tag not closed: `>` not found before end of input"

/-- Complete markup in a place where it cannot stand. -/
inductive IllFormed where
  | wrongEnd (expected found : String)
  | unmatchedEnd (name : String)
  | unnamedDoctype
  deriving DecidableEq, Repr

def IllFormed.message : IllFormed → String
  | .wrongEnd expected found => s!"expected `</{expected}>`, but `</{found}>` was found"
  | .unmatchedEnd name => s!"close tag `</{name}>` does not match any open tag"
  | .unnamedDoctype => "`<!DOCTYPE>` declaration does not contain a name of a document type"

/-- Positions count from the byte after the tag's `<`. -/
inductive AttributeFault where
  | noEquals (position : Nat)
  | duplicate (position previous : Nat)
  | noValue (position : Nat)
  | unquoted (position : Nat)
  | unclosedQuote (position : Nat) (quote : Char)
  deriving DecidableEq, Repr

def AttributeFault.message : AttributeFault → String
  | .noEquals position =>
    s!"position {position}: attribute key must be directly followed by `=` or space"
  | .duplicate position previous =>
    s!"position {position}: duplicated attribute, previous declaration at position {previous}"
  | .noValue position => s!"position {position}: `=` must be followed by an attribute value"
  | .unquoted position =>
    s!"position {position}: attribute value must be enclosed in `\"` or `'`"
  | .unclosedQuote position quote =>
    s!"position {position}: missing closing quote `{quote}` in attribute value"

inductive NumberFault where
  | empty
  | notDigit
  | tooLarge
  deriving DecidableEq, Repr

def NumberFault.message : NumberFault → String
  | .empty => "cannot parse integer from empty string"
  | .notDigit => "invalid digit found in string"
  | .tooLarge => "number too large to fit in target type"

inductive CharacterFault where
  | signed
  | number (fault : NumberFault)
  | zero
  | notScalar (value : Nat)
  deriving DecidableEq, Repr

def CharacterFault.message : CharacterFault → String
  | .signed => "unexpected number sign"
  | .number fault => fault.message
  | .zero => "0x0 character is not permitted in XML"
  | .notScalar value => s!"`{value}` is not a valid codepoint"

/-- A character fault that wraps a number fault words both the same. -/
def CharacterFault.chain : CharacterFault → List String
  | .number fault => [fault.message, fault.message]
  | fault => [fault.message]

/-- Ranges are in bytes of the text that holds the reference. -/
inductive ReferenceFault where
  | unknown (first last : Nat) (name : String)
  | unterminated (first last : Nat)
  | character (fault : CharacterFault)
  deriving DecidableEq, Repr

def ReferenceFault.message : ReferenceFault → String
  | .unknown first last name => s!"at {first}..{last}: unrecognized entity `{name}`"
  | .unterminated first last =>
    s!"Error while escaping character at range {first}..{last}: Cannot find ';' after '&'"
  | .character fault => s!"invalid character reference: {fault.message}"

inductive Fault where
  | unfinished (fault : Unfinished)
  | illFormed (fault : IllFormed)
  | attribute (fault : AttributeFault)
  | encoding (fault : Utf8.Fault)
  | reference (fault : ReferenceFault)
  deriving DecidableEq, Repr

/-- The wording of a fault, then that of each cause below it. -/
def Fault.chain : Fault → List String
  | .unfinished fault => [s!"syntax error: {fault.message}", fault.message]
  | .illFormed fault => [s!"ill-formed document: {fault.message}", fault.message]
  | .attribute fault => [s!"error while parsing attribute: {fault.message}", fault.message]
  | .encoding fault =>
    let outer := s!"cannot decode input using UTF-8: {fault.message}"
    [outer, outer, fault.message]
  | .reference fault =>
    fault.message :: fault.message ::
      match fault with
      | .character fault => fault.chain
      | _ => []

end ToolSwitch.Markup
