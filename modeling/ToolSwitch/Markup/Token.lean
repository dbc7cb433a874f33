import ToolSwitch.Markup.Attribute

/-!
A document as a sequence of tokens: text runs and pieces of markup, each sound or faulty.  Finding
the end of a piece of markup is the work of a small automaton that stops at the `>` that ends it.
-/

namespace ToolSwitch.Markup

open ToolSwitch.Text

/-- Cuts bytes at the first one the automaton has no next state for, and drops that byte. -/
def cutWhere {σ : Type} (step : σ → UInt8 → Option σ) (state : σ) (seen : Bytes) :
    Bytes → Option (Bytes × Bytes)
  | [] => none
  | b :: rest =>
    match step state b with
    | none => some (seen.reverse, rest)
    | some next => cutWhere step next (b :: seen) rest

theorem cutWhere_length {σ : Type} {step : σ → UInt8 → Option σ} {state : σ}
    {seen text before after : Bytes} (h : cutWhere step state seen text = some (before, after)) :
    after.length < text.length := by
  induction text generalizing state seen with
  | nil => cases h
  | cons b rest ih =>
    rw [cutWhere] at h
    split at h
    · cases h
      exact Nat.lt_succ_self _
    · exact Nat.lt_succ_of_lt (ih h)

/-- The state is the quote that is open. -/
def tagStep : Option UInt8 → UInt8 → Option (Option UInt8)
  | none, b =>
    if b = 0x3E then none
    else if b = 0x22 ∨ b = 0x27 then some (some b)
    else some none
  | some quote, b => some (if b = quote then none else some quote)

/-- The state tells whether the last byte is `?`. -/
def instructionStep (mark : Bool) (b : UInt8) : Option Bool :=
  if b = 0x3E ∧ mark then none else some (b == 0x3F)

/-- The state counts all bytes and the dashes at their end.  Below five bytes the dashes that would
end the comment are still those that open it. -/
def commentStep : Nat × Nat → UInt8 → Option (Nat × Nat)
  | (count, dashes), b =>
    if b = 0x3E ∧ 2 ≤ dashes ∧ 5 ≤ count then none
    else some (count + 1, if b = 0x2D then dashes + 1 else 0)

/-- The state counts the brackets at the end. -/
def cdataStep (brackets : Nat) (b : UInt8) : Option Nat :=
  if b = 0x3E ∧ 2 ≤ brackets then none
  else some (if b = 0x5D then brackets + 1 else 0)

/-- The state counts the `<` that wait for their `>`. -/
def doctypeStep (depth : Nat) (b : UInt8) : Option Nat :=
  if b = 0x3C then some (depth + 1)
  else if b = 0x3E then if depth = 0 then none else some (depth - 1)
  else some depth

/-- A complete piece of markup, before it is looked at in its place. -/
inductive Construct where
  | startTag (tag : Tag)
  | emptyTag (tag : Tag)
  | endTag (name : Name)
  | cdata
  | comment
  | instruction
  | doctype (named : Bool)
  deriving DecidableEq, Repr

/-- Markup, or why there is none, and the bytes left behind it. -/
abbrev Cut := Except (Unfinished × Bytes) (Construct × Bytes)

def beginsWith (word : String) (text : Bytes) : Bool :=
  (Utf8.encode word).isPrefixOf text

def upper (b : UInt8) : UInt8 :=
  if 0x61 ≤ b ∧ b ≤ 0x7A then b - 0x20 else b

def Construct.ofTag (content : Bytes) : Construct :=
  if content.getLast? = some 0x2F then .emptyTag (.ofContent content.dropLast)
  else .startTag (.ofContent content)

/-- An end tag's name loses the white space behind it, unless there is nothing else. -/
def Construct.ofEndTag (content : Bytes) : Construct :=
  let name := (content.reverse.dropWhile isSpace).reverse
  .endTag ⟨if name.isEmpty then content else name⟩

def cutComment (text : Bytes) : Cut :=
  match cutWhere commentStep (0, 0) [] text with
  | none => .error (.comment, [])
  | some (content, rest) =>
    if beginsWith "!--" content then .ok (.comment, rest) else .error (.comment, rest)

def cutCdata (text : Bytes) : Cut :=
  match cutWhere cdataStep 0 [] text with
  | none => .error (.cdata, [])
  | some (content, rest) =>
    if beginsWith "![CDATA[" content then .ok (.cdata, rest) else .error (.cdata, rest)

/-- The word for a document type may be in any case. -/
def cutDoctype (text : Bytes) : Cut :=
  match cutWhere doctypeStep 0 [] text with
  | none => .error (.doctype, [])
  | some (content, rest) =>
    if beginsWith "!DOCTYPE" (content.map upper) then
      .ok (.doctype ((content.drop 8).any (!isSpace ·)), rest)
    else .error (.doctype, rest)

def cutInstruction (text : Bytes) : Cut :=
  match cutWhere instructionStep false [] text with
  | none => .error (.instruction, [])
  | some (content, rest) =>
    if 2 ≤ content.length then .ok (.instruction, rest) else .error (.instruction, rest)

def cutTag (text : Bytes) : Cut :=
  match cutWhere tagStep none [] text with
  | none => .error (.tag, [])
  | some (0x2F :: name, rest) => .ok (.ofEndTag name, rest)
  | some (content, rest) => .ok (.ofTag content, rest)

/-- The markup whose `<` stands just before `text`. -/
def cutMarkup (text : Bytes) : Cut :=
  match text with
  | 0x21 :: 0x5B :: _ => cutCdata text
  | 0x21 :: 0x2D :: _ => cutComment text
  | 0x21 :: 0x44 :: _ | 0x21 :: 0x64 :: _ => cutDoctype text
  | 0x21 :: _ => .error (.unknown, text)
  | 0x3F :: _ => cutInstruction text
  | _ => cutTag text

theorem cutComment_length {text rest : Bytes} {construct : Construct}
    (h : cutComment text = .ok (construct, rest)) : rest.length < text.length := by
  unfold cutComment at h
  split at h
  · cases h
  · next hc =>
    split at h <;> cases h
    exact cutWhere_length hc

theorem cutCdata_length {text rest : Bytes} {construct : Construct}
    (h : cutCdata text = .ok (construct, rest)) : rest.length < text.length := by
  unfold cutCdata at h
  split at h
  · cases h
  · next hc =>
    split at h <;> cases h
    exact cutWhere_length hc

theorem cutDoctype_length {text rest : Bytes} {construct : Construct}
    (h : cutDoctype text = .ok (construct, rest)) : rest.length < text.length := by
  unfold cutDoctype at h
  split at h
  · cases h
  · next hc =>
    split at h <;> cases h
    exact cutWhere_length hc

theorem cutInstruction_length {text rest : Bytes} {construct : Construct}
    (h : cutInstruction text = .ok (construct, rest)) : rest.length < text.length := by
  unfold cutInstruction at h
  split at h
  · cases h
  · next hc =>
    split at h <;> cases h
    exact cutWhere_length hc

theorem cutTag_length {text rest : Bytes} {construct : Construct}
    (h : cutTag text = .ok (construct, rest)) : rest.length < text.length := by
  unfold cutTag at h
  split at h
  · cases h
  · next hc =>
    cases h
    exact cutWhere_length hc
  · next hc =>
    cases h
    exact cutWhere_length hc

theorem cutMarkup_length {text rest : Bytes} {construct : Construct}
    (h : cutMarkup text = .ok (construct, rest)) : rest.length < text.length := by
  unfold cutMarkup at h
  split at h
  · exact cutCdata_length h
  · exact cutComment_length h
  · exact cutDoctype_length h
  · exact cutDoctype_length h
  · cases h
  · exact cutInstruction_length h
  · exact cutTag_length h

inductive Event where
  | startTag (tag : Tag)
  | emptyTag (tag : Tag)
  | endTag
  | text (raw : Bytes)
  | cdata
  /-- A comment, a processing instruction, a declaration or a document type. -/
  | aside
  deriving DecidableEq, Repr

structure Token where
  event : Except Fault Event
  /-- Where a fault lies, or else the end of the token. -/
  position : Nat
  /-- The start tags that wait for their end tag afterwards, innermost first. -/
  waiting : List Name

/-- The tokens of a document and the offset at which reading it ends. -/
structure Tokens where
  list : List Token
  stop : Nat

def Tokens.cons (token : Token) (tokens : Tokens) : Tokens :=
  { tokens with list := token :: tokens.list }

/-- Markup in its place: between offsets `first` and `last`, inside the elements in `waiting`.  An
end tag takes the innermost name away also if that is another. -/
def Construct.toToken (waiting : List Name) (first last : Nat) : Construct → Token
  | .startTag tag => ⟨.ok (.startTag tag), last, tag.name :: waiting⟩
  | .emptyTag tag => ⟨.ok (.emptyTag tag), last, waiting⟩
  | .endTag name =>
    match waiting with
    | [] => ⟨.error (.illFormed (.unmatchedEnd name.textOrEmpty)), first, []⟩
    | innermost :: outer =>
      if name = innermost then ⟨.ok .endTag, last, outer⟩
      else ⟨.error (.illFormed (.wrongEnd innermost.textOrEmpty name.textOrEmpty)), first, outer⟩
  | .cdata => ⟨.ok .cdata, last, waiting⟩
  | .comment | .instruction | .doctype true => ⟨.ok .aside, last, waiting⟩
  | .doctype false => ⟨.error (.illFormed .unnamedDoctype), last - 1, waiting⟩

/-- The tokens of the last bytes of a document of `size` bytes.  Markup that is not finished ends
the document. -/
def tokensFrom (size : Nat) (waiting : List Name) : Bytes → Tokens
  | [] => ⟨[], size⟩
  | b :: text =>
    if b = 0x3C then
      let first := size - (text.length + 1)
      match _h : cutMarkup text with
      | .error (fault, rest) =>
        ⟨[⟨.error (.unfinished fault), first, waiting⟩], size - rest.length⟩
      | .ok (construct, rest) =>
        let token := construct.toToken waiting first (size - rest.length)
        (tokensFrom size token.waiting rest).cons token
    else
      let rest := text.dropWhile (· != 0x3C)
      let raw := b :: text.takeWhile (· != 0x3C)
      (tokensFrom size waiting rest).cons ⟨.ok (.text raw), size - rest.length, waiting⟩
termination_by text => text.length
decreasing_by
  · exact Nat.lt_succ_of_lt (cutMarkup_length _h)
  · exact Nat.lt_succ_of_le (Attribute.length_dropWhile_le _ _)

/-- A byte order mark at the very start is no part of the document. -/
def dropMark : Bytes → Bytes
  | 0xEF :: 0xBB :: 0xBF :: rest => rest
  | bytes => bytes

def tokens (bytes : Bytes) : Tokens :=
  tokensFrom (dropMark bytes).length [] (dropMark bytes)

end ToolSwitch.Markup
