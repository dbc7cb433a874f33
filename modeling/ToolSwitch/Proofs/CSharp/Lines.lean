import Mathlib.Data.List.Induction
import ToolSwitch.Proofs.CSharp.Escaping

/-!
Lines whose pieces of code hold no quote and no line break.  Such lines are taken apart into their
own pieces, and what stands above them does not change which lines they are.
-/

namespace ToolSwitch.CSharp

open ToolSwitch.Text

namespace Piece

/-- Whether code neither opens a literal nor ends its line. -/
def isPlain : Piece → Bool
  | .code text => text.toList.all fun c => c != '"' && c != '\n'
  | .literal _ => true

/-- The inside of the literal for a value. -/
def inside (value : String) : Source.Inside :=
  ⟨Literal.escape value.toList, Utf16.encode value.toList⟩

def lexemes : Piece → List Source.Lexeme
  | .code text => text.toList.map .code
  | .literal value => [.literal (inside value)]

/-- A piece with nothing between its quotes. -/
def blank : Piece → String
  | .code text => text
  | .literal _ => "\"\""

def value? : Piece → Option String
  | .code _ => none
  | .literal value => some value

theorem blank_lexemes (piece : Piece) :
    piece.lexemes.flatMap Source.Lexeme.blank = piece.blank.toList := by
  cases piece with
  | code text => simp [lexemes, blank, List.flatMap_map, Source.Lexeme.blank]
  | literal value => simp [lexemes, blank, Source.Lexeme.blank]

theorem literals_lexemes (piece : Piece) :
    piece.lexemes.filterMap Source.Lexeme.inside? = piece.value?.toList.map inside := by
  cases piece with
  | code text => simp [lexemes, value?, Source.Lexeme.inside?]
  | literal value => rfl

theorem toList_text_literal (value : String) :
    (Piece.literal value).text.toList = '"' :: (Literal.escape value.toList ++ ['"']) := by
  simp [text, Literal.content_eq]

theorem isPlain_literal (value : String) : (Piece.literal value).isPlain = true := rfl

theorem isPlain_append (front back : String) :
    (Piece.code (front ++ back)).isPlain = ((code front).isPlain && (code back).isPlain) := by
  rw [isPlain, String.toList_append, List.all_append, isPlain, isPlain]

theorem newline_not_mem {piece : Piece} (h : piece.isPlain) : '\n' ∉ piece.text.toList := by
  cases piece with
  | code text =>
    intro hm
    have hn := List.all_eq_true.1 h '\n' hm
    cases hn
  | literal value =>
    rw [toList_text_literal]
    intro hm
    have he : '\n' ∈ Literal.escape value.toList := by simpa using hm
    cases Literal.not_isUnprintable_of_mem_escape he

theorem read_code {text : List Char} (h : ∀ c ∈ text, c ≠ '"') (rest : List Char) :
    Source.read (text ++ rest) = (Source.read rest).map (text.map .code ++ ·) := by
  induction text with
  | nil => simp
  | cons c others ih =>
    obtain ⟨hc, ho⟩ := List.forall_mem_cons.1 h
    rw [List.cons_append, Source.read, if_neg hc, ih ho, Option.map_map]
    rfl

theorem read_text {piece : Piece} (h : piece.isPlain) (rest : List Char) :
    Source.read (piece.text.toList ++ rest) = (Source.read rest).map (piece.lexemes ++ ·) := by
  cases piece with
  | code text =>
    refine read_code (fun c hc => ?_) rest
    have hp := List.all_eq_true.1 h c hc
    simp only [Bool.and_eq_true, bne_iff_ne] at hp
    exact hp.1
  | literal value =>
    rw [toList_text_literal, List.cons_append, List.append_assoc, List.singleton_append,
      Source.read, if_pos rfl]
    split
    · next hr =>
      rw [Source.readLiteral_escape] at hr
      cases hr
    · next hr =>
      rw [Source.readLiteral_escape] at hr
      cases hr
      rfl

end Piece

namespace Line

def isPlain (line : Line) : Bool :=
  line.all Piece.isPlain

def blank (line : Line) : String :=
  String.join (line.map Piece.blank)

/-- The values of the literals of a line. -/
def values (line : Line) : List String :=
  line.filterMap Piece.value?

def lexemes (line : Line) : List Source.Lexeme :=
  line.flatMap Piece.lexemes

/-- Lines below one another, each behind a line break. -/
def below (lines : List Line) : List Char :=
  lines.flatMap fun line => '\n' :: line.text.toList

theorem toList_text (line : Line) :
    line.text.toList = line.flatMap fun piece => piece.text.toList := by
  rw [text, String.toList_join, List.flatMap_map]

theorem newline_not_mem {line : Line} (h : line.isPlain) : '\n' ∉ line.text.toList := by
  rw [toList_text, List.mem_flatMap]
  rintro ⟨piece, hp, hn⟩
  exact Piece.newline_not_mem (List.all_eq_true.1 h piece hp) hn

theorem read_text {line : Line} (h : line.isPlain) (rest : List Char) :
    Source.read (line.text.toList ++ rest) = (Source.read rest).map (line.lexemes ++ ·) := by
  rw [toList_text, lexemes]
  induction line with
  | nil => simp
  | cons piece others ih =>
    rw [isPlain, List.all_cons, Bool.and_eq_true] at h
    rw [List.flatMap_cons, List.append_assoc, Piece.read_text h.1, ih h.2, Option.map_map,
      List.flatMap_cons]
    simp [Function.comp_def]

theorem read_below {lines : List Line} (h : lines.all isPlain) :
    Source.read (below lines) = some (lines.flatMap fun line => .code '\n' :: line.lexemes) := by
  induction lines with
  | nil => rw [below, List.flatMap_nil, Source.read]; rfl
  | cons line others ih =>
    rw [List.all_cons, Bool.and_eq_true] at h
    rw [below, List.flatMap_cons, List.cons_append, Source.read, if_neg (by decide),
      read_text h.1, ← below, ih h.2]
    rfl

theorem blank_lexemes (line : Line) : Source.blank line.lexemes = line.blank.toList := by
  rw [blank, String.toList_join, List.flatMap_map, lexemes, Source.blank, List.flatMap_assoc]
  congr 1
  exact funext Piece.blank_lexemes

theorem literals_lexemes (line : Line) :
    Source.literals line.lexemes = line.values.map Piece.inside := by
  induction line with
  | nil => rfl
  | cons piece others ih =>
    rw [Source.literals, lexemes] at ih ⊢
    rw [List.flatMap_cons, List.filterMap_append, Piece.literals_lexemes, ih, values, values,
      List.filterMap_cons]
    cases piece.value? <;> rfl

section

variable (separator : String) (lines : List Line)

/-! Lines put into one, with a separator between them. -/

theorem blank_intercalate :
    blank ([Piece.code separator].intercalate lines) =
      separator.intercalate (lines.map blank) := by
  induction lines with
  | nil => rfl
  | cons line others ih =>
    cases others with
    | nil => simp
    | cons next others =>
      rw [List.intercalate_cons_cons, List.map_cons, List.map_cons, String.intercalate_cons_cons,
        ← List.map_cons, ← ih]
      simp [blank, Piece.blank, String.append_assoc]

theorem values_intercalate :
    values ([Piece.code separator].intercalate lines) = lines.flatMap values := by
  induction lines with
  | nil => rfl
  | cons line others ih =>
    cases others with
    | nil => simp
    | cons next others =>
      rw [List.intercalate_cons_cons, List.flatMap_cons, ← ih, values, List.append_assoc,
        List.filterMap_append, List.singleton_append, List.filterMap_cons_none rfl]
      rfl

theorem isPlain_intercalate (hs : (Piece.code separator).isPlain) (hl : lines.all isPlain) :
    isPlain ([Piece.code separator].intercalate lines) := by
  induction lines with
  | nil => rfl
  | cons line others ih =>
    rw [List.all_cons, Bool.and_eq_true] at hl
    cases others with
    | nil => simpa using hl.1
    | cons next others =>
      rw [List.intercalate_cons_cons, isPlain, List.all_append, List.all_append, ← isPlain,
        hl.1, List.all_cons, hs]
      exact ih hl.2

end

theorem below_eq (lines : List Line) :
    below lines = (lines.map text).flatMap fun text => '\n' :: text.toList := by
  rw [below, List.flatMap_map]

theorem below_append (upper lower : List Line) :
    below (upper ++ lower) = below upper ++ below lower :=
  List.flatMap_append

theorem below_singleton (line : Line) : below [line] = '\n' :: line.text.toList :=
  List.flatMap_singleton ..

/-- The last line break of a text is the one with none behind it. -/
theorem last_break_unique {above above' last last' : List Char} (hl : '\n' ∉ last)
    (hl' : '\n' ∉ last') (h : above ++ '\n' :: last = above' ++ '\n' :: last') :
    above = above' ∧ last = last' := by
  obtain ⟨between, ha, hb⟩ | ⟨between, ha, hb⟩ := List.append_eq_append_iff.1 h
  · cases between with
    | nil => simp_all
    | cons c others =>
      rw [List.cons_append, List.cons.injEq] at hb
      exact absurd (hb.2 ▸ List.mem_append_right others List.mem_cons_self) hl
  · cases between with
    | nil => simp_all
    | cons c others =>
      rw [List.cons_append, List.cons.injEq] at hb
      exact absurd (hb.2 ▸ List.mem_append_right others List.mem_cons_self) hl'

/-- Texts that are the same have the same last lines, whatever stands above these. -/
theorem below_cancel {lines others : List Line} (hl : lines.all isPlain) (ho : others.all isPlain)
    (hn : lines.length = others.length) {above above' : List Char}
    (h : above ++ below lines = above' ++ below others) :
    above = above' ∧ lines.map text = others.map text := by
  -- from the last line to the first, so that there is no line break behind the one looked at
  induction lines using List.reverseRecOn generalizing others with
  | nil =>
    obtain rfl := List.length_eq_zero_iff.1 hn.symm
    exact ⟨List.append_cancel_right h, rfl⟩
  | append_singleton front last ih =>
    obtain rfl | ⟨front', last', rfl⟩ := List.eq_nil_or_concat others
    · simp at hn
    rw [List.concat_eq_append] at h hn ho ⊢
    rw [below_append, below_append, below_singleton, below_singleton, ← List.append_assoc,
      ← List.append_assoc] at h
    simp only [List.all_append, List.all_cons, List.all_nil, Bool.and_true,
      Bool.and_eq_true] at hl ho
    obtain ⟨hfront, ht⟩ := last_break_unique (newline_not_mem hl.2) (newline_not_mem ho.2) h
    obtain ⟨ha, hb⟩ := ih hl.1 ho.1 (by simpa using hn) hfront
    rw [List.map_append, List.map_append, hb, List.map_singleton, List.map_singleton,
      String.toList_inj.1 ht]
    exact ⟨ha, rfl⟩

end Line

end ToolSwitch.CSharp
