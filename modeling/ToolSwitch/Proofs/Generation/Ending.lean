import ToolSwitch.Batch
import ToolSwitch.Proofs.Generation.Blocks
import ToolSwitch.Proofs.Schema.Acceptance

/-!
Where a schema is said to end that ends inside an element.  Offsets do not count a byte order mark
at the very start, but the text that they are shown in begins with it: behind a mark, the end is
pointed at three bytes too early.
-/

namespace ToolSwitch

open ToolSwitch.Files ToolSwitch.Text ToolSwitch.Markup ToolSwitch.Schema

namespace Text.Utf8

theorem toByteArray_encode (text : String) :
    (encode text).toByteArray = text.toByteArray := by
  rw [← String.ofList_toList (s := text), String.toByteArray_ofList, List.utf8Encode, encode,
    String.ofList_toList]

theorem length_encode (text : String) : (encode text).length = text.utf8ByteSize := by
  rw [← String.size_toByteArray, ← toByteArray_encode, List.size_toByteArray]

theorem encode_mark : String.utf8EncodeChar '\uFEFF' = [0xEF, 0xBB, 0xBF] := by
  decide +kernel

/-- Only a text that begins with a byte order mark is written with its bytes in front. -/
theorem head?_of_encode {text : String} {rest : Bytes}
    (h : encode text = 0xEF :: 0xBB :: 0xBF :: rest) : text.toList.head? = some '\uFEFF' := by
  rw [encode] at h
  cases hl : text.toList with
  | nil =>
    rw [hl] at h
    cases h
  | cons c others =>
    -- both characters are the first that the same bytes decode to
    have hb : (String.utf8EncodeChar c).toByteArray ++
          (others.flatMap String.utf8EncodeChar).toByteArray =
        (String.utf8EncodeChar '\uFEFF').toByteArray ++ rest.toByteArray := by
      rw [hl, List.flatMap_cons] at h
      rw [← List.toByteArray_append, ← List.toByteArray_append, h, encode_mark]
      rfl
    have hc : some c = some '\uFEFF' := by
      rw [← ByteArray.utf8DecodeChar?_utf8EncodeChar_append, hb,
        ByteArray.utf8DecodeChar?_utf8EncodeChar_append]
    exact hc

end Text.Utf8

namespace Markup

/-- How many bytes in front of a text are not part of the document. -/
def markSize (text : String) : Nat :=
  if text.toList.head? = some '\uFEFF' then 3 else 0

theorem length_dropMark_encode (text : String) :
    (dropMark (Utf8.encode text)).length = text.utf8ByteSize - markSize text := by
  rw [← Utf8.length_encode]
  by_cases hm : text.toList.head? = some '\uFEFF'
  · obtain ⟨others, hl⟩ := List.head?_eq_some_iff.1 hm
    rw [markSize, if_pos hm, Utf8.encode, hl, List.flatMap_cons, Utf8.encode_mark]
    rfl
  · rw [markSize, if_neg hm, Nat.sub_zero]
    unfold dropMark
    split
    · next he => exact absurd (Utf8.head?_of_encode he) hm
    · rfl

/-- Reading ends at the last byte unless it ends in markup that is not finished. -/
theorem tokensFrom_stop {size : Nat} {waiting : List Name} {bytes : Bytes} {events : List Event}
    (h : Token.Give (tokensFrom size waiting bytes).list events) :
    (tokensFrom size waiting bytes).stop = size := by
  fun_induction tokensFrom size waiting bytes generalizing events with
  | case1 => rfl
  | case2 => cases events <;> cases h
  | case3 | case4 =>
    rename_i ih
    cases events with
    | nil => cases h
    | cons event rest => exact ih (List.cons.inj h).2

theorem Token.Breaks.ne_unclosed {before : List Event} {token : Token} {defect : Defect}
    (h : token.Breaks before defect) (name : String) : defect ≠ .unclosed name := by
  cases h with
  | fault => exact nofun
  | event _ hb =>
    cases hb with
    | tag _ _ ht =>
      cases ht with
      | item _ _ hi => cases hi <;> exact nofun
      | cut => exact nofun
    | secondRoot | text | textOutside | cdataOutside => exact nofun

theorem Tokens.FirstViolation.offset_of_unclosed {bytes : Bytes} {flaw : Flaw} {name : String}
    (h : (tokens bytes).FirstViolation flaw) (hd : flaw.defect = .unclosed name) :
    flaw.offset = (dropMark bytes).length := by
  cases h with
  | token _ _ _ hb => exact absurd hd (hb.ne_unclosed name)
  | unclosed hg => exact tokensFrom_stop hg

end Markup

namespace Generation

/-- A text is refused as a schema, in a pass over it or over its file or when it is read first. -/
inductive Refuses (options : Options) (origin text : String) (failure : Failure) : Prop where
  | read : RuleSchema.ofText options.scope origin text = .error failure →
      Refuses options origin text failure
  | text : (ofText options origin text).result = .error failure →
      Refuses options origin text failure
  | file (tree : FileTree) : tree.readText origin = .ok text →
      (ofFile options tree origin).result = .error failure → Refuses options origin text failure

variable {options : Options} {origin text : String} {failure : Failure}

theorem ofText_error_iff : (ofText options origin text).result = .error failure ↔
    RuleSchema.ofText options.scope origin text = .error failure := by
  have hs := ofText_schema options origin text
  cases hr : RuleSchema.ofText options.scope origin text with
  | error other =>
    rw [hr] at hs
    rw [hs]
    simp
  | ok found =>
    rw [hr] at hs
    obtain ⟨-, summary, hs⟩ := hs
    rw [hs]
    exact iff_of_false nofun nofun

theorem Refuses.ofText (h : Refuses options origin text failure) :
    RuleSchema.ofText options.scope origin text = .error failure := by
  cases h with
  | read h => exact h
  | text h => exact ofText_error_iff.1 h
  | file tree ht h =>
    refine ofText_error_iff.1 ?_
    rw [ofFile, ht] at h
    dsimp only at h
    split at h <;> exact h

/-- A schema is refused with its own text and for the first violation in it. -/
theorem Refuses.violation (h : Refuses options origin text failure) :
    ∃ flaw, failure = (Failure.schema ⟨flaw, origin, none⟩).attach text ∧
      (tokens (Utf8.encode text)).FirstViolation flaw := by
  have hr := h.ofText
  have hv := verdict_spec options.scope (Utf8.encode text)
  rw [← Scan.schema_verdict rfl] at hv
  rw [RuleSchema.ofText] at hr
  cases hs : (Scan.start options.scope (.read (Utf8.encode text))).schema.result with
  | ok found =>
    rw [hs] at hr
    cases hr
  | error flaw =>
    rw [hs] at hr hv
    cases hr
    exact ⟨flaw, rfl, hv⟩

/-- A schema that ends inside an element is refused with its text, and the end is pointed at as many
bytes in front of the end of that text as a byte order mark takes up. -/
theorem unclosed_at_end {failure : SchemaFailure} {name : String}
    (h : Refuses options origin text (.schema failure))
    (hd : failure.flaw.defect = .unclosed name) :
    failure.origin = origin ∧ failure.source = some text ∧
      (Failure.schema failure).label =
        some (text.utf8ByteSize - markSize text, "document ends here") := by
  obtain ⟨flaw, he, hv⟩ := h.violation
  rw [Failure.attach, Failure.schema.injEq] at he
  subst he
  have ho := hv.offset_of_unclosed hd
  rw [length_dropMark_encode] at ho
  refine ⟨rfl, rfl, ?_⟩
  rw [Failure.label, hd, SchemaFailure.attach, ho, Nat.min_eq_left (Nat.sub_le _ _)]

/-- The failure that a single start tag behind a byte order mark is refused with. -/
def markedFailure : SchemaFailure :=
  ⟨⟨.unclosed "a", 3⟩, memory, some "\uFEFF<a>"⟩

theorem refuses_marked :
    Refuses ⟨.document, .typed⟩ memory "\uFEFF<a>" (.schema markedFailure) :=
  .read (by decide +kernel)

theorem unclosed_at_end_marked :
    Refuses ⟨.document, .typed⟩ memory "\uFEFF<a>" (.schema markedFailure) ∧
      (Failure.schema markedFailure).label =
        some ("\uFEFF<a>".utf8ByteSize - markSize "\uFEFF<a>", "document ends here") :=
  ⟨refuses_marked, (unclosed_at_end refuses_marked rfl).2.2⟩

/-- The end that is pointed at is not always that of the text. -/
theorem unclosed_before_end :
    ¬ ∀ (options : Options) (origin text name : String) (failure : SchemaFailure),
      Refuses options origin text (.schema failure) → failure.flaw.defect = .unclosed name →
        failure.flaw.offset = text.utf8ByteSize := by
  intro h
  have he := h _ _ _ "a" _ refuses_marked rfl
  exact absurd he (by decide)

end Generation

end ToolSwitch
