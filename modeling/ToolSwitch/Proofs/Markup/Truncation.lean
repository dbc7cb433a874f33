import Mathlib.Data.List.TakeWhile
import ToolSwitch.Markup.Document
import ToolSwitch.Proofs.Markup.Cut

/-!
A document that is cut off at any byte, against the whole of it.  The lexer reads no further than the
token it is at, so the cut is felt in one token at most: a fault or a text, and the last there is.
-/

namespace ToolSwitch.Markup

open ToolSwitch.Text

/-- The beginning of a list, or that with one more item behind it for which `p` holds. -/
inductive Truncates {α : Type} (p : α → Prop) : List α → List α → Prop where
  | nil {full : List α} : Truncates p [] full
  | last {item : α} {full : List α} : p item → Truncates p [item] full
  | cons {item : α} {short full : List α} :
      Truncates p short full → Truncates p (item :: short) (item :: full)

/-- Markup that is complete is read the same whatever comes behind it. -/
theorem cutMarkup_append {text rest : Bytes} {construct : Construct}
    (h : cutMarkup text = .ok (construct, rest)) (more : Bytes) :
    cutMarkup (text ++ more) = .ok (construct, rest ++ more) := by
  obtain ⟨piece, rfl, hp⟩ := cutMarkup_replace h
  rw [List.append_assoc]
  exact hp _

section Tokens

variable {size : Nat} {waiting : List Name}

theorem tokensFrom_of_cut {text rest : Bytes} {construct : Construct}
    (h : cutMarkup text = .ok (construct, rest)) :
    let token := construct.toToken waiting (size - (text.length + 1)) (size - rest.length)
    (tokensFrom size waiting (0x3C :: text)).list =
      token :: (tokensFrom size token.waiting rest).list := by
  rw [tokensFrom, if_pos rfl]
  split
  · next he => cases h.symm.trans he
  · next he =>
    cases h.symm.trans he
    rfl

theorem tokensFrom_of_text {b : UInt8} (hb : b ≠ 0x3C) (text : Bytes) :
    let rest := text.dropWhile (· != 0x3C)
    (tokensFrom size waiting (b :: text)).list =
      ⟨.ok (.text (b :: text.takeWhile (· != 0x3C))), size - rest.length, waiting⟩ ::
        (tokensFrom size waiting rest).list := by
  rw [tokensFrom, if_neg hb]
  rfl

end Tokens

/-- A token that more bytes behind it may change. -/
def Token.Unsettled (token : Token) : Prop :=
  ∀ event, token.event = .ok event → ∃ raw, event = .text raw

theorem tokensFrom_append (size : Nat) (waiting : List Name) (bytes more : Bytes) :
    Truncates Token.Unsettled (tokensFrom size waiting bytes).list
      (tokensFrom (size + more.length) waiting (bytes ++ more)).list := by
  -- offsets count from the end of the bytes, so both sizes give a token the same one
  fun_induction tokensFrom size waiting bytes with
  | case1 => exact .nil
  | case2 => exact .last fun _ he => nomatch he
  | case3 waiting text first construct rest h token ih =>
    rw [List.cons_append, tokensFrom_of_cut (cutMarkup_append h more), List.length_append,
      List.length_append, Nat.add_right_comm, Nat.add_sub_add_right, Nat.add_sub_add_right]
    exact .cons ih
  | case4 waiting b text hb rest raw ih =>
    by_cases hr : rest = []
    · rw [Tokens.cons, hr, tokensFrom]
      exact .last fun _ he => ⟨raw, (Except.ok.inj he).symm⟩
    · have hd : (text ++ more).dropWhile (· != 0x3C) = rest ++ more := by
        rw [List.dropWhile_append, if_neg (mt List.isEmpty_iff.1 hr)]
      have ht : (text ++ more).takeWhile (· != 0x3C) = text.takeWhile (· != 0x3C) := by
        rw [List.takeWhile_append, if_neg]
        intro hl
        have hs := congrArg List.length (@List.takeWhile_append_dropWhile _ (· != 0x3C) text)
        rw [List.length_append, hl] at hs
        exact hr (List.length_eq_zero_iff.1 (Nat.left_eq_add.1 hs.symm))
      rw [List.cons_append, tokensFrom_of_text hb, hd, ht, List.length_append,
        Nat.add_sub_add_right]
      exact .cons ih

theorem truncates_of_no_markup {bytes : Bytes} (h : ∀ b ∈ bytes, b ≠ 0x3C) (size : Nat)
    (waiting : List Name) (full : List Token) :
    Truncates Token.Unsettled (tokensFrom size waiting bytes).list full := by
  cases bytes with
  | nil =>
    rw [tokensFrom]
    exact .nil
  | cons b text =>
    obtain ⟨hb, ht⟩ := List.forall_mem_cons.1 h
    have hd : text.dropWhile (· != 0x3C) = [] := List.dropWhile_eq_nil_iff.2 (by simpa using ht)
    rw [tokensFrom_of_text hb, hd, tokensFrom]
    exact .last fun _ he => ⟨_, (Except.ok.inj he).symm⟩

/-- A byte order mark that is cut off itself is a text. -/
theorem dropMark_append (bytes more : Bytes) :
    dropMark (bytes ++ more) = dropMark bytes ++ more ∨ ∀ b ∈ dropMark bytes, b ≠ 0x3C := by
  match bytes with
  | [] => exact .inr (by simp [dropMark])
  | [a] =>
    by_cases ha : a = 0x3C
    · rw [ha]
      exact .inl rfl
    · exact .inr (by simpa [dropMark] using ha)
  | [a, b] =>
    by_cases h : a = 0xEF ∧ b = 0xBB
    · rw [h.1, h.2]
      exact .inr (by simp [dropMark])
    · left
      rw [List.cons_append, List.cons_append]
      unfold dropMark
      split <;> simp_all
  | a :: b :: c :: rest =>
    left
    by_cases h : a = 0xEF ∧ b = 0xBB ∧ c = 0xBF
    · rw [h.1, h.2.1, h.2.2]
      rfl
    · have hd (text : Bytes) : dropMark (a :: b :: c :: text) = a :: b :: c :: text := by
        unfold dropMark
        split <;> simp_all
      rw [List.cons_append, List.cons_append, List.cons_append, hd, hd]
      rfl

/-- Cutting a document off keeps all its tokens in front of the cut. -/
theorem tokens_append (bytes more : Bytes) :
    Truncates Token.Unsettled (tokens bytes).list (tokens (bytes ++ more)).list := by
  rw [tokens, tokens]
  obtain h | h := dropMark_append bytes more
  · rw [h, List.length_append]
    exact tokensFrom_append _ _ _ _
  · exact truncates_of_no_markup h _ _ _

/-- A step that more bytes behind it may change.  None of them opens or closes an element. -/
def Step.Unsettled (step : Step) : Prop :=
  ∀ node, step.outcome = .ok node → node = none

theorem Step.Unsettled.outcome {step : Step} (h : step.Unsettled) :
    (∃ flaw, step.outcome = .error flaw) ∨ step.outcome = .ok none := by
  cases ho : step.outcome with
  | error flaw => exact .inl ⟨flaw, rfl⟩
  | ok node => exact .inr (congrArg _ (h node ho))

theorem Token.Unsettled.readToken {token : Token} (h : token.Unsettled) (place : Place) :
    Step.Unsettled ⟨(place.readToken token).1, (place.readToken token).2.path⟩ := by
  intro node ho
  dsimp only [Place.readToken] at ho
  cases he : token.event with
  | error fault => simp [he] at ho
  | ok event =>
    obtain ⟨raw, rfl⟩ := h event he
    cases hc : place.checkText raw <;>
      simp_all [Place.read, Except.mapError, Functor.map, Except.map]

theorem ofTokens_truncates {tokens full : List Token}
    (h : Truncates Token.Unsettled tokens full) (stop stop' : Nat) (place : Place) :
    Truncates Step.Unsettled (Document.ofTokens stop place tokens).steps
      (Document.ofTokens stop' place full).steps := by
  induction h generalizing place with
  | nil => exact .nil
  | last hu => exact .last (hu.readToken place)
  | cons _ ih => exact .cons (ih _)

theorem read_append (bytes more : Bytes) :
    Truncates Step.Unsettled (Document.read bytes).steps (Document.read (bytes ++ more)).steps :=
  ofTokens_truncates (tokens_append bytes more) _ _ .start

end ToolSwitch.Markup
