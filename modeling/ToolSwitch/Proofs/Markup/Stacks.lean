import ToolSwitch.Proofs.Markup.Nesting
import ToolSwitch.Proofs.Markup.Path

/-!
Two stacks of open elements: the names that a reader keeps, and the start tags that wait in the
lexer for their end tags.  They agree up to a start tag that the reader refuses, which only the lexer
has counted, or a wrong end tag, which only the lexer takes for the end of an element.
-/

namespace ToolSwitch.Markup

open ToolSwitch.Text

/-- How a token moves the start tags that wait for their end tag. -/
def Token.Nests (waiting : List Name) (token : Token) : Prop :=
  match token.event with
  | .ok event => event.Nests waiting token.waiting
  | .error (.illFormed (.wrongEnd _ _)) => ∃ name, waiting = name :: token.waiting
  | .error _ => token.waiting = waiting

/-- Tokens in turn, the first of them behind the start tags in `waiting`. -/
def Token.Chained : List Name → List Token → Prop
  | _, [] => True
  | waiting, token :: rest => token.Nests waiting ∧ Chained token.waiting rest

/-- The start tags that wait behind tokens if those in `waiting` do in front of them. -/
def Token.held (waiting : List Name) (tokens : List Token) : List Name :=
  tokens.foldl (fun _ token => token.waiting) waiting

/-- The place behind tokens that are read in turn. -/
def Place.after (place : Place) (tokens : List Token) : Place :=
  tokens.foldl (fun place token => (place.readToken token).2) place

/-- The reader's names are those of the lexer's start tags. -/
def Place.Matches (place : Place) (waiting : List Name) : Prop :=
  place.path = waiting.map Name.text

/-- A token, refused for a flaw, that only the lexer counts as a tag. -/
inductive Place.Parts (place : Place) (waiting : List Name) (token : Token) (flaw : Flaw) :
    Prop where
  | start {tag : Tag} : token.event = .ok (.startTag tag) →
      (place.readToken token).1 = .error flaw → token.waiting = tag.name :: waiting →
      (place.readToken token).2.path = place.path → Parts place waiting token flaw
  | wrongEnd {expected found : String} {name : Name} :
      token.event = .error (.illFormed (.wrongEnd expected found)) →
      (place.readToken token).1 = .error flaw → waiting = name :: token.waiting →
      (place.readToken token).2.path = place.path → Parts place waiting token flaw

theorem Construct.toToken_nests_all (construct : Construct) (waiting : List Name)
    (first last : Nat) : (construct.toToken waiting first last).Nests waiting := by
  cases he : (construct.toToken waiting first last).event with
  | ok event =>
    rw [Token.Nests, he]
    exact toToken_nests he
  | error fault =>
    cases construct with
    | endTag name =>
      cases waiting with
      | nil => rfl
      | cons innermost outer =>
        rw [toToken] at he ⊢
        by_cases hn : name = innermost
        · rw [if_pos hn] at he
          cases he
        · rw [if_neg hn]
          exact ⟨innermost, rfl⟩
    | doctype named =>
      cases named with
      | false => rfl
      | true => cases he
    | startTag | emptyTag | cdata | comment | instruction => cases he

theorem chained_tokensFrom (size : Nat) (waiting : List Name) (bytes : Bytes) :
    Token.Chained waiting (tokensFrom size waiting bytes).list := by
  fun_induction tokensFrom size waiting bytes with
  | case1 => trivial
  | case2 => exact ⟨rfl, trivial⟩
  | case3 =>
    rename_i ih
    exact ⟨Construct.toToken_nests_all .., ih⟩
  | case4 =>
    rename_i ih
    exact ⟨rfl, ih⟩

theorem Token.Chained.of_append {waiting : List Name} {front back : List Token}
    (h : Chained waiting (front ++ back)) : Chained waiting front := by
  induction front generalizing waiting with
  | nil => trivial
  | cons token rest ih => exact ⟨h.1, ih h.2⟩

namespace Place

variable {place : Place} {waiting : List Name} {token : Token}

theorem path_of_error {flaw : Flaw} (h : (place.readToken token).1 = .error flaw) :
    (place.readToken token).2.path = place.path := by
  have hm := place.moves_readToken token
  rw [h] at hm
  exact hm

theorem Parts.outcome {flaw : Flaw} (h : place.Parts waiting token flaw) :
    (place.readToken token).1 = .error flaw := by
  cases h <;> assumption

theorem Matches.readToken_of_ok {node : Option Node} (h : place.Matches waiting)
    (hn : token.Nests waiting) (hr : (place.readToken token).1 = .ok node) :
    (place.readToken token).2.Matches token.waiting := by
  unfold Place.readToken at hr ⊢
  unfold Token.Nests at hn
  cases he : token.event with
  | error fault =>
    rw [he] at hr
    cases hr
  | ok event =>
    rw [he] at hr hn
    dsimp only at hr hn ⊢
    cases ho : (place.read event).1 with
    | error defect =>
      rw [ho] at hr
      cases hr
    | ok node =>
      have hp := read_eq_ok ho
      rw [Matches] at h ⊢
      cases event with
      | startTag tag => rw [hp.2, hn, h, List.map_cons]
      | endTag =>
        obtain ⟨name, hn⟩ := hn
        rw [hp.2, h, hn, List.map_cons, List.tail_cons]
      | emptyTag | text | cdata | aside => rw [hp.2, hn, h]

theorem Matches.readToken_of_error {flaw : Flaw} (h : place.Matches waiting)
    (hn : token.Nests waiting) (hr : (place.readToken token).1 = .error flaw) :
    (place.readToken token).2.Matches token.waiting ∨ place.Parts waiting token flaw := by
  have hp := path_of_error hr
  have hk : token.waiting = waiting → (place.readToken token).2.Matches token.waiting :=
    fun hw => by rw [Matches, hp, hw, h]
  unfold Token.Nests at hn
  split at hn
  · next event he =>
    cases event with
    | startTag tag => exact .inr (.start he hr hn hp)
    | endTag =>
      rw [readToken, he] at hr
      cases hr
    | emptyTag | text | cdata | aside => exact .inl (hk hn)
  · next he =>
    obtain ⟨name, hn⟩ := hn
    exact .inr (.wrongEnd he hr hn hp)
  · exact .inl (hk hn)

/-- Read in turn, tokens keep the two stacks together up to the first that takes them apart. -/
theorem Matches.after {tokens : List Token} (h : place.Matches waiting)
    (hc : Token.Chained waiting tokens) :
    (place.after tokens).Matches (Token.held waiting tokens) ∨
      ∃ done token more flaw, tokens = done ++ token :: more ∧
        (place.after done).Matches (Token.held waiting done) ∧
        (place.after done).Parts (Token.held waiting done) token flaw := by
  -- reader and lexer move in step, so both stacks are generalized
  induction tokens generalizing place waiting with
  | nil => exact .inl h
  | cons token rest ih =>
    have hs : (place.readToken token).2.Matches token.waiting ∨
        ∃ flaw, place.Parts waiting token flaw := by
      cases hr : (place.readToken token).1 with
      | ok node => exact .inl (h.readToken_of_ok hc.1 hr)
      | error flaw => exact (h.readToken_of_error hc.1 hr).imp_right fun hp => ⟨flaw, hp⟩
    obtain hm | ⟨flaw, hp⟩ := hs
    · obtain hm | ⟨done, other, more, flaw, rfl, hd, hp⟩ := ih hm hc.2
      · exact .inl hm
      · exact .inr ⟨token :: done, other, more, flaw, rfl, hd, hp⟩
    · exact .inr ⟨[], token, rest, flaw, rfl, h, hp⟩

end Place

theorem Document.steps_ofTokens_cons (stop : Nat) (place : Place) (token : Token)
    (rest : List Token) :
    (ofTokens stop place (token :: rest)).steps =
      ⟨(place.readToken token).1, (place.readToken token).2.path⟩ ::
        (ofTokens stop (place.readToken token).2 rest).steps :=
  rfl

/-- Where steps of a document end, its tokens have been read just as far. -/
theorem Document.ofTokens_split {stop : Nat} {place : Place} {tokens : List Token}
    {front back : List Step} (h : (ofTokens stop place tokens).steps = front ++ back) :
    ∃ read unread, tokens = read ++ unread ∧
      ofTokens stop (place.after read) unread = ⟨back, (ofTokens stop place tokens).ending⟩ ∧
      ∀ done token more, read = done ++ token :: more → ∃ step ∈ front,
        step.outcome = ((place.after done).readToken token).1 := by
  -- each step of `front` is that of one token
  induction front generalizing place tokens with
  | nil =>
    refine ⟨[], tokens, rfl, ?_, fun done token more hr => by simp at hr⟩
    rw [List.nil_append] at h
    rw [← h]
    rfl
  | cons step rest ih =>
    cases tokens with
    | nil => cases h
    | cons token others =>
      rw [steps_ofTokens_cons, List.cons_append, List.cons.injEq] at h
      obtain ⟨rfl, h⟩ := h
      obtain ⟨read, unread, rfl, hd, hs⟩ := ih h
      refine ⟨token :: read, unread, rfl, hd, fun done other more hr => ?_⟩
      cases done with
      | nil =>
        obtain ⟨rfl, rfl⟩ := List.cons.inj hr
        exact ⟨_, List.mem_cons_self, rfl⟩
      | cons first done =>
        rw [List.cons_append, List.cons.injEq] at hr
        obtain ⟨rfl, hr⟩ := hr
        obtain ⟨step, hm, ho⟩ := hs done other more hr
        exact ⟨step, List.mem_cons_of_mem _ hm, ho⟩

theorem Document.length_ofTokens (stop : Nat) (place : Place) (tokens : List Token) :
    (ofTokens stop place tokens).steps.length = tokens.length := by
  induction tokens generalizing place with
  | nil => rfl
  | cons token rest ih => rw [steps_ofTokens_cons, List.length_cons, List.length_cons, ih]

end ToolSwitch.Markup
