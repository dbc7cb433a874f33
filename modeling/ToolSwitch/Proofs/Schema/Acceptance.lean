import ToolSwitch.Proofs.Markup.Standing
import ToolSwitch.Proofs.Schema.Reading

/-!
Which documents can be read to their end, told by the tokens of the lexer alone, and where and why
reading stops in the others.
-/

namespace ToolSwitch.Markup

/-- Tokens that are not faulty, by their events. -/
def Token.Give (tokens : List Token) (events : List Event) : Prop :=
  tokens.map Token.event = events.map .ok

/-- What is wrong with a token behind others: it is faulty, or its event cannot stand there. -/
inductive Token.Breaks (before : List Event) (token : Token) : Defect → Prop where
  | fault {fault : Fault} : token.event = .error fault → Breaks before token (.markup fault)
  | event {event : Event} {defect : Defect} : token.event = .ok event →
      Event.Breaks before event defect → Breaks before token defect

namespace Tokens

/-- No token is faulty, the events are sound where they stand, and nothing is left open. -/
def Accepted (tokens : Tokens) : Prop :=
  ∃ events, Token.Give tokens.list events ∧ Event.Sound events ∧ Event.enclosing events = []

/-- The first thing that is wrong with a document, and where.  All that comes before it is sound. -/
inductive FirstViolation (tokens : Tokens) : Flaw → Prop where
  | token {done rest : List Token} {token : Token} {before : List Event} {defect : Defect} :
      tokens.list = done ++ token :: rest → Token.Give done before → Event.Sound before →
      token.Breaks before defect → FirstViolation tokens ⟨defect, token.position⟩
  | unclosed {events : List Event} {name : Name} {outer : List Name} :
      Token.Give tokens.list events → Event.Sound events →
      Event.enclosing events = name :: outer →
      FirstViolation tokens ⟨.unclosed name.text, tokens.stop⟩

end Tokens

namespace Token

variable {tokens done rest : List Token} {token : Token} {events before : List Event}
  {event : Event} {defect other : Defect}

theorem give_append_singleton (hg : Give done before) (he : token.event = .ok event) :
    Give (done ++ [token]) (before ++ [event]) := by
  rw [Give, List.map_append, List.map_append, hg, List.map_singleton, he]
  rfl

theorem Give.unique {events' : List Event} (h : Give tokens events) (h' : Give tokens events') :
    events = events' :=
  List.map_injective_iff.2 (fun _ _ => Except.ok.inj) (h.symm.trans h')

def Sound (tokens : List Token) : Prop :=
  ∃ events, Give tokens events ∧ Event.Sound events

theorem Sound.of_append {front back : List Token} (h : Sound (front ++ back)) : Sound front := by
  obtain ⟨events, hg, hs⟩ := h
  rw [Give, List.map_append, eq_comm, List.map_eq_append_iff] at hg
  obtain ⟨before, after, rfl, hf, -⟩ := hg
  exact ⟨before, hf.symm, hs.of_append⟩

theorem Breaks.not_sound (h : token.Breaks before defect) (hg : Give done before) :
    ¬ Sound (done ++ [token]) := by
  rintro ⟨events, he, hs⟩
  cases h with
  | fault hf =>
    rw [Give, List.map_append, eq_comm, List.map_eq_append_iff] at he
    obtain ⟨_, after, -, -, ha⟩ := he
    simp [hf, List.map_eq_cons_iff] at ha
  | event ho hb =>
    rw [he.unique (give_append_singleton hg ho), Event.sound_append_singleton] at hs
    exact hb.not_fits hs.2

theorem Breaks.unique (h : token.Breaks before defect) (h' : token.Breaks before other) :
    defect = other := by
  cases h with
  | fault hf =>
    cases h' with
    | fault hf' =>
      cases hf.symm.trans hf'
      rfl
    | event he' => cases hf.symm.trans he'
  | event he hb =>
    cases h' with
    | fault hf' => cases he.symm.trans hf'
    | event he' hb' =>
      cases he.symm.trans he'
      exact hb.unique hb'

end Token

namespace Tokens.FirstViolation

variable {tokens : Tokens} {flaw other : Flaw}

theorem not_accepted (h : tokens.FirstViolation flaw) : ¬ tokens.Accepted := by
  rintro ⟨events, hg, hs, ho⟩
  cases h with
  | token hl hd _ hb =>
    rw [hl, List.append_cons] at hg
    exact hb.not_sound hd (Token.Sound.of_append ⟨events, hg, hs⟩)
  | unclosed hg' _ ho' =>
    rw [hg'.unique hg, ho] at ho'
    cases ho'

theorem unique (h : tokens.FirstViolation flaw) (h' : tokens.FirstViolation other) :
    flaw = other := by
  cases h with
  | token hl hd hs hb =>
    cases h' with
    | token hl' hd' hs' hb' =>
      obtain ⟨rfl, rfl⟩ := first_unique (fun _ _ => Token.Sound.of_append) (hl.symm.trans hl')
        ⟨_, hd, hs⟩ (hb.not_sound hd) ⟨_, hd', hs'⟩ (hb'.not_sound hd')
      obtain rfl := hd.unique hd'
      rw [hb.unique hb']
    | unclosed hg hs' =>
      rw [hl, List.append_cons] at hg
      exact absurd (Token.Sound.of_append ⟨_, hg, hs'⟩) (hb.not_sound hd)
  | unclosed hg hs ho =>
    cases h' with
    | token hl hd _ hb =>
      rw [hl, List.append_cons] at hg
      exact absurd (Token.Sound.of_append ⟨_, hg, hs⟩) (hb.not_sound hd)
    | unclosed hg' _ ho' =>
      obtain rfl := hg.unique hg'
      cases ho.symm.trans ho'
      rfl

end Tokens.FirstViolation

end ToolSwitch.Markup

namespace ToolSwitch.Schema

open ToolSwitch.Markup

theorem Scan.drain_spec {tokens : Tokens} {rest done : List Token} {before : List Event}
    {place : Place} {scan : Scan} (h : place.Behind before) (hl : tokens.list = done ++ rest)
    (hd : Token.Give done before)
    (he : scan.rest.ending = (Document.ofTokens tokens.stop place rest).ending) :
    match (scan.drain (Document.ofTokens tokens.stop place rest).steps).1 with
    | .ok _ => tokens.Accepted
    | .error flaw => tokens.FirstViolation flaw := by
  -- `place.Behind before` is the invariant; `done` keeps the split of the tokens
  induction rest generalizing done before place with
  | nil =>
    rw [List.append_nil] at hl
    rw [Document.ofTokens, drain, atEnd, he, Document.ofTokens, h.path]
    cases ho : Event.enclosing before with
    | nil => exact ⟨before, hl ▸ hd, h.sound, ho⟩
    | cons name outer => exact .unclosed (hl ▸ hd) h.sound ho
  | cons token rest ih =>
    rw [Document.ofTokens] at he ⊢
    cases ht : token.event with
    | error fault =>
      simp only [Place.readToken, ht, Document.cons, drain]
      exact .token hl hd h.sound (.fault ht)
    | ok event =>
      have hb := h.read event
      simp only [Place.readToken, ht, Document.cons, drain] at he ⊢
      cases hr : (place.read event).1 with
      | error defect =>
        rw [hr] at hb
        exact .token hl hd h.sound (.event ht hb)
      | ok node =>
        rw [hr] at hb
        have hl' : tokens.list = (done ++ [token]) ++ rest := by rw [hl, List.append_cons]
        exact ih hb hl' (Token.give_append_singleton hd ht) he

theorem verdict_spec (scope : Scope) (bytes : List UInt8) :
    match (Scan.start scope (.read bytes)).verdict with
    | .ok _ => (tokens bytes).Accepted
    | .error flaw => (tokens bytes).FirstViolation flaw :=
  @Scan.drain_spec (tokens bytes) _ [] [] .start (Scan.start scope (.read bytes))
    Place.behind_start rfl rfl rfl

/-- A document can be read to its end just if each token is sound where it stands and nothing is
left open.  Reading any other document stops at the first violation. -/
theorem verdict_of_tokens (scope : Scope) (bytes : List UInt8) :
    ((Scan.start scope (.read bytes)).verdict = .ok () ↔ (tokens bytes).Accepted) ∧
      ∀ flaw, (Scan.start scope (.read bytes)).verdict = .error flaw ↔
        (tokens bytes).FirstViolation flaw := by
  have hs := verdict_spec scope bytes
  cases hv : (Scan.start scope (.read bytes)).verdict with
  | ok _ =>
    rw [hv] at hs
    exact ⟨iff_of_true rfl hs, fun flaw => iff_of_false nofun fun hf => hf.not_accepted hs⟩
  | error flaw =>
    rw [hv] at hs
    refine ⟨iff_of_false nofun hs.not_accepted, fun other => ⟨?_, fun hf => ?_⟩⟩
    · rintro ⟨⟩
      exact hs
    · rw [hs.unique hf]

end ToolSwitch.Schema
