import ToolSwitch.Proofs.Markup.Path
import ToolSwitch.Proofs.Markup.Truncation
import ToolSwitch.Proofs.Schema.Reading

/-!
A scan of a document that is cut off, against a scan of the whole.  What the first finds the second
finds too, and both then stand at the same point.
-/

namespace ToolSwitch.Schema.Scan

open ToolSwitch.Markup

/-- Two scans at the same point, the first in a document that is cut off behind it. -/
structure CutOff (short full : Scan) : Prop where
  scope : short.scope = full.scope
  stage : short.stage = full.stage
  steps : Truncates Step.Unsettled short.rest.steps full.rest.steps
  path : ∃ path, Follows short.rest.ending path short.rest.steps

variable {short full : Scan} {steps longer : List Step} {path : List String} {depth : Nat}

theorem CutOff.behind (hc : short.CutOff full) (ht : Truncates Step.Unsettled steps longer)
    (hf : Follows short.rest.ending path steps) : (short.behind steps).CutOff (full.behind longer) :=
  ⟨hc.scope, hc.stage, ht, path, hf⟩

theorem choices_nil_ne_ok (hf : Follows short.rest.ending path []) (hp : 0 < path.length)
    (found : List Choice) : (short.choices depth []).1 ≠ .ok found := by
  intro h
  rw [choices, atEnd] at h
  cases he : short.rest.ending with
  | some flaw => simp [he, Functor.map, Except.map] at h
  | none => exact List.ne_nil_of_length_pos hp (hf he)

/-- Choices that are found have their end tag in front of the cut: the end of a document inside an
element is refused. -/
theorem choices_cut (ht : Truncates Step.Unsettled steps longer)
    (hf : Follows short.rest.ending path steps) (hd : 0 < depth) (hp : depth ≤ path.length)
    {found : List Choice} (h : (short.choices depth steps).1 = .ok found) :
    (full.choices depth longer).1 = .ok found ∧
      Truncates Step.Unsettled (short.choices depth steps).2 (full.choices depth longer).2 ∧
      ∃ next, Follows short.rest.ending next (short.choices depth steps).2 := by
  induction ht generalizing path found with
  | nil => exact absurd h (choices_nil_ne_ok hf (Nat.lt_of_lt_of_le hd hp) found)
  | @last step longer hu =>
    obtain ⟨hm, hf⟩ := hf
    rw [choices] at h
    obtain ⟨flaw, ho⟩ | ho := hu.outcome
    · rw [ho] at h
      cases h
    · rw [ho] at h hm
      obtain rfl : step.path = path := hm
      exact absurd h (choices_nil_ne_ok hf (Nat.lt_of_lt_of_le hd hp) found)
  | @cons step steps longer ht ih =>
    obtain ⟨hm, hf⟩ := hf
    rw [choices] at h ⊢
    rw [choices]
    cases ho : step.outcome with
    | error flaw =>
      rw [ho] at h
      cases h
    | ok node =>
      rw [ho] at h hm
      cases node with
      | none =>
        obtain rfl : step.path = path := hm
        exact ih hf hp h
      | some node =>
        cases node with
        | closed =>
          dsimp only at h ⊢
          split at h
          · next hl =>
            cases h
            rw [if_pos hl, if_pos hl]
            exact ⟨rfl, ht, _, hf⟩
          · next hl =>
            rw [if_neg hl, if_neg hl]
            exact ih hf (Nat.le_of_not_lt hl) h
        | opened element | empty element =>
          have hl : path.length ≤ step.path.length := by simp [show step.path = _ from hm]
          have hp' := Nat.le_trans hp hl
          dsimp only at h ⊢
          cases hc : Choice.ofElement? element with
          | none =>
            rw [hc] at h
            exact ih hf hp' h
          | some choice =>
            rw [hc] at h
            cases hr : (short.choices depth steps).1 with
            | error flaw => simp [hr, Functor.map, Except.map] at h
            | ok rest =>
              obtain ⟨hr', ht, hf⟩ := ih hf hp' hr
              dsimp only at h ⊢
              rw [hr] at h
              rw [hr']
              exact ⟨h, ht, hf⟩

theorem declare_cut (hc : short.CutOff full) (ht : Truncates Step.Unsettled steps longer)
    (hf : Follows short.rest.ending path steps) (hp : path ≠ []) {kind : Kind} {element : Element}
    {property : Property}
    (h : (short.declare kind element path.length steps).result = .ok (some property)) :
    (full.declare kind element path.length longer).result = .ok (some property) ∧
      (short.declare kind element path.length steps).next.CutOff
        (full.declare kind element path.length longer).next := by
  by_cases hk : kind = .enum
  · subst hk
    rw [declare_enum] at h ⊢
    rw [declare_enum]
    cases hr : (short.choices path.length steps).1 with
    | error flaw => simp [hr, Functor.map, Except.map] at h
    | ok found =>
      obtain ⟨hr', ht, _, hf⟩ :=
        choices_cut ht hf (List.length_pos_iff.2 hp) (Nat.le_refl _) hr
      rw [hr] at h
      rw [hr']
      exact ⟨h, hc.behind ht hf⟩
  · rw [declare_of_ne_enum _ hk] at h ⊢
    rw [declare_of_ne_enum _ hk]
    exact ⟨h, hc.behind ht hf⟩

/-- The cut never falls inside a property that is found.  The search takes nothing from the unsettled
step and nothing from the end. -/
theorem advance_cut (hc : short.CutOff full) (ht : Truncates Step.Unsettled steps longer)
    (hf : Follows short.rest.ending path steps) {property : Property}
    (h : (short.advance depth steps).result = .ok (some property)) :
    (full.advance depth longer).result = .ok (some property) ∧
      (short.advance depth steps).next.CutOff (full.advance depth longer).next := by
  have hn : (short.advance depth []).result ≠ .ok (some property) := by
    rw [advance]
    cases short.atEnd <;> simp
  induction ht generalizing path with
  | nil => exact absurd h hn
  | @last step longer hu =>
    rw [advance] at h
    obtain ⟨flaw, ho⟩ | ho := hu.outcome
    · rw [ho] at h
      cases h
    · rw [ho] at h
      exact absurd h hn
  | @cons step steps longer ht ih =>
    obtain ⟨hm, hf⟩ := hf
    rw [advance] at h ⊢
    rw [advance]
    cases ho : step.outcome with
    | error flaw =>
      rw [ho] at h
      cases h
    | ok node =>
      rw [ho] at h hm
      rcases node with _ | ⟨element⟩ | ⟨element⟩ | _
      · exact ih hf h
      · dsimp only at h ⊢
        cases hk : Kind.ofTag? element.name with
        | none =>
          rw [hk] at h
          exact ih hf h
        | some kind =>
          rw [hk] at h
          have hp : step.path ≠ [] := by simp [show step.path = _ from hm]
          exact declare_cut hc ht hf hp h
      · dsimp only at h ⊢
        cases hk : Kind.ofTag? element.name with
        | none =>
          rw [hk] at h
          exact ih hf h
        | some kind =>
          rw [hk] at h
          exact ⟨h, hc.behind ht hf⟩
      · dsimp only at h ⊢
        rw [← hc.scope]
        split at h
        · exact absurd h (finish_ne_some _ _ _ _)
        · next hs =>
          rw [if_neg hs, if_neg hs]
          exact ih hf h

theorem nextProperty_cut (hc : short.CutOff full) {property : Property}
    (h : short.nextProperty.result = .ok (some property)) :
    full.nextProperty.result = .ok (some property) ∧
      short.nextProperty.next.CutOff full.nextProperty.next := by
  obtain ⟨path, hf⟩ := hc.path
  unfold nextProperty at h ⊢
  rw [← hc.stage]
  cases hs : short.stage with
  | scanning depth =>
    rw [hs] at h
    exact advance_cut hc hc.steps hf h
  | seeking | finished =>
    rw [hs] at h
    exact absurd h (finish_ne_some _ _ _ _)

/-- The properties that a scan yields in a document that is cut off are the first of those that it
yields in the whole. -/
theorem yields_cut (hc : short.CutOff full) : short.yields.1 <+: full.yields.1 := by
  fun_induction yields short generalizing full with
  | case1 | case2 => exact List.nil_prefix
  | case3 short property h ih =>
    obtain ⟨hp, hc⟩ := nextProperty_cut hc h
    rw [yields_of_some hp, List.prefix_cons_inj]
    exact ih hc

theorem seek_cut (hc : short.CutOff full) (ht : Truncates Step.Unsettled steps longer)
    (hf : Follows short.rest.ending path steps) {rule : Rule}
    (h : (short.seek steps).result = .ok (some rule)) :
    (full.seek longer).result = .ok (some rule) ∧
      (short.seek steps).next.CutOff (full.seek longer).next := by
  have hn : (short.seek []).result ≠ .ok (some rule) := by
    rw [seek]
    cases short.atEnd <;> simp
  induction ht generalizing path with
  | nil => exact absurd h hn
  | @last step longer hu =>
    rw [seek] at h
    obtain ⟨flaw, ho⟩ | ho := hu.outcome
    · rw [ho] at h
      cases h
    · rw [ho] at h
      exact absurd h hn
  | @cons step steps longer ht ih =>
    obtain ⟨-, hf⟩ := hf
    rw [seek] at h ⊢
    rw [seek]
    cases ho : step.outcome with
    | error flaw =>
      rw [ho] at h
      cases h
    | ok node =>
      rw [ho] at h
      rcases node with _ | ⟨element⟩ | ⟨element⟩ | _
      · exact ih hf h
      · dsimp only at h ⊢
        cases hr : Rule.ofElement? element with
        | none =>
          rw [hr] at h
          exact ih hf h
        | some found =>
          rw [hr] at h
          exact ⟨h, hc.scope, rfl, ht, _, hf⟩
      · dsimp only at h ⊢
        cases hr : Rule.ofElement? element with
        | none =>
          rw [hr] at h
          exact ih hf h
        | some found =>
          rw [hr] at h
          exact ⟨h, hc.scope, by rw [hc.scope], ht, _, hf⟩
      · exact ih hf h

theorem findRule_cut (hc : short.CutOff full) {rule : Rule}
    (h : short.findRule.result = .ok (some rule)) :
    full.findRule.result = .ok (some rule) ∧
      short.findRule.next.CutOff full.findRule.next := by
  obtain ⟨path, hf⟩ := hc.path
  unfold findRule at h ⊢
  rw [← hc.stage]
  cases hs : short.stage with
  | seeking =>
    rw [hs] at h
    exact seek_cut hc hc.steps hf h
  | scanning depth | finished =>
    rw [hs] at h
    cases h

theorem cutOff_start (scope : Scope) (bytes more : List UInt8) :
    (start scope (.read bytes)).CutOff (start scope (.read (bytes ++ more))) :=
  ⟨rfl, rfl, read_append bytes more, [], follows_read bytes⟩

end ToolSwitch.Schema.Scan
