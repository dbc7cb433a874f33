import ToolSwitch.Proofs.Schema.Reading

/-!
Where a scan stands behind what it was asked for.  Once it has found the rule it never looks for it
again, and where it finds nothing more the document has been read to its end.
-/

namespace ToolSwitch.Schema

open ToolSwitch.Markup

namespace Scan

/-- Nothing is left to read, and the end of the document is in order. -/
structure Exhausted (scan : Scan) : Prop where
  steps : scan.rest.steps = []
  ending : scan.rest.ending = none

variable {scan : Scan}

theorem Exhausted.atEnd (h : scan.Exhausted) : scan.atEnd = .ok () := by
  rw [Scan.atEnd, h.ending]

theorem exhausted_of_atEnd (h : scan.atEnd = .ok ()) (stage : Stage) :
    Exhausted { scan.behind [] with stage } := by
  refine ⟨rfl, ?_⟩
  change scan.rest.ending = none
  rw [Scan.atEnd] at h
  split at h
  · cases h
  · assumption

/-! Where nothing more is found, the document has been read to its end. -/

theorem drain_exhausted {steps : List Step} (h : (scan.drain steps).1 = .ok ()) :
    (scan.behind (scan.drain steps).2).Exhausted := by
  induction steps with
  | nil => exact exhausted_of_atEnd h scan.stage
  | cons step rest ih =>
    rw [drain] at h ⊢
    cases ho : step.outcome with
    | error flaw =>
      rw [ho] at h
      cases h
    | ok node =>
      rw [ho] at h
      exact ih h

theorem finish_exhausted {notices : List Notice} {steps : List Step}
    (h : (scan.finish notices steps).result = .ok none) :
    (scan.finish notices steps).next.Exhausted := by
  rw [finish_eq] at h ⊢
  refine drain_exhausted ?_
  cases hd : (scan.drain steps).1 with
  | error flaw =>
    rw [hd] at h
    cases h
  | ok _ => rfl

theorem declare_ne_none (kind : Kind) (element : Element) (depth : Nat) (rest : List Step) :
    (scan.declare kind element depth rest).result ≠ .ok none := by
  by_cases hk : kind = .enum
  · subst hk
    rw [declare_enum]
    cases (scan.choices depth rest).1 <;> simp [Functor.map, Except.map]
  · simp [declare_of_ne_enum scan hk]

theorem advance_exhausted {depth : Nat} {steps : List Step}
    (h : (scan.advance depth steps).result = .ok none) :
    (scan.advance depth steps).next.Exhausted := by
  induction steps with
  | nil =>
    rw [advance] at h ⊢
    cases he : scan.atEnd with
    | error flaw =>
      rw [he] at h
      cases h
    | ok _ => exact exhausted_of_atEnd he .finished
  | cons step rest ih =>
    rw [advance] at h ⊢
    cases ho : step.outcome with
    | error flaw =>
      rw [ho] at h
      cases h
    | ok node =>
      rw [ho] at h
      rcases node with _ | ⟨element⟩ | ⟨element⟩ | _
      · exact ih h
      · dsimp only at h ⊢
        split at h
        · exact (declare_ne_none _ _ _ _ h).elim
        · exact ih h
      · dsimp only at h ⊢
        split at h
        · cases h
        · exact ih h
      · dsimp only at h ⊢
        split at h
        · next hs =>
          rw [if_pos hs]
          exact finish_exhausted h
        · next hs =>
          rw [if_neg hs]
          exact ih h

theorem nextProperty_exhausted (h : scan.nextProperty.result = .ok none) :
    scan.nextProperty.next.Exhausted := by
  unfold nextProperty at h ⊢
  split at h
  · exact advance_exhausted h
  · exact finish_exhausted h
  · exact finish_exhausted h

theorem seek_exhausted {steps : List Step} (h : (scan.seek steps).result = .ok none) :
    (scan.seek steps).next.Exhausted := by
  induction steps with
  | nil =>
    rw [seek] at h ⊢
    cases he : scan.atEnd with
    | error flaw =>
      rw [he] at h
      cases h
    | ok _ => exact exhausted_of_atEnd he .finished
  | cons step rest ih =>
    rw [seek] at h ⊢
    cases ho : step.outcome with
    | error flaw =>
      rw [ho] at h
      cases h
    | ok node =>
      rw [ho] at h
      rcases node with _ | ⟨element⟩ | ⟨element⟩ | _
      · exact ih h
      · dsimp only at h ⊢
        split at h
        · cases h
        · exact ih h
      · dsimp only at h ⊢
        split at h
        · cases h
        · exact ih h
      · exact ih h

theorem findRule_exhausted (hs : scan.stage = .seeking) (h : scan.findRule.result = .ok none) :
    scan.findRule.next.Exhausted := by
  rw [findRule, hs] at h ⊢
  exact seek_exhausted h

theorem allProperties_exhausted {properties : List Property}
    (h : scan.allProperties.result = .ok properties) : scan.allProperties.next.Exhausted := by
  fun_induction allProperties scan generalizing properties with
  | case1 => cases h
  | case2 =>
    rename_i hn
    exact nextProperty_exhausted hn
  | case3 scan pull property hn more =>
    rename_i ih
    dsimp only at h ⊢
    cases hm : more.result with
    | error flaw =>
      rw [hm] at h
      cases h
    | ok others => exact ih hm

/-! The rule is found once. -/

theorem finish_stage (notices : List Notice) (steps : List Step) :
    (scan.finish notices steps).next.stage = scan.stage := by
  rw [finish_eq]
  rfl

theorem declare_stage (kind : Kind) (element : Element) (depth : Nat) (rest : List Step) :
    (scan.declare kind element depth rest).next.stage = scan.stage := by
  by_cases hk : kind = .enum
  · subst hk
    rw [declare_enum]
    rfl
  · rw [declare_of_ne_enum scan hk]
    rfl

theorem advance_stage (hs : scan.stage ≠ .seeking) (depth : Nat) (steps : List Step) :
    (scan.advance depth steps).next.stage ≠ .seeking := by
  induction steps with
  | nil =>
    rw [advance]
    split
    · exact hs
    · exact Stage.noConfusion
  | cons step rest ih =>
    rw [advance]
    split
    · exact hs
    · split
      · rw [declare_stage]
        exact hs
      · exact ih
    · split
      · exact hs
      · exact ih
    · split
      · rw [finish_stage]
        exact Stage.noConfusion
      · exact ih
    · exact ih

theorem nextProperty_stage :
    scan.nextProperty.next.stage = .seeking ↔ scan.stage = .seeking := by
  unfold nextProperty
  split
  · next hs =>
    have hn : scan.stage ≠ .seeking := by rw [hs]; exact Stage.noConfusion
    exact iff_of_false (advance_stage hn _ _) hn
  · rw [finish_stage]
  · rw [finish_stage]

theorem seek_stage (steps : List Step) :
    match (scan.seek steps).result with
    | .error _ => (scan.seek steps).next.stage = scan.stage
    | .ok none => True
    | .ok (some _) => (scan.seek steps).next.stage ≠ .seeking := by
  induction steps with
  | nil =>
    rw [seek]
    cases scan.atEnd with
    | error flaw => rfl
    | ok _ => trivial
  | cons step rest ih =>
    rw [seek]
    cases step.outcome with
    | error flaw => rfl
    | ok node =>
      rcases node with _ | ⟨element⟩ | ⟨element⟩ | _
      · exact ih
      · dsimp only
        cases Rule.ofElement? element with
        | none => exact ih
        | some rule => exact Stage.noConfusion
      · dsimp only
        cases Rule.ofElement? element with
        | none => exact ih
        | some rule => cases scan.scope <;> exact Stage.noConfusion
      · exact ih

/-- Whether the search for the rule goes on is told by what it comes to. -/
theorem findRule_stage (hs : scan.stage = .seeking) :
    match scan.findRule.result with
    | .error _ => scan.findRule.next.stage = .seeking
    | .ok none => scan.findRule.next.Exhausted
    | .ok (some _) => scan.findRule.next.stage ≠ .seeking := by
  have he := @findRule_exhausted scan hs
  have hf := @seek_stage scan scan.rest.steps
  rw [findRule, hs] at he ⊢
  dsimp only at he ⊢
  rw [hs] at hf
  generalize scan.seek scan.rest.steps = pull at he hf ⊢
  obtain ⟨result, notices, next⟩ := pull
  rcases result with flaw | _ | rule
  · exact hf
  · exact he rfl
  · exact hf

theorem allProperties_stage (hs : scan.stage ≠ .seeking) :
    scan.allProperties.next.stage ≠ .seeking := by
  fun_induction allProperties scan with
  | case1 | case2 => exact mt nextProperty_stage.1 hs
  | case3 =>
    rename_i ih
    exact ih (mt nextProperty_stage.1 hs)

theorem findRule_of_found (h : scan.stage ≠ .seeking) : scan.findRule = ⟨.ok none, [], scan⟩ := by
  rw [findRule]
  split
  · exact absurd ‹_› h
  · rfl
  · rfl

theorem schema_next_of_not_found (h : ∀ rule, scan.findRule.result ≠ .ok (some rule)) :
    scan.schema.next = scan.findRule.next := by
  rw [schema]
  split
  · rfl
  · rfl
  · next hr => exact absurd hr (h _)

theorem schema_next_of_rule {rule : Rule} (h : scan.findRule.result = .ok (some rule)) :
    scan.schema.next = scan.findRule.next.allProperties.next := by
  simp only [schema, h]

/-! Behind the end of the document there is nothing. -/

namespace Exhausted

variable (h : scan.Exhausted)

include h

theorem findRule : scan.findRule.result = .ok none ∧ scan.findRule.next.Exhausted := by
  by_cases hs : scan.stage = .seeking
  · have hr : scan.findRule.result = .ok none := by
      rw [Scan.findRule, hs, h.steps]
      dsimp only
      rw [seek, h.atEnd]
    exact ⟨hr, findRule_exhausted hs hr⟩
  · rw [findRule_of_found hs]
    exact ⟨rfl, h⟩

theorem nextProperty : scan.nextProperty.result = .ok none ∧ scan.nextProperty.next.Exhausted := by
  have hf : ∀ notices, (scan.finish notices []).result = .ok none := fun notices => by
    rw [finish_eq, drain, h.atEnd]
    rfl
  have hr : scan.nextProperty.result = .ok none := by
    rw [Scan.nextProperty, h.steps]
    split
    · rw [advance, h.atEnd]
    · exact hf []
    · exact hf []
  exact ⟨hr, nextProperty_exhausted hr⟩

theorem schema : scan.schema.result = .ok none ∧ scan.schema.next.Exhausted := by
  obtain ⟨hr, he⟩ := h.findRule
  rw [schema_next_of_not_found (by simp [hr])]
  exact ⟨schema_of_none hr, he⟩

end Exhausted

end Scan

end ToolSwitch.Schema
