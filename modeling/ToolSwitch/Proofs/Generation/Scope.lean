import ToolSwitch.Proofs.Generation.Blocks

/-!
The two scopes side by side.  They check a document alike, and what is generated inside the rule is
the beginning of what is generated for the whole document.
-/

namespace ToolSwitch

open ToolSwitch.Text ToolSwitch.Markup ToolSwitch.Schema

namespace Schema.Scan

theorem choices_congr {scan other : Scan} (h : scan.rest.ending = other.rest.ending) (depth : Nat)
    (steps : List Step) : scan.choices depth steps = other.choices depth steps := by
  induction steps with
  | nil => simp only [choices, atEnd, h]
  | cons step rest ih => simp only [choices, ih]

/-- One scan looks for properties inside the rule where the other looks for them to the end. -/
structure Narrows (narrow wide : Scan) : Prop where
  wide_scope : wide.scope = .document
  rest : narrow.rest = wide.rest
  stage : narrow.stage = .finished ∨
    ∃ depth, narrow.stage = .scanning depth ∧ wide.stage = .scanning depth

/-- Where the narrow scan finds a property the wide one finds the same, and both go on alike. -/
theorem advance_narrows {narrow wide : Scan} (hw : wide.scope = .document)
    (hr : narrow.rest = wide.rest) {depth : Nat} {steps : List Step} {property : Property}
    (h : (narrow.advance depth steps).result = .ok (some property)) :
    ∃ rest, (narrow.advance depth steps).next = narrow.behind rest ∧
      (wide.advance depth steps).result = .ok (some property) ∧
      (wide.advance depth steps).next = wide.behind rest := by
  induction steps with
  | nil =>
    rw [advance] at h
    split at h <;> cases h
  | cons step rest ih =>
    rw [advance] at h ⊢
    rw [advance]
    cases ho : step.outcome with
    | error flaw =>
      rw [ho] at h
      cases h
    | ok node =>
      rw [ho] at h
      rcases node with _ | ⟨element⟩ | ⟨element⟩ | _
      · exact ih h
      · dsimp only at h ⊢
        cases hk : Kind.ofTag? element.name with
        | none =>
          rw [hk] at h
          exact ih h
        | some kind =>
          rw [hk] at h
          dsimp only at h ⊢
          by_cases hn : kind = .enum
          · subst hn
            rw [declare_enum] at h ⊢
            rw [declare_enum, ← choices_congr (congrArg Document.ending hr)]
            exact ⟨_, rfl, h, rfl⟩
          · rw [declare_of_ne_enum _ hn] at h ⊢
            rw [declare_of_ne_enum _ hn]
            exact ⟨_, rfl, h, rfl⟩
      · dsimp only at h ⊢
        cases hk : Kind.ofTag? element.name with
        | none =>
          rw [hk] at h
          exact ih h
        | some kind =>
          rw [hk] at h
          exact ⟨_, rfl, h, rfl⟩
      · dsimp only at h ⊢
        split at h
        · exact absurd h (finish_ne_some _ _ _ _)
        · next hs =>
          rw [if_neg hs, if_neg (by simp [hw])]
          exact ih h

theorem nextProperty_narrows {narrow wide : Scan} (hn : Narrows narrow wide) {property : Property}
    (h : narrow.nextProperty.result = .ok (some property)) :
    wide.nextProperty.result = .ok (some property) ∧
      Narrows narrow.nextProperty.next wide.nextProperty.next := by
  obtain ⟨hw, hr, hs | ⟨depth, hs, hs'⟩⟩ := hn
  · rw [nextProperty, hs] at h
    exact absurd h (finish_ne_some _ _ _ _)
  · simp only [nextProperty, hs, hs'] at h ⊢
    obtain ⟨rest, he, hp, he'⟩ := advance_narrows hw hr h
    rw [← hr, he, hp, he']
    exact ⟨rfl, hw, by simp only [behind, hr], .inr ⟨depth, hs, hs'⟩⟩

theorem yields_narrows {narrow wide : Scan} (hn : Narrows narrow wide) :
    narrow.yields.1 <+: wide.yields.1 := by
  fun_induction yields narrow generalizing wide with
  | case1 | case2 => exact List.nil_prefix
  | case3 narrow property h ih =>
    obtain ⟨hp, hn'⟩ := nextProperty_narrows hn h
    rw [yields_of_some hp, List.prefix_cons_inj]
    exact ih hn'

theorem seek_narrows {narrow wide : Scan} (hw : wide.scope = .document)
    (hr : narrow.rest = wide.rest) (steps : List Step) :
    (narrow.seek steps).result = (wide.seek steps).result ∧
      ∀ rule, (narrow.seek steps).result = .ok (some rule) →
        Narrows (narrow.seek steps).next (wide.seek steps).next := by
  induction steps with
  | nil =>
    have he : narrow.atEnd = wide.atEnd := by rw [atEnd, atEnd, hr]
    simp only [seek, he]
    cases wide.atEnd <;> simp
  | cons step rest ih =>
    rw [seek, seek]
    cases ho : step.outcome with
    | error flaw => simp
    | ok node =>
      rcases node with _ | ⟨element⟩ | ⟨element⟩ | _
      · exact ih
      · dsimp only
        cases Rule.ofElement? element with
        | none => exact ih
        | some rule =>
          exact ⟨rfl, fun _ _ => ⟨hw, by simp only [behind, hr], .inr ⟨_, rfl, rfl⟩⟩⟩
      · dsimp only
        cases Rule.ofElement? element with
        | none => exact ih
        | some rule =>
          refine ⟨rfl, fun _ _ => ⟨hw, by simp only [behind, hr], ?_⟩⟩
          rw [hw]
          cases narrow.scope with
          | document => exact .inr ⟨_, rfl, rfl⟩
          | rule => exact .inl rfl
      · exact ih

theorem findRule_narrows (document : Document) :
    (start .rule document).findRule.result = (start .document document).findRule.result ∧
      ∀ rule, (start .rule document).findRule.result = .ok (some rule) →
        Narrows (start .rule document).findRule.next (start .document document).findRule.next :=
  @seek_narrows (start .rule document) (start .document document) rfl rfl document.steps

end Schema.Scan

namespace Generation

/-- Neither scope passes over a flaw: both refuse just the documents that a bare reading refuses,
for the same flaw, and the narrow one writes the beginning of what the wide one writes. -/
theorem scopes_check_alike (bytes : Bytes) :
    (∀ scope fresh flaw,
      (Scan.start scope (.read bytes)).schema.result = .error flaw ↔
        (Scan.start fresh (.read bytes)).verdict = .error flaw) ∧
    ∀ getters origin, ∃ more,
      (ofBytes ⟨.document, getters⟩ origin bytes).output =
        (ofBytes ⟨.rule, getters⟩ origin bytes).output ++ more := by
  constructor
  · intro scope fresh flaw
    have hv : (Scan.start fresh (.read bytes)).verdict =
        (Scan.start scope (.read bytes)).verdict :=
      congrArg Prod.fst (Scan.drain_congr (by rfl) _)
    rw [hv, ← Scan.schema_verdict rfl]
    cases (Scan.start scope (.read bytes)).schema.result <;> simp [Except.map]
  · intro getters origin
    rw [ofBytes_output, ofBytes_output]
    generalize Document.read bytes = document
    obtain ⟨hf, hn⟩ := Scan.findRule_narrows document
    cases hr : (Scan.start .rule document).findRule.result with
    | error flaw =>
      rw [(@ofDocument_of_error ⟨.rule, getters⟩ document flaw hr).1]
      exact ⟨_, (String.empty_append).symm⟩
    | ok found =>
      cases found with
      | none =>
        rw [(@ofDocument_of_none ⟨.rule, getters⟩ document hr).1]
        exact ⟨_, (String.empty_append).symm⟩
      | some rule =>
        obtain ⟨more, hm⟩ := Scan.yields_narrows (hn rule hr)
        obtain ⟨hnarrow, -⟩ := @ofDocument_of_rule ⟨.rule, getters⟩ document rule hr
        obtain ⟨hwide, -⟩ := @ofDocument_of_rule ⟨.document, getters⟩ document rule (hf ▸ hr)
        refine ⟨Accessor.renderAll getters rule.lead more, ?_⟩
        rw [hnarrow, hwide, ← Accessor.renderAll_append, hm]

end Generation

end ToolSwitch
