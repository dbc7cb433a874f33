import ToolSwitch.Schema.Scan

/-!
A scan that is read to its end: what it still yields, and what reading on comes to.
-/

namespace ToolSwitch.Schema

open ToolSwitch.Markup

/-- What reading the rest of the document comes to. -/
def Scan.verdict (scan : Scan) : Except Flaw Unit :=
  (scan.drain scan.rest.steps).1

/-- What a pull comes to, together with all there is behind it if it has found something. -/
def Pull.verdict {α : Type} (pull : Pull (Option α)) : Except Flaw Unit :=
  pull.result.bind fun
    | none => .ok ()
    | some _ => pull.next.verdict

namespace Scan

theorem drain_congr {scan other : Scan} (h : scan.rest.ending = other.rest.ending)
    (steps : List Step) : scan.drain steps = other.drain steps := by
  induction steps with
  | nil => simp only [drain, atEnd, h]
  | cons step rest ih => simp only [drain, ih]

theorem drain_eq_ok {scan : Scan} {steps : List Step} :
    (scan.drain steps).1 = .ok () ↔
      (∀ step ∈ steps, ∃ node, step.outcome = .ok node) ∧ scan.rest.ending = none := by
  induction steps with
  | nil => cases h : scan.rest.ending <;> simp [drain, atEnd, h]
  | cons step rest ih =>
    rw [drain, List.forall_mem_cons, and_assoc, ← ih]
    cases step.outcome <;> simp

theorem drain_found {α : Type} (scan : Scan) (steps : List Step) (found : α)
    (notices : List Notice) (stage : Stage) :
    (scan.drain steps).1 =
      (Pull.mk (.ok (some found)) notices { scan.behind steps with stage }).verdict :=
  congrArg Prod.fst (drain_congr (by rfl) steps)

/-- Reading on behind choices meets what reading on in front of them meets. -/
theorem drain_choices (scan : Scan) (depth : Nat) (steps : List Step) :
    (scan.drain steps).1 =
      (scan.choices depth steps).1.bind fun _ =>
        (scan.drain (scan.choices depth steps).2).1 := by
  induction steps with
  | nil => cases h : scan.atEnd <;> simp [drain, choices, h, Functor.map, Except.map, Except.bind]
  | cons step rest ih =>
    rw [drain, choices]
    cases ho : step.outcome with
    | error flaw => rfl
    | ok node =>
      cases node with
      | none => exact ih
      | some node =>
        cases node with
        | closed =>
          dsimp only
          split
          · rfl
          · exact ih
        | opened element | empty element =>
          dsimp only
          split
          · rw [ih]
            cases (scan.choices depth rest).1 <;> rfl
          · exact ih

theorem declare_enum (scan : Scan) (element : Element) (depth : Nat) (rest : List Step) :
    scan.declare .enum element depth rest =
      ⟨(some ∘ Property.ofElement .enum element) <$> (scan.choices depth rest).1,
        [.dispatching .enum (.ofElement element)], scan.behind (scan.choices depth rest).2⟩ :=
  rfl

theorem declare_of_ne_enum (scan : Scan) {kind : Kind} (hk : kind ≠ .enum) (element : Element)
    (depth : Nat) (rest : List Step) :
    scan.declare kind element depth rest =
      ⟨.ok (some (.ofElement kind element [])), [.dispatching kind (.ofElement element)],
        scan.behind rest⟩ := by
  cases kind <;> first | rfl | exact absurd rfl hk

theorem finish_eq (scan : Scan) (notices : List Notice) (steps : List Step) :
    scan.finish notices steps =
      ⟨(fun _ => none) <$> (scan.drain steps).1, notices, scan.behind (scan.drain steps).2⟩ :=
  rfl

theorem drain_declare (scan : Scan) (kind : Kind) (element : Element) (depth : Nat)
    (rest : List Step) :
    (scan.drain rest).1 = (scan.declare kind element depth rest).verdict := by
  by_cases hk : kind = .enum
  · subst hk
    rw [drain_choices scan depth rest, declare_enum]
    cases (scan.choices depth rest).1 with
    | error flaw => rfl
    | ok found => exact drain_found scan _ _ _ scan.stage
  · rw [declare_of_ne_enum scan hk]
    exact drain_found scan _ _ _ scan.stage

theorem drain_finish (scan : Scan) (notices : List Notice) (steps : List Step) :
    (scan.drain steps).1 = (scan.finish notices steps).verdict := by
  rw [finish_eq]
  cases (scan.drain steps).1 <;> rfl

theorem drain_advance (scan : Scan) (depth : Nat) (steps : List Step) :
    (scan.drain steps).1 = (scan.advance depth steps).verdict := by
  induction steps with
  | nil =>
    rw [drain, advance]
    cases scan.atEnd <;> rfl
  | cons step rest ih =>
    rw [drain, advance]
    cases ho : step.outcome with
    | error flaw => rfl
    | ok node =>
      cases node with
      | none => exact ih
      | some node =>
        cases node with
        | closed =>
          dsimp only
          split
          · rw [← drain_finish]
            exact congrArg Prod.fst (drain_congr (by rfl) rest)
          · exact ih
        | opened element =>
          dsimp only
          split
          · exact drain_declare ..
          · exact ih
        | empty element =>
          dsimp only
          split
          · exact drain_found scan ..
          · exact ih

theorem verdict_nextProperty (scan : Scan) : scan.verdict = scan.nextProperty.verdict := by
  unfold nextProperty
  split
  · exact drain_advance ..
  · exact drain_finish ..
  · exact drain_finish ..

theorem drain_seek (scan : Scan) (steps : List Step) :
    (scan.drain steps).1 = (scan.seek steps).verdict := by
  induction steps with
  | nil =>
    rw [drain, seek]
    cases scan.atEnd <;> rfl
  | cons step rest ih =>
    rw [drain, seek]
    cases ho : step.outcome with
    | error flaw => rfl
    | ok node =>
      cases node with
      | none => exact ih
      | some node =>
        cases node with
        | closed => exact ih
        | opened element | empty element =>
          dsimp only
          split
          · exact drain_found scan ..
          · exact ih

theorem verdict_findRule {scan : Scan} (h : scan.stage = .seeking) :
    scan.verdict = scan.findRule.verdict := by
  rw [findRule, h]
  exact drain_seek ..

/-- The properties that a scan still yields, and what it comes to behind the last of them. -/
def yields (scan : Scan) : List Property × Except Flaw Unit :=
  match _h : scan.nextProperty.result with
  | .error flaw => ([], .error flaw)
  | .ok none => ([], .ok ())
  | .ok (some property) => (property :: scan.nextProperty.next.yields.1,
      scan.nextProperty.next.yields.2)
termination_by scan.rest.steps.length
decreasing_by all_goals exact nextProperty_length _h

theorem yields_of_none {scan : Scan} (h : scan.nextProperty.result = .ok none) :
    scan.yields = ([], .ok ()) := by
  rw [yields]
  split <;> simp_all

theorem yields_of_some {scan : Scan} {property : Property}
    (h : scan.nextProperty.result = .ok (some property)) :
    scan.yields =
      (property :: scan.nextProperty.next.yields.1, scan.nextProperty.next.yields.2) := by
  rw [yields]
  split <;> simp_all

theorem yields_verdict (scan : Scan) : scan.yields.2 = scan.verdict := by
  fun_induction yields scan with
  | case1 scan flaw h => rw [verdict_nextProperty, Pull.verdict, h]; rfl
  | case2 scan h => rw [verdict_nextProperty, Pull.verdict, h]; rfl
  | case3 scan property h ih => rw [verdict_nextProperty, Pull.verdict, h]; exact ih

theorem allProperties_result (scan : Scan) :
    scan.allProperties.result = scan.yields.2.map fun _ => scan.yields.1 := by
  fun_induction yields scan with
  | case1 scan flaw h =>
    rw [allProperties]
    split <;> simp_all [Except.map]
  | case2 scan h =>
    rw [allProperties]
    split <;> simp_all [Except.map]
  | case3 scan property h ih =>
    rw [allProperties]
    split
    · simp_all
    · simp_all
    · next found hf =>
      obtain rfl : property = found := by simpa [h] using hf
      dsimp only
      rw [ih]
      cases scan.nextProperty.next.yields.2 <;> rfl

theorem schema_of_error {scan : Scan} {flaw : Flaw} (h : scan.findRule.result = .error flaw) :
    scan.schema.result = .error flaw := by
  simp [schema, h]

theorem schema_of_none {scan : Scan} (h : scan.findRule.result = .ok none) :
    scan.schema.result = .ok none := by
  simp [schema, h]

theorem schema_of_rule {scan : Scan} {rule : Rule} (h : scan.findRule.result = .ok (some rule)) :
    scan.schema.result =
      scan.findRule.next.yields.2.map fun _ => some ⟨rule, scan.findRule.next.yields.1⟩ := by
  simp only [schema, h, allProperties_result]
  cases scan.findRule.next.yields.2 <;> rfl

/-- A schema is refused for the very flaw that reading the document to its end meets. -/
theorem schema_verdict {scan : Scan} (h : scan.stage = .seeking) :
    (scan.schema.result.map fun _ => ()) = scan.verdict := by
  rw [verdict_findRule h, Pull.verdict]
  cases hr : scan.findRule.result with
  | error flaw => rw [schema_of_error hr]; rfl
  | ok found =>
    cases found with
    | none => rw [schema_of_none hr]; rfl
    | some rule =>
      rw [schema_of_rule hr]
      change _ = scan.findRule.next.verdict
      rw [← yields_verdict]
      cases scan.findRule.next.yields.2 <;> rfl

/-- Asking for one property after the other gives all there are and then the flaw. -/
theorem serveAll_property {scan : Scan} {flaw : Flaw} (h : scan.yields.2 = .error flaw) :
    scan.serveAll (List.replicate (scan.yields.1.length + 1) .property) =
      (scan.yields.1.map fun property => .ok (.property (some property))) ++ [.error flaw] := by
  fun_induction yields scan with
  | case1 scan flaw' hf =>
    obtain rfl : flaw' = flaw := by simpa using h
    simp only [List.length_nil, Nat.zero_add, List.replicate_one, List.map_nil, List.nil_append,
      serveAll, serve, Pull.map, hf]
    rfl
  | case2 scan hf => simp at h
  | case3 scan property hf ih =>
    rw [List.length_cons, List.replicate_succ, serveAll, List.map_cons, List.cons_append]
    congr 1
    · simp only [serve, Pull.map, hf]
      rfl
    · exact ih h

end Scan

end ToolSwitch.Schema
