import ToolSwitch.Proofs.Schema.Stages

/-!
One reader asked again and again, in any order and also behind requests that failed.  Main
statement: the rule is given once and before any property, unless it is lost with a schema that is
refused, and as long as nothing fails the properties come as they would if one asked for the rule
and then for one property after the other.
-/

namespace ToolSwitch.Schema

open ToolSwitch.Markup ToolSwitch.Text

namespace Scan

/-- A request and what came of it. -/
structure Call where
  request : Request
  answer : Except Flaw Answer

namespace Call

/-- The rule that is given, by itself or with its schema. -/
def rule? (call : Call) : Option Rule :=
  match call.answer with
  | .ok (.rule rule) => rule
  | .ok (.schema schema) => schema.map RuleSchema.rule
  | .ok (.property _) | .error _ => none

def properties (call : Call) : List Property :=
  match call.answer with
  | .ok (.property property) => property.toList
  | .ok (.schema schema) => schema.elim [] RuleSchema.properties
  | .ok (.rule _) | .error _ => []

def Fails (call : Call) : Prop :=
  ∃ flaw, call.answer = .error flaw

/-- Whether the answer is that there is nothing. -/
def Empty (call : Call) : Prop :=
  call.answer = .ok (.rule none) ∨ call.answer = .ok (.property none) ∨
    call.answer = .ok (.schema none)

theorem Empty.rule? {call : Call} (h : call.Empty) : call.rule? = none := by
  obtain h | h | h := h <;> simp [Call.rule?, h]

theorem Empty.properties {call : Call} (h : call.Empty) : call.properties = [] := by
  obtain h | h | h := h <;> simp [Call.properties, h]

end Call

variable {scan : Scan}

def call (scan : Scan) (request : Request) : Call :=
  ⟨request, (scan.serve request).result⟩

def calls (scan : Scan) (requests : List Request) : List Call :=
  List.zipWith Call.mk requests (scan.serveAll requests)

theorem calls_cons (scan : Scan) (request : Request) (rest : List Request) :
    scan.calls (request :: rest) = scan.call request :: (scan.serve request).next.calls rest :=
  rfl

/-- The scan behind requests. -/
def after (scan : Scan) : List Request → Scan
  | [] => scan
  | request :: rest => (scan.serve request).next.after rest

theorem map_request_calls (scan : Scan) (requests : List Request) :
    (scan.calls requests).map Call.request = requests := by
  induction requests generalizing scan with
  | nil => rfl
  | cons request rest ih => rw [calls_cons, List.map_cons, ih, call]

theorem calls_append (scan : Scan) (requests more : List Request) :
    scan.calls (requests ++ more) = scan.calls requests ++ (scan.after requests).calls more := by
  induction requests generalizing scan with
  | nil => rfl
  | cons request rest ih =>
    rw [List.cons_append, calls_cons, calls_cons, List.cons_append, ih, after]

/-- Among requests there is one for the schema that finds the rule and fails behind it, so that the
rule is never given. -/
def LosesRule (scan : Scan) (requests : List Request) : Prop :=
  ∃ before rest rule, requests = before ++ .schema :: rest ∧
    (scan.after before).findRule.result = .ok (some rule) ∧
    ((scan.after before).call .schema).Fails

theorem LosesRule.append {requests : List Request} (h : scan.LosesRule requests)
    (more : List Request) : scan.LosesRule (requests ++ more) := by
  obtain ⟨before, rest, rule, rfl, hr, hf⟩ := h
  exact ⟨before, rest ++ more, rule, List.append_assoc .., hr, hf⟩

theorem LosesRule.cons {request : Request} {requests : List Request}
    (h : (scan.serve request).next.LosesRule requests) : scan.LosesRule (request :: requests) := by
  obtain ⟨before, rest, rule, rfl, hr, hf⟩ := h
  exact ⟨request :: before, rest, rule, rfl, hr, hf⟩

theorem LosesRule.fails {requests : List Request} (h : scan.LosesRule requests) :
    ∃ call ∈ scan.calls requests, call.Fails := by
  obtain ⟨before, rest, rule, rfl, -, hf⟩ := h
  rw [calls_append]
  exact ⟨_, List.mem_append_right _ List.mem_cons_self, hf⟩

theorem calls_eq_append {requests : List Request} {done later : List Call}
    (h : scan.calls requests = done ++ later) :
    ∃ before rest, done = scan.calls before ∧ later = (scan.after before).calls rest := by
  induction done generalizing scan requests with
  | nil => exact ⟨[], requests, rfl, h.symm⟩
  | cons first others ih =>
    cases requests with
    | nil => cases h
    | cons request requests =>
      rw [calls_cons, List.cons_append, List.cons.injEq] at h
      obtain ⟨rfl, h⟩ := h
      obtain ⟨before, rest, rfl, hl⟩ := ih h
      exact ⟨request :: before, rest, rfl, hl⟩

theorem calls_eq_append_cons {requests : List Request} {done later : List Call} {call : Call}
    (h : scan.calls requests = done ++ call :: later) :
    ∃ before request rest, done = scan.calls before ∧ call = (scan.after before).call request ∧
      later = ((scan.after before).serve request).next.calls rest := by
  obtain ⟨before, rest, hd, hl⟩ := calls_eq_append h
  cases rest with
  | nil => cases hl
  | cons request rest =>
    rw [calls_cons, List.cons.injEq] at hl
    exact ⟨before, request, rest, hd, hl⟩

/-! What one request does. -/

theorem serve_exhausted (h : scan.Exhausted) (request : Request) :
    (scan.call request).Empty ∧ (scan.serve request).next.Exhausted := by
  cases request with
  | rule =>
    refine ⟨.inl ?_, h.findRule.2⟩
    rw [call, serve, Pull.map, h.findRule.1]
    rfl
  | property =>
    refine ⟨.inr (.inl ?_), h.nextProperty.2⟩
    rw [call, serve, Pull.map, h.nextProperty.1]
    rfl
  | schema =>
    refine ⟨.inr (.inr ?_), h.schema.2⟩
    rw [call, serve, Pull.map, h.schema.1]
    rfl

/-- Behind the rule, asking for it or for the schema does nothing. -/
theorem serve_rule_of_found (h : scan.stage ≠ .seeking) :
    scan.call .rule = ⟨.rule, .ok (.rule none)⟩ ∧ (scan.serve .rule).next = scan := by
  rw [call, serve, findRule_of_found h]
  exact ⟨rfl, rfl⟩

theorem serve_schema_of_found (h : scan.stage ≠ .seeking) :
    scan.call .schema = ⟨.schema, .ok (.schema none)⟩ ∧ (scan.serve .schema).next = scan := by
  have hf := findRule_of_found h
  have hr : scan.schema.result = .ok none := schema_of_none (by rw [hf])
  have hn : scan.schema.next = scan := by
    rw [schema_next_of_not_found (by simp [hf]), hf]
  rw [call, serve, Pull.map, hr]
  exact ⟨rfl, hn⟩

theorem call_property_rule? : (scan.call .property).rule? = none := by
  rw [call, serve, Pull.map, Call.rule?]
  cases scan.nextProperty.result <;> rfl

theorem serve_of_found (h : scan.stage ≠ .seeking) (request : Request) :
    (scan.call request).rule? = none ∧ (scan.serve request).next.stage ≠ .seeking := by
  cases request with
  | rule =>
    obtain ⟨hc, hn⟩ := serve_rule_of_found h
    rw [hc, hn]
    exact ⟨rfl, h⟩
  | property => exact ⟨call_property_rule?, mt nextProperty_stage.1 h⟩
  | schema =>
    obtain ⟨hc, hn⟩ := serve_schema_of_found h
    rw [hc, hn]
    exact ⟨rfl, h⟩

/-- While the rule is looked for, no property is given without it. -/
theorem call_of_seeking (h : scan.stage = .seeking) (request : Request)
    (hr : (scan.call request).rule? = none) : (scan.call request).properties = [] := by
  rw [call, Call.rule?] at hr
  rw [call, Call.properties]
  cases request with
  | rule =>
    rw [serve, Pull.map]
    cases scan.findRule.result <;> rfl
  | property =>
    rw [serve, Pull.map, nextProperty, h]
    dsimp only
    rw [finish_eq]
    cases (scan.drain scan.rest.steps).1 <;> rfl
  | schema =>
    rw [serve, Pull.map] at hr ⊢
    rcases hs : scan.schema.result with flaw | _ | schema
    · rfl
    · rfl
    · rw [hs] at hr
      cases hr

/-- The search for the rule goes on unless the rule is given, or lost with a schema that is refused,
or there is none. -/
theorem serve_of_seeking (h : scan.stage = .seeking) (request : Request) :
    (scan.call request).rule? = none ∧ (scan.serve request).next.stage = .seeking ∨
      (scan.serve request).next.stage ≠ .seeking ∧ (scan.call request).rule? ≠ none ∨
      scan.LosesRule [request] ∨
      (scan.call request).Empty ∧ (scan.serve request).next.Exhausted := by
  have hs := findRule_stage h
  cases request with
  | rule =>
    rw [call, serve, Pull.map, Call.rule?, Call.Empty]
    rcases hr : scan.findRule.result with flaw | _ | rule <;> rw [hr] at hs
    · exact .inl ⟨rfl, hs⟩
    · exact .inr (.inr (.inr ⟨.inl rfl, hs⟩))
    · exact .inr (.inl ⟨hs, Option.some_ne_none _⟩)
  | property => exact .inl ⟨call_property_rule?, nextProperty_stage.2 h⟩
  | schema =>
    rcases hr : scan.findRule.result with flaw | _ | rule <;> rw [hr] at hs
    · rw [call, serve, Pull.map, Call.rule?, schema_of_error hr,
        schema_next_of_not_found (by simp [hr])]
      exact .inl ⟨rfl, hs⟩
    · rw [call, serve, Pull.map, Call.Empty, schema_of_none hr,
        schema_next_of_not_found (by simp [hr])]
      exact .inr (.inr (.inr ⟨.inr (.inr rfl), hs⟩))
    · cases hy : scan.findRule.next.yields.2 with
      | error flaw =>
        refine .inr (.inr (.inl ⟨[], [], rule, rfl, hr, flaw, ?_⟩))
        rw [after, call, serve, Pull.map, schema_of_rule hr, hy]
        rfl
      | ok _ =>
        rw [call, serve, Pull.map, Call.rule?, schema_of_rule hr, schema_next_of_rule hr, hy]
        exact .inr (.inl ⟨allProperties_stage hs, Option.some_ne_none _⟩)

theorem LosesRule.rule? {request : Request} (h : scan.LosesRule [request]) :
    (scan.call request).rule? = none := by
  obtain ⟨call, hm, flaw, hf⟩ := h.fails
  have hc : call = scan.call request := List.mem_singleton.1 hm
  rw [← hc, Call.rule?, hf]

/-! What a run of requests does. -/

theorem calls_exhausted (h : scan.Exhausted) (requests : List Request) :
    ∀ call ∈ scan.calls requests, call.Empty := by
  induction requests generalizing scan with
  | nil => exact nofun
  | cons request rest ih =>
    obtain ⟨hc, hn⟩ := serve_exhausted h request
    exact List.forall_mem_cons.2 ⟨hc, ih hn⟩

theorem properties_exhausted (h : scan.Exhausted) (requests : List Request) :
    (scan.calls requests).flatMap Call.properties = [] :=
  List.flatMap_eq_nil_iff.2 fun call hc => (calls_exhausted h requests call hc).properties

theorem after_exhausted (h : scan.Exhausted) (requests : List Request) :
    (scan.after requests).Exhausted := by
  induction requests generalizing scan with
  | nil => exact h
  | cons request rest ih => exact ih (serve_exhausted h request).2

theorem calls_of_found (h : scan.stage ≠ .seeking) (requests : List Request) :
    (∀ call ∈ scan.calls requests, call.rule? = none) ∧
      (scan.after requests).stage ≠ .seeking := by
  induction requests generalizing scan with
  | nil => exact ⟨nofun, h⟩
  | cons request rest ih =>
    obtain ⟨hc, hn⟩ := serve_of_found h request
    exact ⟨List.forall_mem_cons.2 ⟨hc, (ih hn).1⟩, (ih hn).2⟩

theorem rules_length_le_one (scan : Scan) (requests : List Request) :
    ((scan.calls requests).filterMap Call.rule?).length ≤ 1 := by
  induction requests generalizing scan with
  | nil => exact Nat.zero_le _
  | cons request rest ih =>
    rw [calls_cons]
    cases hr : (scan.call request).rule? with
    | none =>
      rw [List.filterMap_cons_none hr]
      exact ih _
    | some rule =>
      have hn : (scan.serve request).next.stage ≠ .seeking := by
        by_cases hs : scan.stage = .seeking
        · obtain ⟨hc, -⟩ | ⟨hn, -⟩ | hl | ⟨he, -⟩ := serve_of_seeking hs request
          · rw [hc] at hr
            cases hr
          · exact hn
          · rw [hl.rule?] at hr
            cases hr
          · rw [he.rule?] at hr
            cases hr
        · exact (serve_of_found hs request).2
      have hl : ((scan.serve request).next.calls rest).filterMap Call.rule? = [] :=
        List.filterMap_eq_nil_iff.2 (calls_of_found hn rest).1
      rw [List.filterMap_cons_some hr, hl]
      exact Nat.le_refl _

/-- As long as the rule is looked for, nothing has been given. -/
theorem calls_of_seeking {requests : List Request} (h : (scan.after requests).stage = .seeking) :
    ∀ call ∈ scan.calls requests, call.rule? = none ∧ call.properties = [] := by
  induction requests generalizing scan with
  | nil => exact nofun
  | cons request rest ih =>
    have hn : (scan.serve request).next.stage = .seeking :=
      Decidable.byContradiction fun hn => (calls_of_found hn rest).2 h
    have hs : scan.stage = .seeking :=
      Decidable.byContradiction fun hs => (serve_of_found hs request).2 hn
    have hc : (scan.call request).rule? = none := by
      obtain ⟨hc, -⟩ | ⟨hn', -⟩ | hl | ⟨he, -⟩ := serve_of_seeking hs request
      · exact hc
      · exact absurd hn hn'
      · exact hl.rule?
      · exact he.rule?
    exact List.forall_mem_cons.2 ⟨⟨hc, call_of_seeking hs request hc⟩, ih h⟩

/-- How the search for the rule can have ended. -/
theorem after_stage (hs : scan.stage = .seeking) (requests : List Request) :
    (scan.after requests).stage = .seeking ∨ (∃ call ∈ scan.calls requests, call.rule? ≠ none) ∨
      scan.LosesRule requests ∨ (scan.after requests).Exhausted := by
  induction requests generalizing scan with
  | nil => exact .inl hs
  | cons request rest ih =>
    rw [calls_cons, after]
    obtain ⟨-, hn⟩ | ⟨-, hr⟩ | hl | ⟨-, he⟩ := serve_of_seeking hs request
    · obtain h | ⟨call, hm, hr⟩ | hl | h := ih hn
      · exact .inl h
      · exact .inr (.inl ⟨call, List.mem_cons_of_mem _ hm, hr⟩)
      · exact .inr (.inr (.inl hl.cons))
      · exact .inr (.inr (.inr h))
    · exact .inr (.inl ⟨_, List.mem_cons_self, hr⟩)
    · exact .inr (.inr (.inl (hl.append rest)))
    · exact .inr (.inr (.inr (after_exhausted he rest)))

/-- Behind the rule, what is given without a failure begins what one request for a property after
the other gives. -/
theorem properties_of_found (h : scan.stage ≠ .seeking) {requests : List Request}
    (hf : ∀ call ∈ scan.calls requests, ¬ call.Fails) :
    (scan.calls requests).flatMap Call.properties <+: scan.yields.1 := by
  induction requests generalizing scan with
  | nil => exact List.nil_prefix
  | cons request rest ih =>
    rw [calls_cons] at hf ⊢
    obtain ⟨hc, hr⟩ := List.forall_mem_cons.1 hf
    rw [List.flatMap_cons]
    cases request with
    | rule =>
      obtain ⟨he, hn⟩ := serve_rule_of_found h
      rw [hn] at hr
      rw [he, hn]
      exact ih h hr
    | schema =>
      obtain ⟨he, hn⟩ := serve_schema_of_found h
      rw [hn] at hr
      rw [he, hn]
      exact ih h hr
    | property =>
      rw [call, serve, Pull.map, Call.Fails] at hc
      rw [call, serve, Pull.map, Call.properties]
      rw [serve, Pull.map] at hr
      rcases hp : scan.nextProperty.result with flaw | _ | property
      · exact absurd ⟨flaw, by rw [hp]; rfl⟩ hc
      · have he := nextProperty_exhausted hp
        exact (properties_exhausted he rest).symm ▸ List.nil_prefix
      · rw [yields_of_some hp]
        exact (List.prefix_cons_inj property).2 (ih (mt nextProperty_stage.1 h) hr)

theorem take_yields_calls (scan : Scan) (n : Nat) :
    scan.yields.1.take n <+:
      (scan.calls (List.replicate n .property)).flatMap Call.properties := by
  fun_induction yields scan generalizing n with
  | case1 | case2 => simp
  | case3 scan property hp ih =>
    cases n with
    | zero => simp
    | succ n =>
      rw [List.replicate_succ, calls_cons, List.flatMap_cons, call, serve, Pull.map,
        Call.properties, hp]
      exact (List.prefix_cons_inj property).2 (ih n)

theorem nextProperty_of_seeking (h : scan.stage = .seeking) (property : Property) :
    scan.nextProperty.result ≠ .ok (some property) := by
  rw [nextProperty, h]
  exact finish_ne_some _ _ _ _

/-- Without a failure, what is given begins what one request for the rule and then one for a
property after the other give. -/
theorem properties_of_seeking (h : scan.stage = .seeking) {requests : List Request}
    (hf : ∀ call ∈ scan.calls requests, ¬ call.Fails) :
    (scan.calls requests).flatMap Call.properties <+: scan.findRule.next.yields.1 := by
  cases requests with
  | nil => exact List.nil_prefix
  | cons request rest =>
    -- only the first request can be served before the rule is found or the document is over
    rw [calls_cons] at hf ⊢
    obtain ⟨hc, hr⟩ := List.forall_mem_cons.1 hf
    have hs := findRule_stage h
    rw [List.flatMap_cons]
    cases request with
    | rule =>
      rw [call, serve, Pull.map, Call.Fails] at hc
      rw [serve, Pull.map] at hr
      rw [call, serve, Pull.map, Call.properties]
      rcases hp : scan.findRule.result with flaw | _ | rule <;> rw [hp] at hs
      · exact absurd ⟨flaw, by rw [hp]; rfl⟩ hc
      · exact (properties_exhausted hs rest).symm ▸ List.nil_prefix
      · exact properties_of_found hs hr
    | property =>
      rw [call, serve, Pull.map, Call.Fails] at hc
      rw [call, serve, Pull.map, Call.properties]
      rcases hp : scan.nextProperty.result with flaw | _ | property
      · exact absurd ⟨flaw, by rw [hp]; rfl⟩ hc
      · have he := nextProperty_exhausted hp
        exact (properties_exhausted he rest).symm ▸ List.nil_prefix
      · exact absurd hp (nextProperty_of_seeking h property)
    | schema =>
      rw [call, serve, Pull.map, Call.Fails] at hc
      rw [call, serve, Pull.map, Call.properties]
      rcases hp : scan.findRule.result with flaw | _ | rule <;> rw [hp] at hs
      · exact absurd ⟨flaw, by rw [schema_of_error hp]; rfl⟩ hc
      · rw [schema_of_none hp, schema_next_of_not_found (by simp [hp]),
          properties_exhausted hs rest]
        exact List.nil_prefix
      · rw [schema_of_rule hp] at hc ⊢
        rw [schema_next_of_rule hp]
        have ha := allProperties_result scan.findRule.next
        cases hy : scan.findRule.next.yields.2 with
        | error flaw => exact absurd ⟨flaw, by rw [hy]; rfl⟩ hc
        | ok _ =>
          rw [hy] at ha
          rw [properties_exhausted (allProperties_exhausted ha) rest, List.append_nil]
          exact List.prefix_rfl

/-- What comes of the calls on a scan that is still to look for the rule. -/
structure Orderly (scan : Scan) (calls : List Call) : Prop where
  /-- The rule is given at most once. -/
  one_rule : (calls.filterMap Call.rule?).length ≤ 1
  /-- No property is given before the rule is. -/
  rule_first : ∀ done call later, calls = done ++ call :: later → call.rule? ≠ none →
    ∀ earlier ∈ done, earlier.properties = []
  /-- No property is given without the rule, unless the rule has been lost. -/
  rule_found : ∀ done call later, calls = done ++ call :: later → call.properties ≠ [] →
    (∃ earlier ∈ done ++ [call], earlier.rule? ≠ none) ∨ scan.LosesRule (done.map Call.request)
  /-- As long as nothing fails, properties come as they do when they are asked for in turn. -/
  in_order : ∀ done later, calls = done ++ later → (∀ call ∈ done, ¬ call.Fails) →
    ∀ n, (done.flatMap Call.properties).length ≤ n →
      done.flatMap Call.properties <+:
        (scan.calls (.rule :: List.replicate n .property)).flatMap Call.properties
  /-- There is nothing more where a request for a property found none, or was made too early. -/
  nothing_more : ∀ done call later, calls = done ++ call :: later → call.request = .property →
    (call.answer = .ok (.property none) ∨
      (∀ made ∈ done ++ [call], ¬ made.Fails) ∧ ∀ earlier ∈ done, earlier.rule? = none) →
    ∀ other ∈ later, other.Empty

section

variable {requests : List Request} {done later : List Call} {call : Call}

theorem rule_first (hs : scan.calls requests = done ++ call :: later) (hr : call.rule? ≠ none) :
    ∀ earlier ∈ done, earlier.properties = [] := by
  obtain ⟨before, request, rest, rfl, rfl, -⟩ := calls_eq_append_cons hs
  have ha : (scan.after before).stage = .seeking :=
    Decidable.byContradiction fun ha => hr (serve_of_found ha request).1
  exact fun earlier he => (calls_of_seeking ha earlier he).2

theorem rule_found (h : scan.stage = .seeking)
    (hs : scan.calls requests = done ++ call :: later) (hp : call.properties ≠ []) :
    (∃ earlier ∈ done ++ [call], earlier.rule? ≠ none) ∨
      scan.LosesRule (done.map Call.request) := by
  obtain ⟨before, request, rest, rfl, rfl, -⟩ := calls_eq_append_cons hs
  rw [map_request_calls]
  obtain ha | ⟨earlier, he, hr⟩ | hl | ha := after_stage h before
  · exact .inl ⟨_, List.mem_append_right _ List.mem_cons_self,
      fun hr => hp (call_of_seeking ha request hr)⟩
  · exact .inl ⟨earlier, List.mem_append_left _ he, hr⟩
  · exact .inr hl
  · exact absurd (serve_exhausted ha request).1.properties hp

theorem nothing_more (h : scan.stage = .seeking) (hs : scan.calls requests = done ++ call :: later)
    (hq : call.request = .property)
    (ho : call.answer = .ok (.property none) ∨
      (∀ made ∈ done ++ [call], ¬ made.Fails) ∧ ∀ earlier ∈ done, earlier.rule? = none) :
    ∀ other ∈ later, other.Empty := by
  obtain ⟨before, request, rest, rfl, rfl, rfl⟩ := calls_eq_append_cons hs
  obtain rfl : request = .property := hq
  have hn : ((scan.after before).serve .property).next.Exhausted := by
    obtain ho | ⟨hf, hr⟩ := ho
    · refine nextProperty_exhausted ?_
      rw [Scan.call, serve, Pull.map] at ho
      rcases hp : (scan.after before).nextProperty.result with flaw | _ | property
      · rw [hp] at ho
        cases ho
      · rfl
      · rw [hp] at ho
        cases ho
    · obtain ha | ⟨earlier, he, hr'⟩ | hl | ha := after_stage h before
      · refine nextProperty_exhausted ?_
        have hc := hf _ (List.mem_append_right _ List.mem_cons_self)
        rw [Scan.call, serve, Pull.map, Call.Fails] at hc
        rcases hp : (scan.after before).nextProperty.result with flaw | _ | property
        · exact absurd ⟨flaw, by rw [hp]; rfl⟩ hc
        · rfl
        · exact absurd hp (nextProperty_of_seeking ha property)
      · exact absurd (hr earlier he) hr'
      · obtain ⟨earlier, he, hf'⟩ := hl.fails
        exact absurd hf' (hf earlier (List.mem_append_left _ he))
      · exact (serve_exhausted ha .property).2
  exact calls_exhausted hn rest

theorem in_order (h : scan.stage = .seeking) (hs : scan.calls requests = done ++ later)
    (hf : ∀ call ∈ done, ¬ call.Fails) {n : Nat}
    (hn : (done.flatMap Call.properties).length ≤ n) :
    done.flatMap Call.properties <+:
      (scan.calls (.rule :: List.replicate n .property)).flatMap Call.properties := by
  obtain ⟨before, rest, rfl, -⟩ := calls_eq_append hs
  have hr : (scan.call .rule).properties = [] := by
    rw [Scan.call, serve, Pull.map, Call.properties]
    cases scan.findRule.result <;> rfl
  rw [calls_cons, List.flatMap_cons, hr]
  exact (List.prefix_take_iff.2 ⟨properties_of_seeking h hf, hn⟩).trans
    (take_yields_calls scan.findRule.next n)

end

/-- Requests of all kinds may be made in any order, and made again behind failures. -/
theorem calls_orderly (scope : Scope) (document : Document) (requests : List Request) :
    Orderly (start scope document) ((start scope document).calls requests) where
  one_rule := rules_length_le_one _ requests
  rule_first _ _ _ := rule_first
  rule_found _ _ _ := rule_found rfl
  in_order _ _ hs hf _ := in_order rfl hs hf
  nothing_more _ _ _ := nothing_more rfl

/-- The schema is refused for a flaw behind the rule.  A property is given all the same, and the
rule is not, however long one asks. -/
theorem property_without_rule :
    let scan := start .document
      (.read (Utf8.encode "<Rule><a b='1' b='1'/><BoolProperty Name='X'/></Rule>"))
    (∃ call ∈ scan.calls [.schema, .property], call.properties ≠ []) ∧
      ∀ requests, ∀ call ∈ scan.calls (.schema :: .property :: requests), call.rule? = none := by
  intro scan
  constructor
  · refine ⟨_, List.mem_cons_of_mem _ List.mem_cons_self, ?_⟩
    decide +kernel
  · have hr : (scan.call .schema).rule? = none := by decide +kernel
    have hs : (scan.serve .schema).next.stage ≠ .seeking := by decide +kernel
    exact fun requests => List.forall_mem_cons.2 ⟨hr, (calls_of_found hs (.property :: requests)).1⟩

end Scan

end ToolSwitch.Schema
