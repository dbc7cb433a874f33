import ToolSwitch.Generation
import ToolSwitch.Proofs.Schema.Reading

/-!
A pass against the schema that is read first: what is written, counted and refused block by block is
what the whole schema says.
-/

namespace ToolSwitch

open ToolSwitch.Text ToolSwitch.Markup ToolSwitch.Schema

/-- The accessors of properties, each with a line break behind it. -/
def Accessor.renderAll (getters : Getters) (lead : String) (properties : List Property) : String :=
  String.join (properties.map fun property => Accessor.render getters lead property ++ "\n")

theorem Accessor.renderAll_cons (getters : Getters) (lead : String) (property : Property)
    (rest : List Property) :
    renderAll getters lead (property :: rest) =
      render getters lead property ++ "\n" ++ renderAll getters lead rest := by
  simp [renderAll, String.join_cons]

theorem Accessor.renderAll_append (getters : Getters) (lead : String)
    (first second : List Property) :
    renderAll getters lead (first ++ second) =
      renderAll getters lead first ++ renderAll getters lead second := by
  induction first with
  | nil => simp [renderAll]
  | cons property rest ih =>
    rw [List.cons_append, renderAll_cons, renderAll_cons, ih]
    simp only [String.append_assoc]

namespace Tally

def ofProperties (properties : List Property) : Tally :=
  properties.foldr (fun property tally => tally.add property.kind) .zero

theorem count_ofProperties (properties : List Property) (kind : Kind) :
    (ofProperties properties).count kind = properties.countP (·.kind = kind) := by
  induction properties with
  | nil => cases kind <;> rfl
  | cons property rest ih =>
    rw [ofProperties, List.foldr_cons, count_add, List.countP_cons]
    simp only [decide_eq_true_eq, eq_comm (a := kind)]
    rw [← ih]
    rfl

theorem total_ofProperties (properties : List Property) :
    (ofProperties properties).total = properties.length := by
  induction properties with
  | nil => rfl
  | cons property rest ih =>
    rw [ofProperties, List.foldr_cons, total_add, List.length_cons, ← ih]
    rfl

theorem mem_entries (tally : Tally) (kind : Kind) (n : Nat) :
    (kind, n) ∈ tally.entries ↔ n = tally.count kind ∧ n ≠ 0 := by
  simp only [entries, List.mem_filter, List.mem_map, Prod.mk.injEq, decide_eq_true_eq, ne_eq]
  constructor
  · rintro ⟨⟨_, _, rfl, rfl⟩, hn⟩
    exact ⟨rfl, hn⟩
  · rintro ⟨rfl, hn⟩
    exact ⟨⟨kind, kind.mem_all, rfl, rfl⟩, hn⟩

end Tally

namespace Generation

theorem blocks_yields (getters : Getters) (lead : String) (scan : Scan) :
    (blocks getters lead scan).output = Accessor.renderAll getters lead scan.yields.1 ∧
      (blocks getters lead scan).result =
        scan.yields.2.map fun _ => Tally.ofProperties scan.yields.1 := by
  fun_induction Scan.yields scan with
  | case1 scan flaw h | case2 scan h =>
    rw [blocks]
    split <;> simp_all [Accessor.renderAll, Tally.ofProperties, Except.map]
  | case3 scan property h ih =>
    obtain ⟨ho, hr⟩ := ih
    rw [blocks]
    split
    · simp_all
    · simp_all
    · next found hf =>
      obtain rfl : property = found := by simpa [h] using hf
      refine ⟨by rw [Accessor.renderAll_cons, ← ho], ?_⟩
      dsimp only
      rw [hr]
      cases scan.nextProperty.next.yields.2 <;> rfl

theorem ofDocument_of_error {options : Options} {document : Document} {flaw : Flaw}
    (h : (Scan.start options.scope document).findRule.result = .error flaw) :
    (ofDocument options document).output = "" ∧
      (ofDocument options document).result = .error flaw := by
  simp [ofDocument, h]

theorem ofDocument_of_none {options : Options} {document : Document}
    (h : (Scan.start options.scope document).findRule.result = .ok none) :
    (ofDocument options document).output = "" ∧
      (ofDocument options document).result = .ok ⟨none, false, .zero⟩ := by
  simp [ofDocument, h]

theorem ofDocument_of_rule {options : Options} {document : Document} {rule : Rule}
    (h : (Scan.start options.scope document).findRule.result = .ok (some rule)) :
    let yields := (Scan.start options.scope document).findRule.next.yields
    (ofDocument options document).output =
        Accessor.renderAll options.getters rule.lead yields.1 ∧
      (ofDocument options document).result =
        yields.2.map fun _ => ⟨rule.name, true, Tally.ofProperties yields.1⟩ := by
  simp only [ofDocument, h, blocks_yields, true_and]
  cases (Scan.start options.scope document).findRule.next.yields.2 <;> rfl

/-- A pass writes the properties of the schema, and is refused where the schema is. -/
theorem ofDocument_schema (options : Options) (document : Document) :
    match (Scan.start options.scope document).schema.result with
    | .error flaw => (ofDocument options document).result = .error flaw
    | .ok found =>
      (ofDocument options document).output = Accessor.renderAll options.getters
          (found.elim "" (·.rule.lead)) (found.elim [] RuleSchema.properties) ∧
        ∃ summary, (ofDocument options document).result = .ok summary := by
  cases hr : (Scan.start options.scope document).findRule.result with
  | error flaw =>
    rw [Scan.schema_of_error hr]
    exact (ofDocument_of_error hr).2
  | ok found =>
    cases found with
    | none =>
      obtain ⟨ho, hp⟩ := ofDocument_of_none hr
      rw [Scan.schema_of_none hr]
      exact ⟨ho, _, hp⟩
    | some rule =>
      obtain ⟨ho, hp⟩ := ofDocument_of_rule hr
      rw [Scan.schema_of_rule hr]
      cases hy : (Scan.start options.scope document).findRule.next.yields.2 with
      | error flaw =>
        rw [hp, hy]
        rfl
      | ok _ => exact ⟨ho, _, by rw [hp, hy]; rfl⟩

theorem ofText_schema (options : Options) (origin text : String) :
    match RuleSchema.ofText options.scope origin text with
    | .error failure => (ofText options origin text).result = .error failure
    | .ok found =>
      (ofText options origin text).output = Accessor.renderAll options.getters
          (found.elim "" (·.rule.lead)) (found.elim [] RuleSchema.properties) ∧
        ∃ summary, (ofText options origin text).result = .ok summary := by
  have hd := ofDocument_schema options (.read (Utf8.encode text))
  rw [RuleSchema.ofText, ofText, ofBytes]
  cases hr : (Scan.start options.scope (.read (Utf8.encode text))).schema.result with
  | error flaw =>
    rw [hr] at hd
    dsimp only [Except.mapError]
    rw [hd]
  | ok found =>
    rw [hr] at hd
    obtain ⟨ho, summary, hs⟩ := hd
    exact ⟨ho, summary, by rw [hs]; rfl⟩

theorem ofBytes_output (options : Options) (origin : String) (bytes : Bytes) :
    (ofBytes options origin bytes).output = (ofDocument options (.read bytes)).output :=
  rfl

theorem ofBytes_result (options : Options) (origin : String) (bytes : Bytes) :
    (ofBytes options origin bytes).result =
      (ofDocument options (.read bytes)).result.mapError fun flaw =>
        .schema ⟨flaw, origin, none⟩ :=
  rfl

/-- Streaming and collecting agree.  A schema that can be read is written whole, property by
property; one that is refused is refused for the same flaw, behind the blocks of those properties
that a reader is given before it. -/
theorem ofBytes_agrees_with_schema (options : Options) (origin : String) (bytes : Bytes) :
    let scan := Scan.start options.scope (.read bytes)
    let pass := ofBytes options origin bytes
    match scan.schema.result with
    | .ok found =>
      let properties := found.elim [] RuleSchema.properties
      pass.output =
          Accessor.renderAll options.getters (found.elim "" (·.rule.lead)) properties ∧
        ∃ summary, pass.result = .ok summary ∧
          summary.foundRule = found.isSome ∧
          summary.rule = found.bind (·.rule.name) ∧
          (∀ kind n, (kind, n) ∈ summary.tally.entries ↔
            n = properties.countP (·.kind = kind) ∧ n ≠ 0) ∧
          summary.tally.total = properties.length
    | .error flaw =>
      pass.result = .error (.schema ⟨flaw, origin, none⟩) ∧
        (scan.serveAll [.rule] = [.error flaw] ∧ pass.output = "" ∨
          ∃ rule properties,
            scan.serveAll (.rule :: List.replicate (properties.length + 1) .property) =
              .ok (.rule (some rule)) ::
                (properties.map fun property => .ok (.property (some property))) ++
                  [.error flaw] ∧
            pass.output = Accessor.renderAll options.getters rule.lead properties) := by
  intro scan pass
  cases hr : scan.findRule.result with
  | error flaw =>
    obtain ⟨ho, hp⟩ := ofDocument_of_error hr
    rw [Scan.schema_of_error hr]
    refine ⟨by rw [ofBytes_result, hp]; rfl, .inl ⟨?_, ho⟩⟩
    simp only [Scan.serveAll, Scan.serve, Scan.Pull.map, hr]
    rfl
  | ok found =>
    cases found with
    | none =>
      obtain ⟨ho, hp⟩ := ofDocument_of_none hr
      rw [Scan.schema_of_none hr]
      refine ⟨ho, ⟨none, false, .zero⟩, by rw [ofBytes_result, hp]; rfl, rfl, rfl, ?_, rfl⟩
      intro kind n
      rw [Tally.mem_entries]
      cases kind <;> rfl
    | some rule =>
      obtain ⟨ho, hp⟩ := ofDocument_of_rule hr
      rw [Scan.schema_of_rule hr]
      cases hy : scan.findRule.next.yields.2 with
      | ok _ =>
        rw [hy] at hp
        refine ⟨ho, _, by rw [ofBytes_result, hp]; rfl, rfl, rfl, ?_, ?_⟩
        · intro kind n
          rw [Tally.mem_entries, Tally.count_ofProperties]
          rfl
        · exact Tally.total_ofProperties _
      | error flaw =>
        rw [hy] at hp
        refine ⟨by rw [ofBytes_result, hp]; rfl, .inr ⟨rule, _, ?_, ho⟩⟩
        rw [Scan.serveAll, List.cons_append]
        congr 1
        · simp only [Scan.serve, Scan.Pull.map, hr]
          rfl
        · exact Scan.serveAll_property hy

end Generation

end ToolSwitch
