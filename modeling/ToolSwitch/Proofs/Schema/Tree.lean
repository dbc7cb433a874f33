import ToolSwitch.Proofs.Markup.Nesting
import ToolSwitch.Proofs.Schema.Outline
import ToolSwitch.Proofs.Schema.Reading

/-!
A scan of a flat sequence of steps against the element tree that the steps spell: the first rule in
document order is found, and the properties that the tree declares for it are yielded in order.
-/

namespace ToolSwitch.Schema

open ToolSwitch.Text ToolSwitch.Markup

namespace Outline

theorem ruleOfElement_eq (occurrence : Occurrence) :
    Rule.ofElement? occurrence.element =
      if named "Rule" occurrence then some (ruleOf occurrence) else none := by
  simp only [Rule.ofElement?, named, decide_eq_true_eq, ruleOf]

theorem choiceOfElement_eq (occurrence : Occurrence) :
    Choice.ofElement? occurrence.element =
      if named "EnumValue" occurrence then some (choiceOf occurrence) else none := by
  simp only [Choice.ofElement?, named, decide_eq_true_eq, choiceOf]

theorem declaration?_eq (occurrence : Occurrence) :
    declaration? occurrence = (Kind.ofTag? occurrence.element.name).map fun kind =>
      .ofElement kind occurrence.element (choicesAmong occurrence.descendants) := by
  simp only [declaration?, named, decide_eq_true_eq, Kind.ofTag?, Kind.all, List.find?_cons,
    Kind.tag, @eq_comm _ occurrence.element.name]
  split_ifs with hs hb hi he <;> simp [*, Property.ofElement, Info.ofElement]

end Outline

theorem Kind.ofTag?_tag (kind : Kind) : Kind.ofTag? (Name.ofString kind.tag) = some kind := by
  cases kind <;> decide

theorem Kind.ofTag?_eq_some {name : Name} {kind : Kind} :
    Kind.ofTag? name = some kind ↔ name = Name.ofString kind.tag := by
  constructor
  · intro h
    simpa [eq_comm] using List.find?_some h
  · rintro rfl
    exact ofTag?_tag kind

namespace Outline

theorem named_enum_iff (occurrence : Occurrence) :
    named "EnumProperty" occurrence ↔ Kind.ofTag? occurrence.element.name = some .enum := by
  rw [Kind.ofTag?_eq_some, named, decide_eq_true_iff, Kind.tag]

section

variable {element : Element} {kind : Kind}

theorem declaration?_of_enum (n : Nat) (inside : Forest)
    (h : Kind.ofTag? element.name = some .enum) :
    declaration? ⟨n, element, inside⟩ =
      some (.ofElement .enum element (choicesAmong (inside.occurrencesFrom (n + 1)))) := by
  rw [declaration?_eq, h]
  rfl

theorem declaration?_of_some (n : Nat) (inside : Forest) (h : Kind.ofTag? element.name = some kind)
    (hk : kind ≠ .enum) :
    declaration? ⟨n, element, inside⟩ = some (.ofElement kind element []) := by
  rw [declaration?_eq, h]
  cases kind <;> first | rfl | exact absurd rfl hk

theorem dispatched_of_enum (n : Nat) (inside after : Forest)
    (h : Kind.ofTag? element.name = some .enum) :
    dispatched n (.cons element inside after) =
      ⟨n, element, inside⟩ :: dispatched (n + inside.size + 1) after := by
  rw [dispatched]
  exact if_pos ((named_enum_iff _).2 h)

theorem dispatched_of_some (n : Nat) (inside after : Forest)
    (h : Kind.ofTag? element.name = some kind) (hk : kind ≠ .enum) :
    dispatched n (.cons element inside after) =
      ⟨n, element, inside⟩ :: dispatched (n + 1) (inside.append after) := by
  have hn : n + 1 + inside.size = n + inside.size + 1 := by omega
  rw [dispatched, if_neg (by simpa [named_enum_iff, h] using hk),
    if_pos (by rw [declaration?_of_some n inside h hk]; rfl), dispatched_append, hn]

theorem dispatched_of_none (n : Nat) (inside after : Forest)
    (h : Kind.ofTag? element.name = none) :
    dispatched n (.cons element inside after) = dispatched (n + 1) (inside.append after) := by
  have hn : n + 1 + inside.size = n + inside.size + 1 := by omega
  rw [dispatched, if_neg (by simp [named_enum_iff, h]),
    if_neg (by simp [declaration?_eq, h]), dispatched_append, hn]

end

theorem choicesAmong_cons (first : Occurrence) (rest : List Occurrence) :
    choicesAmong (first :: rest) =
      (Choice.ofElement? first.element).toList ++ choicesAmong rest := by
  rw [choiceOfElement_eq, choicesAmong, List.filter_cons]
  split <;> rfl

end Outline

open Outline

namespace Scan

theorem choices_cons {scan : Scan} {depth : Nat} {step : Step} {rest behind : List Step}
    {first : Occurrence} {others : List Occurrence}
    (ho : step.outcome = .ok (some (.opened first.element)) ∨
      step.outcome = .ok (some (.empty first.element)))
    (h : scan.choices depth rest = (.ok (choicesAmong others), behind)) :
    scan.choices depth (step :: rest) = (.ok (choicesAmong (first :: others)), behind) := by
  rw [choicesAmong_cons, choices]
  obtain ho | ho := ho <;> rw [ho] <;> dsimp only <;> rw [h] <;>
    cases Choice.ofElement? first.element <;> rfl

/-- The choices of an enum property are those inside it, and the scan goes on behind its end tag. -/
theorem choices_reads {scan : Scan} {depth : Nat} {here after : Forest}
    {outer beyond : List Forest} {steps : List Step} (h : Reads depth steps here outer)
    (gs : List Forest) (ho : outer = gs ++ after :: beyond) (n : Nat) :
    ∃ rest, scan.choices (beyond.length + 1) steps =
        (.ok (choicesAmong ((Forest.join (here :: gs)).occurrencesFrom n)), rest) ∧
      Reads beyond.length rest after beyond := by
  induction h generalizing gs n with
  | nil => simp at ho
  | aside hs _ ih =>
    rw [choices, hs]
    exact ih gs ho n
  | empty hs _ _ ih =>
    obtain ⟨rest, hc, hr⟩ := ih gs ho (n + 1)
    exact ⟨rest, choices_cons (.inr hs) hc, hr⟩
  | @closed d step _ _ outer hs hd hr ih =>
    have hl := hr.length
    rw [choices, hs]
    dsimp only
    cases gs with
    | nil =>
      obtain ⟨rfl, rfl⟩ := List.cons_eq_cons.1 ho
      have hlt : step.depth < outer.length + 1 := by omega
      rw [if_pos hlt]
      exact ⟨_, rfl, hl.symm ▸ hr⟩
    | cons g gs =>
      obtain ⟨rfl, rfl⟩ := List.cons_eq_cons.1 ho
      have hge : ¬ step.depth < beyond.length + 1 := by
        simp only [List.append_eq, List.length_append, List.length_cons] at hl
        omega
      rw [if_neg hge]
      exact ih gs rfl n
  | @opened _ _ _ element inside after' _ hs _ _ ih =>
    obtain ⟨rest, hc, hr⟩ := ih (after' :: gs) (by rw [ho]; rfl) (n + 1)
    refine ⟨rest, ?_, hr⟩
    rw [Forest.join_cons, Forest.occurrencesFrom_append] at hc
    have hn : n + inside.size + 1 = n + 1 + inside.size := by omega
    rw [Forest.join_cons, Forest.append, Forest.occurrencesFrom, hn]
    exact choices_cons (.inl hs) hc

theorem drain_reads {scan : Scan} {depth : Nat} {here : Forest} {outer : List Forest}
    {steps : List Step} (he : scan.rest.ending = none) (h : Reads depth steps here outer) :
    (scan.drain steps).1 = .ok () := by
  induction h with
  | nil => simp [drain, atEnd, he]
  | aside hs _ ih | empty hs _ _ ih | closed hs _ _ ih | opened hs _ _ ih =>
    rw [drain, hs]
    exact ih

/-- How many open elements there are around the end of a scan: those around the rule or, in the wide
scope, none. -/
def floor (scan : Scan) (depth : Nat) : Nat :=
  match scan.scope with
  | .document => 0
  | .rule => depth

theorem leaves_iff (scan : Scan) (depth d : Nat) :
    scan.scope = .rule ∧ d < depth ↔ d < scan.floor depth := by
  cases h : scan.scope <;> simp [floor, h]

/-- What a pull gives where the tree dispatches certain elements: nothing if there are none, or else
the property of the first, and then the scan stands in front of the others. -/
inductive Gives (scan : Scan) (beyond : List Forest) (pull : Pull (Option Property)) :
    List Occurrence → Prop where
  | none : pull.result = .ok none → Gives scan beyond pull []
  | some {first : Occurrence} {property : Property} {n depth : Nat} {rest : List Step}
      {here : Forest} {gs : List Forest} : declaration? first = some property →
      pull.result = .ok (some property) → pull.next = scan.behind rest →
      Reads depth rest here (gs ++ beyond) →
      Gives scan beyond pull (first :: dispatched n (Forest.join (here :: gs)))

theorem declare_reads {scan : Scan} {kind : Kind} {element : Element} {inside after : Forest}
    {gs beyond : List Forest} {depth : Nat} {rest : List Step}
    (hk : Kind.ofTag? element.name = some kind)
    (h : Reads depth rest inside (after :: (gs ++ beyond))) (n : Nat) :
    Gives scan beyond (scan.declare kind element depth rest)
      (dispatched n (.cons element inside (Forest.join (after :: gs)))) := by
  by_cases hn : kind = .enum
  · subst hn
    obtain rfl : (gs ++ beyond).length + 1 = depth := h.length
    obtain ⟨rest', hc, hr⟩ := choices_reads h [] (by rfl) (n + 1)
    rw [declare_enum, hc, dispatched_of_enum n _ _ hk]
    refine .some (declaration?_of_enum n inside hk) ?_ rfl hr
    simp [Forest.join, Forest.append_nil, Functor.map, Except.map]
  · rw [declare_of_ne_enum _ hn, dispatched_of_some n _ _ hk hn]
    exact .some (declaration?_of_some n inside hk hn) rfl rfl h

theorem advance_reads {scan : Scan} {depth d : Nat} {here : Forest} {outer beyond : List Forest}
    {steps : List Step} (he : scan.rest.ending = none) (hb : beyond.length = scan.floor depth)
    (h : Reads d steps here outer) (gs : List Forest) (ho : outer = gs ++ beyond) (n : Nat) :
    Gives scan beyond (scan.advance depth steps) (dispatched n (Forest.join (here :: gs))) := by
  -- `gs` is what follows inside the scope; without it, the next end tag leaves the rule
  induction h generalizing gs n with
  | nil =>
    obtain ⟨rfl, rfl⟩ := List.append_eq_nil_iff.1 ho.symm
    exact .none (by simp [advance, atEnd, he])
  | aside hs _ ih =>
    rw [advance, hs]
    exact ih gs ho n
  | @empty d step rest element here outer hs _ hr ih =>
    subst ho
    rw [advance, hs, Forest.join_cons, Forest.append]
    dsimp only
    cases hk : Kind.ofTag? element.name with
    | none =>
      rw [dispatched_of_none n _ _ hk]
      exact ih gs rfl (n + 1)
    | some kind =>
      by_cases hn : kind = .enum
      · subst hn
        rw [dispatched_of_enum n _ _ hk]
        exact .some (declaration?_of_enum n .nil hk) rfl rfl hr
      · rw [dispatched_of_some n _ _ hk hn]
        exact .some (declaration?_of_some n .nil hk hn) rfl rfl hr
  | @closed d step rest here outer hs hd hr ih =>
    have hl := hr.length
    rw [advance, hs]
    dsimp only
    cases gs with
    | nil =>
      have hlt : step.depth < scan.floor depth := by
        rw [← hb, ← List.nil_append beyond, ← ho, List.length_cons]
        omega
      rw [if_pos ((leaves_iff ..).2 hlt), finish_eq]
      refine .none ?_
      dsimp only
      rw [drain_reads (by exact he) hr]
      rfl
    | cons g gs =>
      obtain ⟨rfl, rfl⟩ := List.cons_eq_cons.1 ho
      have hge : ¬ step.depth < scan.floor depth := by
        simp only [List.append_eq, List.length_append] at hl
        omega
      rw [if_neg (mt (leaves_iff ..).1 hge)]
      exact ih gs rfl n
  | @opened d step rest element inside after outer hs hd hr ih =>
    subst ho
    rw [advance, hs, Forest.join_cons, Forest.append]
    dsimp only
    cases hk : Kind.ofTag? element.name with
    | none =>
      rw [dispatched_of_none n _ _ hk]
      exact ih (after :: gs) rfl (n + 1)
    | some kind => exact declare_reads hk (hd ▸ hr) n

theorem nextProperty_reads {scan : Scan} {depth d : Nat} {here : Forest}
    {gs beyond : List Forest} (hs : scan.stage = .scanning depth) (he : scan.rest.ending = none)
    (hb : beyond.length = scan.floor depth)
    (h : Reads d scan.rest.steps here (gs ++ beyond)) (n : Nat) :
    Gives scan beyond scan.nextProperty (dispatched n (Forest.join (here :: gs))) := by
  rw [nextProperty, hs]
  exact advance_reads he hb h gs rfl n

/-- A scan inside its scope yields what the tree dispatches there, in order. -/
theorem yields_reads {scan : Scan} {depth d : Nat} {here : Forest} {gs beyond : List Forest}
    (hs : scan.stage = .scanning depth) (he : scan.rest.ending = none)
    (hb : beyond.length = scan.floor depth)
    (h : Reads d scan.rest.steps here (gs ++ beyond)) (n : Nat) :
    scan.yields = ((dispatched n (Forest.join (here :: gs))).filterMap declaration?, .ok ()) := by
  fun_induction yields scan generalizing d here gs n with
  | case1 scan flaw hr =>
    have hg := nextProperty_reads hs he hb h n
    generalize dispatched n (Forest.join (here :: gs)) = found at hg
    cases hg <;> simp_all
  | case2 scan hr =>
    have hg := nextProperty_reads hs he hb h n
    generalize dispatched n (Forest.join (here :: gs)) = found at hg
    cases hg <;> simp_all
  | case3 scan property hr ih =>
    have hg := nextProperty_reads hs he hb h n
    generalize dispatched n (Forest.join (here :: gs)) = found at hg
    cases hg with
    | none hr' => simp [hr] at hr'
    | @some first property' m d rest here gs hd hr' hx h' =>
      obtain rfl : property = property' := by simpa [hr] using hr'
      rw [hx] at ih ⊢
      rw [ih hs he hb h' m, List.filterMap_cons, hd]

theorem yields_of_finished {scan : Scan} {d : Nat} {here : Forest} {outer : List Forest}
    (hs : scan.stage = .finished) (he : scan.rest.ending = none)
    (h : Reads d scan.rest.steps here outer) : scan.yields = ([], .ok ()) := by
  refine yields_of_none ?_
  rw [nextProperty, hs]
  dsimp only
  rw [finish_eq, drain_reads he h]
  rfl

/-- The part of a tree, around a rule and in front of `beyond`, where its properties are. -/
def reach (scope : Scope) (rule : Occurrence) (beyond : Forest) : Forest :=
  match scope with
  | .document => rule.inside.append beyond
  | .rule => rule.inside

/-- What a search for the rule gives among elements: the first that is a rule, and then a scan that
yields what the tree dispatches in the rule's reach. -/
inductive Sights (scan : Scan) (pull : Pull (Option Rule)) : List Occurrence → Prop where
  | none {all : List Occurrence} : (∀ o ∈ all, named "Rule" o = false) →
      pull.result = .ok none → Sights scan pull all
  | some {before : List Occurrence} {rule : Occurrence} {beyond : Forest} :
      (∀ o ∈ before, named "Rule" o = false) → named "Rule" rule →
      pull.result = .ok (some (ruleOf rule)) →
      pull.next.yields = ((dispatched (rule.position + 1)
        (reach scan.scope rule beyond)).filterMap declaration?, .ok ()) →
      Sights scan pull (before ++ rule ::
        (rule.inside.append beyond).occurrencesFrom (rule.position + 1))

theorem Sights.cons {scan : Scan} {pull : Pull (Option Rule)} {first : Occurrence}
    {all : List Occurrence} (hf : named "Rule" first = false) (h : Sights scan pull all) :
    Sights scan pull (first :: all) := by
  cases h with
  | none hn hr => exact .none (List.forall_mem_cons.2 ⟨hf, hn⟩) hr
  | @some before rule beyond hn hx hr hy =>
    exact @Sights.some scan pull (first :: before) rule beyond
      (List.forall_mem_cons.2 ⟨hf, hn⟩) hx hr hy

theorem yields_inside {scan : Scan} {inside : Forest} {beyond : List Forest} {rest : List Step}
    {d : Nat} (he : scan.rest.ending = none) (h : Reads d rest inside beyond) (position : Nat)
    (element : Element) :
    { scan.behind rest with stage := .scanning d }.yields =
      ((dispatched (position + 1)
        (reach scan.scope ⟨position, element, inside⟩ (Forest.join beyond))).filterMap
          declaration?, .ok ()) := by
  cases hs : scan.scope with
  | document =>
    refine @yields_reads { scan.behind rest with stage := .scanning d } d d inside beyond [] rfl he
      ?_ ?_ _
    · simp [floor, behind, hs]
    · exact (List.append_nil beyond).symm ▸ h
  | rule =>
    have hy := @yields_reads { scan.behind rest with stage := .scanning d } d d inside [] beyond rfl
      he (by simp [floor, behind, hs, h.length]) h (position + 1)
    rw [hy, Forest.join_cons]
    simp [reach, Forest.join, Forest.append_nil]

theorem seek_reads {scan : Scan} {d : Nat} {here : Forest} {outer : List Forest}
    {steps : List Step} (he : scan.rest.ending = none) (h : Reads d steps here outer) (n : Nat) :
    Sights scan (scan.seek steps) ((Forest.join (here :: outer)).occurrencesFrom n) := by
  induction h generalizing n with
  | nil =>
    refine .none (fun o ho => by cases ho) ?_
    simp [seek, atEnd, he]
  | aside hs _ ih | closed hs _ _ ih =>
    rw [seek, hs]
    exact ih n
  | @empty d step rest element here outer hs hd hr ih =>
    rw [seek, hs, Forest.join_cons, Forest.append, Forest.occurrencesFrom]
    dsimp only
    rw [ruleOfElement_eq ⟨n, element, .nil⟩]
    by_cases hx : named "Rule" ⟨n, element, .nil⟩
    · rw [if_pos hx]
      refine @Sights.some _ _ [] ⟨n, element, .nil⟩ (Forest.join (here :: outer)) (by simp) hx rfl
        ?_
      dsimp only [reach, Forest.append]
      cases hsc : scan.scope with
      | document =>
        have hy := yields_inside he (hd ▸ hr) n element
        rw [hsc] at hy
        exact hy
      | rule =>
        exact @yields_of_finished { scan.behind rest with stage := .finished } _ _ _ rfl he hr
    · rw [if_neg hx]
      exact (ih (n + 1)).cons (by simpa using hx)
  | @opened d step rest element inside after outer hs hd hr ih =>
    rw [seek, hs, Forest.join_cons, Forest.append, Forest.occurrencesFrom,
      ← Nat.add_right_comm n 1, ← Forest.occurrencesFrom_append]
    dsimp only
    rw [ruleOfElement_eq ⟨n, element, inside⟩]
    by_cases hx : named "Rule" ⟨n, element, inside⟩
    · rw [if_pos hx]
      exact @Sights.some _ _ [] ⟨n, element, inside⟩ (Forest.join (after :: outer)) (by simp) hx rfl
        (yields_inside he (hd ▸ hr) n element)
    · rw [if_neg hx]
      exact (ih (n + 1)).cons (by simpa using hx)

end Scan

section

variable {root beyond : Forest} {before : List Occurrence} {rule : Occurrence}

theorem inReach_iff (h : root.occurrences =
      before ++ rule :: (rule.inside.append beyond).occurrencesFrom (rule.position + 1))
    (scope : Scope) {occurrence : Occurrence} (ho : occurrence ∈ root.occurrences) :
    InReach scope rule occurrence ↔
      occurrence ∈ (Scan.reach scope rule beyond).occurrencesFrom (rule.position + 1) := by
  cases scope with
  | rule => exact Iff.rfl
  | document =>
    constructor
    · intro hp
      have hs := Forest.pairwise_occurrencesFrom 0 root
      rw [← Forest.occurrences, h, List.pairwise_append] at hs
      rw [h, List.mem_append, List.mem_cons] at ho
      obtain ho | rfl | ho := ho
      · exact absurd (hs.2.2 _ ho _ List.mem_cons_self) (Nat.lt_asymm hp)
      · exact absurd hp (Nat.lt_irrefl _)
      · exact ho
    · intro hm
      exact (Forest.position_bounds hm).1

theorem declares_reach (h : root.occurrences =
      before ++ rule :: (rule.inside.append beyond).occurrencesFrom (rule.position + 1))
    (scope : Scope) :
    Declares scope root rule
      (dispatched (rule.position + 1) (Scan.reach scope rule beyond)) := by
  have hs := settled_dispatched (rule.position + 1) (Scan.reach scope rule beyond)
  have hp : (Scan.reach scope rule beyond).occurrencesFrom (rule.position + 1) <+:
      (rule.inside.append beyond).occurrencesFrom (rule.position + 1) := by
    cases scope with
    | document => exact List.prefix_rfl
    | rule =>
      rw [Forest.occurrencesFrom_append]
      exact List.prefix_append _ _
  refine ⟨?_, fun o ho => ?_⟩
  · rw [h]
    exact hs.sublist.trans (hp.sublist.trans ((List.sublist_cons_self _ _).trans
      (List.sublist_append_right _ _)))
  · rw [inReach_iff h scope ho]
    constructor
    · intro hm
      have hr := hs.sublist.subset hm
      obtain ⟨hd, hx⟩ := (hs.mem_iff o hr).1 hm
      exact ⟨hd, hr, hx⟩
    · rintro ⟨hd, hr, hx⟩
      exact (hs.mem_iff o hr).2 ⟨hd, hx⟩

end

theorem findRule_reads {document : Document} {root : Forest} (he : document.ending = none)
    (h : Reads 0 document.steps root []) (scope : Scope) :
    (Scan.start scope document).Sights (Scan.start scope document).findRule root.occurrences := by
  have hs := @Scan.seek_reads (.start scope document) _ _ _ _ he h 0
  rw [Forest.join_cons, Forest.join, List.foldr_nil, Forest.append_nil] at hs
  exact hs

theorem schema_reads {document : Document} {root : Forest} (he : document.ending = none)
    (h : Reads 0 document.steps root []) (scope : Scope) :
    ∃ schema, (Scan.start scope document).schema.result = .ok schema ∧ Fits scope root schema := by
  have hs := findRule_reads he h scope
  generalize ha : root.occurrences = all at hs
  cases hs with
  | none hn hr =>
    refine ⟨none, Scan.schema_of_none hr, iff_of_true rfl fun o ho => ?_, fun rule hf => ?_⟩
    · simpa [named] using hn o (ha ▸ ho)
    · rw [ha, List.find?_eq_none.2 (by simpa using hn)] at hf
      cases hf
  | @some before rule beyond hn hx hr hy =>
    refine ⟨_, by rw [Scan.schema_of_rule hr, hy]; rfl, ?_, fun other hf => ?_⟩
    · refine iff_of_false (by simp) fun hall => ?_
      exact hall rule (by simp [ha]) (by simpa [named] using hx)
    · have hr : root.occurrences.find? (named "Rule") = some rule :=
        List.find?_eq_some_iff_append.2 ⟨hx, _, _, ha, by simpa using hn⟩
      obtain rfl : rule = other := by simpa [hr] using hf
      exact ⟨_, declares_reach ha scope, rfl⟩

/-- A document that can be read is one element tree, and its schema in either scope is the only one
that fits the tree. -/
theorem schema_of_tree {fresh : Scope} {bytes : Bytes}
    (h : (Scan.start fresh (.read bytes)).verdict = .ok ()) :
    ∃ root : Forest, root.Spells (Document.read bytes).nodes ∧
      (∀ other : Forest, other.Spells (Document.read bytes).nodes → other = root) ∧
      ∀ scope, ∃ schema, (Scan.start scope (.read bytes)).schema.result = .ok schema ∧
        ∀ other, Fits scope root other ↔ other = schema := by
  obtain ⟨hs, he⟩ := Scan.drain_eq_ok.1 h
  obtain ⟨root, hr⟩ := Document.Clean.reads ⟨hs, he⟩
  have hw : root.Spells (Document.read bytes).nodes := hr.spells_root
  refine ⟨root, hw, fun other ho => ho.unique hw, fun scope => ?_⟩
  obtain ⟨schema, hx, hf⟩ := schema_reads he hr scope
  refine ⟨schema, hx, fun other => ⟨fun ho => ho.unique hf, ?_⟩⟩
  rintro rfl
  exact hf

theorem schema_of_tree_in_enum :
    let bytes := Utf8.encode
      "<EnumProperty><Rule><EnumProperty><x><EnumValue/></x></EnumProperty></Rule></EnumProperty>"
    (Scan.start .rule (.read bytes)).verdict = .ok () ∧
      ∃ root : Forest, root.Spells (Document.read bytes).nodes ∧
        (∀ other : Forest, other.Spells (Document.read bytes).nodes → other = root) ∧
        ∀ scope, ∃ schema, (Scan.start scope (.read bytes)).schema.result = .ok schema ∧
          ∀ other, Fits scope root other ↔ other = schema := by
  intro bytes
  have h : (Scan.start .rule (.read bytes)).verdict.toOption = some () := by decide +kernel
  have hv : (Scan.start .rule (.read bytes)).verdict = .ok () := by
    cases hr : (Scan.start .rule (.read bytes)).verdict with
    | error flaw => simp [hr, Except.toOption] at h
    | ok _ => rfl
  exact ⟨hv, schema_of_tree hv⟩

end ToolSwitch.Schema
