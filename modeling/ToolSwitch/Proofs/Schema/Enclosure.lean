import ToolSwitch.Proofs.Schema.Stacks

/-!
The inside of an enum property.  Its choices are looked for up to its own end tag and no further: the
names that are open around it stay open up to there, and a document that ends before is refused.
-/

namespace ToolSwitch.Schema

open ToolSwitch.Text ToolSwitch.Markup

/-- The choice that a tag declares where choices are looked for. -/
def choiceAt? : Node → Option Choice
  | .opened element | .empty element => Choice.ofElement? element
  | .closed => none

/-- Steps without a flaw that keep at least so many elements open. -/
def StaysAbove (depth : Nat) (steps : List Step) : Prop :=
  ∀ step ∈ steps, (∃ node, step.outcome = .ok node) ∧ depth ≤ step.depth

/-- What looking for choices comes to inside an element with the names of `outer` open around it, and
the steps behind it.  It ends with the first step that has a flaw or leaves the element, or else at
the end of the document, which is then refused. -/
inductive Encloses (ending : Option Flaw) (outer : List String) (steps : List Step) :
    Except Flaw (List Choice) → List Step → Prop where
  | closed {inside rest : List Step} {last : Step} :
      steps = inside ++ last :: rest → StaysAbove (outer.length + 1) inside →
      last.outcome = .ok (some .closed) → last.path = outer →
      Encloses ending outer steps (.ok ((inside.filterMap Step.node?).filterMap choiceAt?)) rest
  | flawed {inside rest : List Step} {last : Step} {flaw : Flaw} :
      steps = inside ++ last :: rest → StaysAbove (outer.length + 1) inside →
      last.outcome = .error flaw → Encloses ending outer steps (.error flaw) rest
  | unclosed {flaw : Flaw} :
      StaysAbove (outer.length + 1) steps → ending = some flaw →
      Encloses ending outer steps (.error flaw) []

theorem staysAbove_nil (depth : Nat) : StaysAbove depth [] :=
  List.forall_mem_nil _

namespace Encloses

variable {ending : Option Flaw} {outer : List String} {steps rest : List Step} {step : Step}
  {node : Option Node} {found : Except Flaw (List Choice)}

theorem cons (ho : step.outcome = .ok node) (hd : outer.length + 1 ≤ step.depth)
    (h : Encloses ending outer steps found rest) :
    Encloses ending outer (step :: steps) (((node.bind choiceAt?).toList ++ ·) <$> found) rest := by
  have hs : ∀ inside, StaysAbove (outer.length + 1) inside →
      StaysAbove (outer.length + 1) (step :: inside) := fun inside hi =>
    List.forall_mem_cons.2 ⟨⟨⟨node, ho⟩, hd⟩, hi⟩
  cases h with
  | @closed inside rest last he hi hl hp =>
    have hc : (((step :: inside).filterMap Step.node?).filterMap choiceAt?) =
        (node.bind choiceAt?).toList ++ (inside.filterMap Step.node?).filterMap choiceAt? := by
      cases node with
      | none => simp [Step.node?, ho]
      | some node => cases hn : choiceAt? node <;> simp [Step.node?, ho, hn]
    have hf : ((node.bind choiceAt?).toList ++ ·) <$>
        (.ok ((inside.filterMap Step.node?).filterMap choiceAt?) : Except Flaw (List Choice)) =
        .ok (((step :: inside).filterMap Step.node?).filterMap choiceAt?) := congrArg _ hc.symm
    rw [hf]
    exact .closed (by rw [he, List.cons_append]) (hs inside hi) hl hp
  | flawed he hi hl => exact .flawed (by rw [he, List.cons_append]) (hs _ hi) hl
  | unclosed hi he => exact .unclosed (hs _ hi) he

theorem cons_of_none (ho : step.outcome = .ok node) (hn : node.bind choiceAt? = none)
    (hd : outer.length + 1 ≤ step.depth) (h : Encloses ending outer steps found rest) :
    Encloses ending outer (step :: steps) found rest := by
  have hc := h.cons ho hd
  rw [hn] at hc
  cases found <;> exact hc

end Encloses

namespace Scan

variable {scan : Scan}

/-- The invariant is that more names are open than those around the element, which are the last. -/
theorem choices_encloses {inner outer : List String} {steps : List Step}
    (hf : Follows scan.rest.ending (inner ++ outer) steps) (hi : inner ≠ []) :
    Encloses scan.rest.ending outer steps (scan.choices (outer.length + 1) steps).1
      (scan.choices (outer.length + 1) steps).2 := by
  induction steps generalizing inner with
  | nil =>
    rw [choices, atEnd]
    cases he : scan.rest.ending with
    | none => exact absurd (hf he) (List.append_ne_nil_of_left_ne_nil hi outer)
    | some flaw => exact .unclosed (staysAbove_nil _) rfl
  | cons step rest ih =>
    obtain ⟨hm, hf⟩ := hf
    have hl : outer.length + 1 ≤ (inner ++ outer).length := by
      have := List.length_pos_iff.2 hi
      rw [List.length_append]
      omega
    rw [choices]
    cases ho : step.outcome with
    | error flaw => exact .flawed (List.nil_append _).symm (staysAbove_nil _) ho
    | ok node =>
      rw [ho] at hm
      rcases node with _ | ⟨element⟩ | ⟨element⟩ | _
      · obtain hm : step.path = inner ++ outer := hm
        rw [hm] at hf
        exact (ih hf hi).cons_of_none ho rfl (by rw [Step.depth, hm]; exact hl)
      · obtain hm : step.path = element.name.text :: inner ++ outer := hm
        rw [hm] at hf
        have hc := ih hf (List.cons_ne_nil _ _)
        have hd : outer.length + 1 ≤ step.depth := by
          rw [Step.depth, hm, List.cons_append, List.length_cons]
          omega
        dsimp only
        cases hn : Choice.ofElement? element with
        | none => exact hc.cons_of_none ho hn hd
        | some choice => simpa [choiceAt?, hn] using hc.cons ho hd
      · obtain hm : step.path = inner ++ outer := hm
        rw [hm] at hf
        have hc := ih hf hi
        have hd : outer.length + 1 ≤ step.depth := by rw [Step.depth, hm]; exact hl
        dsimp only
        cases hn : Choice.ofElement? element with
        | none => exact hc.cons_of_none ho hn hd
        | some choice => simpa [choiceAt?, hn] using hc.cons ho hd
      · obtain hm : step.path = (inner ++ outer).tail := hm
        obtain ⟨name, inner, rfl⟩ := List.exists_cons_of_ne_nil hi
        rw [List.cons_append, List.tail_cons] at hm
        dsimp only
        cases inner with
        | nil =>
          rw [if_pos (by rw [Step.depth, hm, List.nil_append]; exact Nat.lt_succ_self _)]
          exact .closed (List.nil_append _).symm (staysAbove_nil _) ho hm
        | cons next inner =>
          have hd : outer.length + 1 ≤ step.depth := by
            rw [Step.depth, hm, List.length_append, List.length_cons]
            omega
          rw [if_neg (Nat.not_lt.2 hd)]
          rw [hm] at hf
          exact (ih hf (List.cons_ne_nil _ _)).cons_of_none ho rfl hd

theorem finish_notices (notices : List Notice) (steps : List Step) :
    (scan.finish notices steps).notices = notices := by
  rw [finish_eq]

theorem declare_notices (kind : Kind) (element : Element) (depth : Nat) (rest : List Step) :
    (scan.declare kind element depth rest).notices = [.dispatching kind (.ofElement element)] := by
  by_cases hk : kind = .enum
  · subst hk
    rw [declare_enum]
  · rw [declare_of_ne_enum scan hk]

/-- A property of a kind is declared by a tag with the name for it, open or empty. -/
inductive Dispatches (scan : Scan) (kind : Kind) (steps : List Step)
    (pull : Pull (Option Property)) : Prop where
  | opened {step : Step} {rest : List Step} {element : Element} :
      step :: rest <:+ steps → step.outcome = .ok (some (.opened element)) →
      Kind.ofTag? element.name = some kind → pull = scan.declare kind element step.depth rest →
      Dispatches scan kind steps pull
  | empty {step : Step} {rest : List Step} {element : Element} :
      step :: rest <:+ steps → step.outcome = .ok (some (.empty element)) →
      Kind.ofTag? element.name = some kind → pull.result = .ok (some (.ofElement kind element [])) →
      Dispatches scan kind steps pull

theorem Dispatches.cons {kind : Kind} {steps : List Step} {pull : Pull (Option Property)}
    (h : scan.Dispatches kind steps pull) (step : Step) :
    scan.Dispatches kind (step :: steps) pull := by
  cases h with
  | opened hs ho hk hp => exact .opened (hs.trans (List.suffix_cons step steps)) ho hk hp
  | empty hs ho hk hp => exact .empty (hs.trans (List.suffix_cons step steps)) ho hk hp

theorem advance_dispatches {kind : Kind} {info : Info} {depth : Nat} {steps : List Step}
    (h : .dispatching kind info ∈ (scan.advance depth steps).notices) :
    scan.Dispatches kind steps (scan.advance depth steps) := by
  induction steps with
  | nil =>
    rw [advance] at h
    cases he : scan.atEnd <;> simp [he] at h
  | cons step rest ih =>
    rw [advance] at h ⊢
    cases ho : step.outcome with
    | error flaw => simp [ho] at h
    | ok node =>
      rw [ho] at h
      rcases node with _ | ⟨element⟩ | ⟨element⟩ | _
      · exact (ih h).cons step
      · dsimp only at h ⊢
        cases hk : Kind.ofTag? element.name with
        | none =>
          rw [hk] at h
          exact (ih h).cons step
        | some other =>
          rw [hk] at h
          dsimp only at h
          rw [declare_notices, List.mem_singleton] at h
          cases h
          exact .opened (List.suffix_refl _) ho hk rfl
      · dsimp only at h ⊢
        cases hk : Kind.ofTag? element.name with
        | none =>
          rw [hk] at h
          exact (ih h).cons step
        | some other =>
          rw [hk] at h
          cases List.mem_singleton.1 h
          exact .empty (List.suffix_refl _) ho hk rfl
      · dsimp only at h ⊢
        split at h
        · rw [finish_notices] at h
          cases List.mem_singleton.1 h
        · next hs =>
          rw [if_neg hs]
          exact (ih h).cons step

theorem nextProperty_dispatches {kind : Kind} {info : Info}
    (h : .dispatching kind info ∈ scan.nextProperty.notices) :
    scan.Dispatches kind scan.rest.steps scan.nextProperty := by
  unfold nextProperty at h ⊢
  split at h
  · exact advance_dispatches h
  · rw [finish_notices] at h
    cases h
  · rw [finish_notices] at h
    cases h

/-- Wherever requests have brought a reader, an open enum property that is still ahead of it is read
up to its own end tag, with the choices in it as they come, or else refused.  That is what a request
does that declares an enum property. -/
theorem enum_stays_inside (scope : Scope) (bytes : Bytes) (requests : List Request) :
    let scan := (start scope (.read bytes)).after requests
    (∀ step rest element, step :: rest <:+ scan.rest.steps →
      step.outcome = .ok (some (.opened element)) →
        ∃ read found after, (Document.read bytes).steps = read ++ step :: rest ∧
          step.path = element.name.text :: openBehind [] read ∧
          scan.declare .enum element step.depth rest =
            ⟨(some ∘ .ofElement .enum element) <$> found, [.dispatching .enum (.ofElement element)],
              scan.behind after⟩ ∧
          Encloses scan.rest.ending (openBehind [] read) rest found after) ∧
    ∀ info, .dispatching .enum info ∈ scan.nextProperty.notices →
      scan.Dispatches .enum scan.rest.steps scan.nextProperty := by
  intro scan
  refine ⟨fun step rest element hs ho => ?_, fun info h => nextProperty_dispatches h⟩
  obtain ⟨he, front, hd, -⟩ := (start scope (.read bytes)).after_reads requests
  obtain ⟨before, hb⟩ := hs
  have hd : (Document.read bytes).steps = (front ++ before) ++ step :: rest := by
    rw [List.append_assoc, hb]
    exact hd
  have hf := follows_read bytes
  rw [hd] at hf
  obtain ⟨hm, hf⟩ := hf.of_append
  rw [ho] at hm
  obtain hm : step.path = element.name.text :: openBehind [] (front ++ before) := hm
  have hl : step.depth = (openBehind [] (front ++ before)).length + 1 := by
    rw [Step.depth, hm, List.length_cons]
  refine ⟨_, _, _, hd, hm, declare_enum .., ?_⟩
  rw [hl]
  refine @choices_encloses scan [element.name.text] _ _ ?_ (List.cons_ne_nil _ _)
  rw [List.singleton_append, ← hm, show scan.rest.ending = (Document.read bytes).ending from he]
  exact hf

/-- The start tag of `b` is refused.  The property behind it is read all the same, with another one
inside it, up to its own end tag. -/
theorem enum_stays_inside_behind_refused_start :
    let bytes := Utf8.encode ("<Rule><b c=\"1\" c=\"1\"><EnumProperty><EnumProperty><EnumValue/>" ++
      "</EnumProperty></EnumProperty></b></Rule>")
    let scan := (start .rule (.read bytes)).after [.rule, .property]
    let element : Element := ⟨Name.ofString "EnumProperty", []⟩
    (∃ call ∈ (start .rule (.read bytes)).calls [.rule, .property], call.Fails) ∧
      scan.nextProperty.result.toOption =
        some (some ⟨⟨none, none, none⟩, .enum [⟨none, none⟩]⟩) ∧
      ∃ step rest read found after, step.outcome = .ok (some (.opened element)) ∧
        (Document.read bytes).steps = read ++ step :: rest ∧
        step.path = "EnumProperty" :: openBehind [] read ∧
        scan.declare .enum element step.depth rest =
          ⟨(some ∘ .ofElement .enum element) <$> found, [.dispatching .enum (.ofElement element)],
            scan.behind after⟩ ∧
        Encloses scan.rest.ending (openBehind [] read) rest found after := by
  intro bytes scan element
  have hr : (((start .rule (.read bytes)).serve .rule).next.serve .property).result.toOption =
      none := by
    decide +kernel
  have hf : ∃ call ∈ (start .rule (.read bytes)).calls [.rule, .property], call.Fails := by
    refine ⟨_, List.mem_cons_of_mem _ List.mem_cons_self, ?_⟩
    cases ha : (((start .rule (.read bytes)).serve .rule).next.serve .property).result with
    | error flaw => exact ⟨flaw, rfl⟩
    | ok answer =>
      rw [ha] at hr
      cases hr
  have hh : scan.rest.steps.head?.map Step.node? = some (some (.opened element)) := by
    decide +kernel
  obtain ⟨step, hs, hn⟩ := Option.map_eq_some_iff.1 hh
  obtain ⟨rest, hs⟩ := List.head?_eq_some_iff.1 hs
  have ho : step.outcome = .ok (some (.opened element)) := by
    rw [Step.node?] at hn
    split at hn
    · next ho => rw [ho, hn]
    · cases hn
  have ht : element.name.text = "EnumProperty" := by decide +kernel
  obtain ⟨read, found, after, hd, hp, hc, he⟩ :=
    (enum_stays_inside .rule bytes [.rule, .property]).1 step rest element
      ⟨[], hs.symm⟩ ho
  exact ⟨hf, by decide +kernel, step, rest, read, found, after, ho, hd, ht ▸ hp, hc, he⟩

end Scan

end ToolSwitch.Schema
