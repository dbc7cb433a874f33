import ToolSwitch.Proofs.Markup.Stacks
import ToolSwitch.Proofs.Schema.Requests

/-!
How far requests read a document.  Each reads on from where the one before it has stopped and fails
for every flaw that it reads, so a reader that is asked again behind failures stands behind some of
the tokens, and the open elements are those behind them.
-/

namespace ToolSwitch.Schema

open ToolSwitch.Text ToolSwitch.Markup

/-- What is read of steps up to `rest`: any flaw in it is what reading comes to. -/
def Consumes {α : Type} (steps rest : List Step) (result : Except Flaw α) : Prop :=
  ∃ read, steps = read ++ rest ∧
    ∀ step ∈ read, ∀ flaw, step.outcome = .error flaw → result = .error flaw

namespace Consumes

variable {α β : Type} {steps middle rest : List Step} {step : Step} {result : Except Flaw α}

theorem refl (steps : List Step) (result : Except Flaw α) : Consumes steps steps result :=
  ⟨[], rfl, nofun⟩

theorem of_error {flaw : Flaw} (h : step.outcome = .error flaw) (rest : List Step) :
    Consumes (step :: rest) rest (.error flaw : Except Flaw α) := by
  refine ⟨[step], rfl, fun other hm flaw' ho => ?_⟩
  obtain rfl := List.mem_singleton.1 hm
  cases h.symm.trans ho
  rfl

theorem error {flaw : Flaw} (h : Consumes steps rest (.error flaw : Except Flaw α)) :
    Consumes steps rest (.error flaw : Except Flaw β) := by
  obtain ⟨read, hs, hr⟩ := h
  refine ⟨read, hs, fun step hm flaw' ho => ?_⟩
  cases hr step hm flaw' ho
  rfl

theorem cons {node : Option Node} (ho : step.outcome = .ok node)
    (h : Consumes steps rest result) : Consumes (step :: steps) rest result := by
  obtain ⟨read, rfl, hr⟩ := h
  refine ⟨step :: read, rfl, List.forall_mem_cons.2 ⟨fun flaw hf => ?_, hr⟩⟩
  rw [ho] at hf
  cases hf

theorem map (f : α → β) (h : Consumes steps rest result) : Consumes steps rest (f <$> result) := by
  obtain ⟨read, hs, hr⟩ := h
  refine ⟨read, hs, fun step hm flaw ho => ?_⟩
  rw [hr step hm flaw ho]
  rfl

theorem trans {found : β} (h : Consumes steps middle (.ok found : Except Flaw β))
    (h' : Consumes middle rest result) : Consumes steps rest result := by
  obtain ⟨first, rfl, hf⟩ := h
  obtain ⟨second, rfl, hs⟩ := h'
  refine ⟨first ++ second, (List.append_assoc ..).symm, ?_⟩
  refine List.forall_mem_append.2 ⟨fun step hm flaw ho => ?_, hs⟩
  cases hf step hm flaw ho

end Consumes

/-- A pull that reads on from steps of a document with this ending. -/
structure Pull.From {α : Type} (pull : Pull α) (ending : Option Flaw) (steps : List Step) :
    Prop where
  consumes : Consumes steps pull.next.rest.steps pull.result
  ending : pull.next.rest.ending = ending

namespace Pull.From

variable {α β : Type} {pull : Pull α} {ending : Option Flaw} {steps : List Step} {step : Step}

theorem cons {node : Option Node} (ho : step.outcome = .ok node) (h : pull.From ending steps) :
    pull.From ending (step :: steps) :=
  ⟨h.consumes.cons ho, h.ending⟩

theorem map (f : α → β) (h : pull.From ending steps) : (Scan.Pull.map f pull).From ending steps :=
  ⟨h.consumes.map f, h.ending⟩

/-- A pull that goes on with what another has left. -/
theorem trans {other : Pull β} {found : α} (h : pull.From ending steps)
    (hr : pull.result = .ok found)
    (h' : other.From pull.next.rest.ending pull.next.rest.steps) : other.From ending steps := by
  obtain ⟨hc, he⟩ := h
  rw [hr] at hc
  exact ⟨hc.trans h'.consumes, h'.ending.trans he⟩

theorem of_error {flaw : Flaw} (h : pull.From ending steps) (hr : pull.result = .error flaw)
    (notices : List Notice) : (⟨.error flaw, notices, pull.next⟩ : Pull β).From ending steps := by
  obtain ⟨hc, he⟩ := h
  rw [hr] at hc
  exact ⟨hc.error, he⟩

theorem of_ok {found : α} (h : pull.From ending steps) (hr : pull.result = .ok found)
    (result : Except Flaw β) (notices : List Notice) :
    (⟨result, notices, pull.next⟩ : Pull β).From ending steps :=
  h.trans hr ⟨.refl _ _, rfl⟩

end Pull.From

namespace Scan

variable (scan : Scan)

theorem drain_consumes (steps : List Step) :
    Consumes steps (scan.drain steps).2 (scan.drain steps).1 := by
  induction steps with
  | nil => exact .refl ..
  | cons step rest ih =>
    rw [drain]
    cases ho : step.outcome with
    | error flaw => exact .of_error ho rest
    | ok node => exact ih.cons ho

theorem choices_consumes (depth : Nat) (steps : List Step) :
    Consumes steps (scan.choices depth steps).2 (scan.choices depth steps).1 := by
  induction steps with
  | nil => exact .refl ..
  | cons step rest ih =>
    rw [choices]
    cases ho : step.outcome with
    | error flaw => exact .of_error ho rest
    | ok node =>
      rcases node with _ | ⟨element⟩ | ⟨element⟩ | _
      · exact ih.cons ho
      · dsimp only
        split
        · exact (ih.map _).cons ho
        · exact ih.cons ho
      · dsimp only
        split
        · exact (ih.map _).cons ho
        · exact ih.cons ho
      · dsimp only
        split
        · exact (Consumes.refl rest _).cons ho
        · exact ih.cons ho

theorem finish_from (notices : List Notice) (steps : List Step) :
    (scan.finish notices steps).From scan.rest.ending steps := by
  rw [finish_eq]
  exact ⟨(scan.drain_consumes steps).map _, rfl⟩

theorem declare_from (kind : Kind) (element : Element) (depth : Nat) (rest : List Step) :
    (scan.declare kind element depth rest).From scan.rest.ending rest := by
  by_cases hk : kind = .enum
  · subst hk
    rw [declare_enum]
    exact ⟨(scan.choices_consumes depth rest).map _, rfl⟩
  · rw [declare_of_ne_enum scan hk]
    exact ⟨.refl rest _, rfl⟩

theorem advance_from (depth : Nat) (steps : List Step) :
    (scan.advance depth steps).From scan.rest.ending steps := by
  induction steps with
  | nil =>
    rw [advance]
    cases scan.atEnd <;> exact ⟨.refl [] _, rfl⟩
  | cons step rest ih =>
    rw [advance]
    cases ho : step.outcome with
    | error flaw => exact ⟨.of_error ho rest, rfl⟩
    | ok node =>
      rcases node with _ | ⟨element⟩ | ⟨element⟩ | _
      · exact ih.cons ho
      · dsimp only
        split
        · exact (scan.declare_from ..).cons ho
        · exact ih.cons ho
      · dsimp only
        split
        · exact ⟨(Consumes.refl rest _).cons ho, rfl⟩
        · exact ih.cons ho
      · dsimp only
        split
        · exact (finish_from { scan with stage := .finished } _ rest).cons ho
        · exact ih.cons ho

theorem nextProperty_from :
    scan.nextProperty.From scan.rest.ending scan.rest.steps := by
  unfold nextProperty
  split
  · exact scan.advance_from ..
  · exact scan.finish_from ..
  · exact scan.finish_from ..

theorem seek_from (steps : List Step) : (scan.seek steps).From scan.rest.ending steps := by
  induction steps with
  | nil =>
    rw [seek]
    cases scan.atEnd <;> exact ⟨.refl [] _, rfl⟩
  | cons step rest ih =>
    rw [seek]
    cases ho : step.outcome with
    | error flaw => exact ⟨.of_error ho rest, rfl⟩
    | ok node =>
      rcases node with _ | ⟨element⟩ | ⟨element⟩ | _
      · exact ih.cons ho
      · dsimp only
        split
        · exact ⟨(Consumes.refl rest _).cons ho, rfl⟩
        · exact ih.cons ho
      · dsimp only
        split
        · exact ⟨(Consumes.refl rest _).cons ho, rfl⟩
        · exact ih.cons ho
      · exact ih.cons ho

theorem findRule_from : scan.findRule.From scan.rest.ending scan.rest.steps := by
  unfold findRule
  split
  · exact scan.seek_from ..
  · exact ⟨.refl _ _, rfl⟩
  · exact ⟨.refl _ _, rfl⟩

theorem allProperties_from :
    scan.allProperties.From scan.rest.ending scan.rest.steps := by
  fun_induction allProperties scan with
  | case1 scan pull flaw h => exact scan.nextProperty_from.of_error h _
  | case2 scan pull h => exact scan.nextProperty_from.of_ok h _ _
  | case3 scan pull property h more ih =>
    exact scan.nextProperty_from.trans h ⟨ih.consumes.map _, ih.ending⟩

theorem schema_from : scan.schema.From scan.rest.ending scan.rest.steps := by
  unfold schema
  dsimp only
  split
  · next flaw hr => exact scan.findRule_from.of_error hr _
  · next hr => exact scan.findRule_from.of_ok hr _ _
  · next rule hr =>
    have ha := scan.findRule.next.allProperties_from
    exact scan.findRule_from.trans hr ⟨ha.consumes.map _, ha.ending⟩

theorem serve_from (request : Request) :
    (scan.serve request).From scan.rest.ending scan.rest.steps := by
  cases request with
  | rule => exact scan.findRule_from.map _
  | property => exact scan.nextProperty_from.map _
  | schema => exact scan.schema_from.map _

/-- Requests read on from where the first begins, and for each flaw in what they read one fails. -/
theorem after_reads (requests : List Request) :
    (scan.after requests).rest.ending = scan.rest.ending ∧
      ∃ read, scan.rest.steps = read ++ (scan.after requests).rest.steps ∧
        ∀ step ∈ read, ∀ flaw, step.outcome = .error flaw →
          ∃ call ∈ scan.calls requests, call.answer = .error flaw := by
  induction requests generalizing scan with
  | nil => exact ⟨rfl, [], rfl, nofun⟩
  | cons request rest ih =>
    obtain ⟨⟨first, hf, hc⟩, he⟩ := scan.serve_from request
    obtain ⟨hl, others, ho, hr⟩ := ih (scan.serve request).next
    rw [calls_cons, after]
    refine ⟨hl.trans he, first ++ others, ?_, List.forall_mem_append.2 ⟨fun step hm flaw hs => ?_,
      fun step hm flaw hs => ?_⟩⟩
    · rw [hf, ho, List.append_assoc]
    · exact ⟨_, List.mem_cons_self, hc step hm flaw hs⟩
    · obtain ⟨call, hm, hf⟩ := hr step hm flaw hs
      exact ⟨call, List.mem_cons_of_mem _ hm, hf⟩

end Scan

/-- The tokens of a document that a scan has read. -/
def Scan.HasRead (scan : Scan) (bytes : Bytes) (read : List Token) : Prop :=
  ∃ unread, (tokens bytes).list = read ++ unread ∧
    scan.rest = .ofTokens (tokens bytes).stop (Place.start.after read) unread

theorem Scan.HasRead.unique {scan : Scan} {bytes : Bytes} {read other : List Token}
    (h : scan.HasRead bytes read) (h' : scan.HasRead bytes other) : read = other := by
  obtain ⟨unread, hl, hr⟩ := h
  obtain ⟨unread', hl', hr'⟩ := h'
  have hn : unread.length = unread'.length := by
    rw [← Document.length_ofTokens (tokens bytes).stop (Place.start.after read), ← hr, hr',
      Document.length_ofTokens]
  exact (List.append_inj' (hl.symm.trans hl') hn).1

theorem Scan.HasRead.chained {scan : Scan} {bytes : Bytes} {read : List Token}
    (h : scan.HasRead bytes read) : Token.Chained [] read := by
  obtain ⟨unread, hl, -⟩ := h
  have hc : Token.Chained [] (tokens bytes).list := chained_tokensFrom _ [] (dropMark bytes)
  rw [hl] at hc
  exact hc.of_append

/-- Behind requests some of the tokens have been read, and for each that is refused one request has
failed. -/
theorem Scan.hasRead_after (scope : Scope) (bytes : Bytes) (requests : List Request) :
    let scan := start scope (.read bytes)
    ∃ read, (scan.after requests).HasRead bytes read ∧
      ∀ done token more flaw, read = done ++ token :: more →
        ((Place.start.after done).readToken token).1 = .error flaw →
          ∃ call ∈ scan.calls requests, call.answer = .error flaw := by
  intro scan
  obtain ⟨he, front, hs, hf⟩ := scan.after_reads requests
  obtain ⟨read, unread, hl, hd, hr⟩ := Document.ofTokens_split hs
  have hn : (scan.after requests).rest =
      .ofTokens (tokens bytes).stop (Place.start.after read) unread := by
    rw [hd]
    change _ = (⟨_, scan.rest.ending⟩ : Document)
    rw [← he]
  refine ⟨read, ⟨unread, hl, hn⟩, fun done token more flaw hread ht => ?_⟩
  obtain ⟨step, hm, ho⟩ := hr done token more hread
  exact hf step hm flaw (ho.trans ht)

/-- However often a reader is asked, its names are those of the start tags that wait in the lexer,
up to a token that some request fails at and that takes the two apart. -/
theorem stacks_after (scope : Scope) (bytes : Bytes) (requests : List Scan.Request) :
    let scan := Scan.start scope (.read bytes)
    ∃ read, (∀ other, (scan.after requests).HasRead bytes other ↔ other = read) ∧
      ((Place.start.after read).Matches (Token.held [] read) ∨
        ∃ done token more flaw, read = done ++ token :: more ∧
          (∃ call ∈ scan.calls requests, call.answer = .error flaw) ∧
          (Place.start.after done).Matches (Token.held [] done) ∧
          (Place.start.after done).Parts (Token.held [] done) token flaw) := by
  intro scan
  obtain ⟨read, hh, hf⟩ := Scan.hasRead_after scope bytes requests
  have hu : ∀ other, (scan.after requests).HasRead bytes other ↔ other = read :=
    fun other => ⟨fun ho => ho.unique hh, fun ho => ho ▸ hh⟩
  have hs : Place.start.Matches [] := rfl
  refine ⟨read, hu, (hs.after hh.chained).imp_right ?_⟩
  rintro ⟨done, token, more, flaw, hr, hm, hp⟩
  exact ⟨done, token, more, flaw, hr, hf done token more flaw hr hp.outcome, hm, hp⟩

/-- The start tag of `b` is refused, so its end tag takes `a` off the reader's names, and a reader
that is asked again does not miss the end tag of `a`. -/
theorem stacks_apart_behind_refused_start :
    let bytes := Utf8.encode "<a><b c=\"1\" c=\"1\"></b>"
    let scan := Scan.start .document (.read bytes)
    (scan.after [.rule, .rule]).HasRead bytes (tokens bytes).list ∧
      (scan.serve .rule).next.findRule.result.toOption = some none ∧
      (Place.start.after (tokens bytes).list).path = [] ∧
      (Token.held [] (tokens bytes).list).map Name.text = ["a"] := by
  intro bytes scan
  have hs : (scan.after [.rule, .rule]).rest.steps = [] :=
    List.length_eq_zero_iff.1 (by decide +kernel)
  have he : (scan.after [.rule, .rule]).rest.ending = none := by decide +kernel
  have hp : (Place.start.after (tokens bytes).list).path = [] := by decide +kernel
  refine ⟨⟨[], (List.append_nil _).symm, ?_⟩, by decide +kernel, hp, by decide +kernel⟩
  rw [Document.ofTokens, hp, List.head?_nil, Option.map_none, ← hs, ← he]

end ToolSwitch.Schema
