import ToolSwitch.Proofs.Markup.Forest

/-!
The steps of a document without a flaw, against its element tree.  Every start tag has its end tag,
so the nodes spell exactly one forest.
-/

namespace ToolSwitch.Markup

def Step.node? (step : Step) : Option Node :=
  match step.outcome with
  | .ok node => node
  | .error _ => none

namespace Document

def nodes (document : Document) : List Node :=
  document.steps.filterMap Step.node?

/-- No step has met a flaw and nothing is left open. -/
structure Clean (document : Document) : Prop where
  steps : ∀ step ∈ document.steps, ∃ node, step.outcome = .ok node
  ending : document.ending = none

end Document

/-- Steps from inside `depth` open elements to the end.  They read a forest up to the next end tag
that is not part of it, and then one behind each of the open elements, innermost first. -/
inductive Reads : Nat → List Step → Forest → List Forest → Prop where
  | nil : Reads 0 [] .nil []
  | aside {depth : Nat} {step : Step} {rest : List Step} {here : Forest} {outer : List Forest} :
      step.outcome = .ok none → Reads depth rest here outer →
      Reads depth (step :: rest) here outer
  | empty {depth : Nat} {step : Step} {rest : List Step} {element : Element} {here : Forest}
      {outer : List Forest} :
      step.outcome = .ok (some (.empty element)) → step.depth = depth →
      Reads depth rest here outer →
      Reads depth (step :: rest) (.cons element .nil here) outer
  | closed {depth : Nat} {step : Step} {rest : List Step} {here : Forest} {outer : List Forest} :
      step.outcome = .ok (some .closed) → step.depth = depth →
      Reads depth rest here outer →
      Reads (depth + 1) (step :: rest) .nil (here :: outer)
  | opened {depth : Nat} {step : Step} {rest : List Step} {element : Element}
      {inside after : Forest} {outer : List Forest} :
      step.outcome = .ok (some (.opened element)) → step.depth = depth + 1 →
      Reads (depth + 1) rest inside (after :: outer) →
      Reads depth (step :: rest) (.cons element inside after) outer

namespace Reads

theorem length {depth : Nat} {steps : List Step} {here : Forest} {outer : List Forest}
    (h : Reads depth steps here outer) : outer.length = depth := by
  induction h with
  | nil => rfl
  | aside _ _ ih | empty _ _ _ ih => exact ih
  | closed _ _ _ ih => rw [List.length_cons, ih]
  | opened _ _ _ ih => simpa using ih

end Reads

/-- Nodes that spell forests one after the other, each behind an end tag. -/
inductive SpellsBehind : List Forest → List Node → Prop where
  | nil : SpellsBehind [] []
  | cons {forest : Forest} {outer : List Forest} {content rest : List Node} :
      forest.Spells content → SpellsBehind outer rest →
      SpellsBehind (forest :: outer) (.closed :: (content ++ rest))

theorem Reads.spells {depth : Nat} {steps : List Step} {here : Forest} {outer : List Forest}
    (h : Reads depth steps here outer) :
    ∃ content rest, steps.filterMap Step.node? = content ++ rest ∧ here.Spells content ∧
      SpellsBehind outer rest := by
  induction h with
  | nil => exact ⟨[], [], rfl, .nil, .nil⟩
  | aside ho _ ih => simpa [Step.node?, ho] using ih
  | empty ho _ _ ih =>
    obtain ⟨content, rest, hs, hh, hb⟩ := ih
    exact ⟨_, rest, by simp [Step.node?, ho, hs], .empty hh, hb⟩
  | closed ho _ _ ih =>
    obtain ⟨content, rest, hs, hh, hb⟩ := ih
    exact ⟨[], _, by simp [Step.node?, ho, hs], .nil, .cons hh hb⟩
  | opened ho _ _ ih =>
    obtain ⟨content, rest, hs, hh, hb⟩ := ih
    cases hb with
    | cons ha hb => exact ⟨_, _, by simp [Step.node?, ho, hs], .opened hh ha, hb⟩

theorem Reads.spells_root {depth : Nat} {steps : List Step} {root : Forest}
    (h : Reads depth steps root []) : root.Spells (steps.filterMap Step.node?) := by
  obtain ⟨content, rest, hs, hr, hb⟩ := h.spells
  cases hb
  rw [hs, List.append_nil]
  exact hr

namespace Forest

/-- What nodes spell, read from the last to the first: a forest up to the next end tag that is not
part of it, and the forests behind the end tags of that kind. -/
def ofNodes : List Node → Forest × List Forest
  | [] => (.nil, [])
  | .empty element :: rest => (.cons element .nil (ofNodes rest).1, (ofNodes rest).2)
  | .closed :: rest => (.nil, (ofNodes rest).1 :: (ofNodes rest).2)
  | .opened element :: rest =>
    (.cons element (ofNodes rest).1 ((ofNodes rest).2.headD .nil), (ofNodes rest).2.tail)

theorem Spells.ofNodes_append {forest : Forest} {nodes : List Node} (h : forest.Spells nodes)
    (rest : List Node) :
    ofNodes (nodes ++ rest) = (forest.append (ofNodes rest).1, (ofNodes rest).2) := by
  induction h generalizing rest with
  | nil => rfl
  | empty _ ih => simp [ofNodes, ih, append]
  | opened _ _ ihi iha => simp [ofNodes, ihi, iha, append, append_nil]

theorem Spells.unique {forest other : Forest} {nodes : List Node} (h : forest.Spells nodes)
    (h' : other.Spells nodes) : forest = other := by
  have he := h.ofNodes_append []
  have he' := h'.ofNodes_append []
  simpa [ofNodes, append_nil] using congrArg Prod.fst (he.symm.trans he')

end Forest

/-- How an event moves the start tags that wait for their end tag. -/
def Event.Nests (waiting next : List Name) : Event → Prop
  | .startTag tag => next = tag.name :: waiting
  | .endTag => ∃ name, waiting = name :: next
  | .emptyTag _ | .text _ | .cdata | .aside => next = waiting

/-- The lexer lets an end tag through only where a start tag waits for it. -/
theorem Construct.toToken_nests {construct : Construct} {waiting : List Name} {first last : Nat}
    {event : Event} (h : (construct.toToken waiting first last).event = .ok event) :
    event.Nests waiting (construct.toToken waiting first last).waiting := by
  cases construct with
  | endTag name =>
    cases waiting with
    | nil => cases h
    | cons innermost outer =>
      rw [toToken] at h ⊢
      by_cases hn : name = innermost
      · rw [if_pos hn] at h ⊢
        cases h
        exact ⟨innermost, rfl⟩
      · rw [if_neg hn] at h
        cases h
  | doctype named =>
    cases named with
    | false => cases h
    | true => cases h; rfl
  | startTag | emptyTag | cdata | comment | instruction => cases h; rfl

theorem Place.read_eq_ok {place : Place} {event : Event} {node : Option Node}
    (h : (place.read event).1 = .ok node) :
    match event with
    | .startTag tag => (∃ element, node = some (.opened element)) ∧
        (place.read event).2.path = tag.name.text :: place.path
    | .emptyTag _ => (∃ element, node = some (.empty element)) ∧
        (place.read event).2.path = place.path
    | .endTag => node = some .closed ∧ (place.read event).2.path = place.path.tail
    | .text _ | .cdata | .aside => node = none ∧ (place.read event).2.path = place.path := by
  cases event with
  | startTag tag =>
    simp only [read] at h ⊢
    cases hr : place.checkRoot tag with
    | error defect => simp [hr] at h
    | ok _ =>
      cases he : tag.toElement with
      | error defect => simp [hr, he] at h
      | ok element =>
        simp only [hr, he, Except.ok.injEq] at h ⊢
        exact ⟨⟨element, h.symm⟩, rfl⟩
  | emptyTag tag =>
    simp only [read] at h ⊢
    cases hr : place.checkRoot tag with
    | error defect => simp [hr] at h
    | ok _ =>
      cases he : tag.toElement with
      | error defect => simp [hr, he, Functor.map, Except.map] at h
      | ok element =>
        simp only [hr, he, Functor.map, Except.map, Except.ok.injEq] at h
        exact ⟨⟨element, h.symm⟩, rfl⟩
  | endTag =>
    cases h
    exact ⟨rfl, rfl⟩
  | text raw =>
    simp only [read] at h ⊢
    cases hc : place.checkText raw with
    | error defect => simp [hc, Functor.map, Except.map] at h
    | ok _ => simpa [hc, Functor.map, Except.map, eq_comm] using h
  | cdata =>
    simp only [read] at h ⊢
    cases hc : place.checkCdata with
    | error defect => simp [hc, Functor.map, Except.map] at h
    | ok _ => simpa [hc, Functor.map, Except.map, eq_comm] using h
  | aside =>
    cases h
    exact ⟨rfl, rfl⟩

/-- The reader's open elements keep pace with the lexer's start tags. -/
theorem Place.read_nests {place : Place} {event : Event} {node : Option Node}
    {waiting next : List Name} (h : (place.read event).1 = .ok node)
    (hn : event.Nests waiting next) (hp : place.path.length = waiting.length) :
    (place.read event).2.path.length = next.length := by
  have ho := read_eq_ok h
  cases event with
  | startTag tag =>
    obtain rfl := hn
    rw [ho.2, List.length_cons, List.length_cons, hp]
  | endTag =>
    obtain ⟨name, rfl⟩ := hn
    rw [ho.2, List.length_tail, hp, List.length_cons, Nat.add_sub_cancel]
  | emptyTag | text | cdata | aside =>
    obtain rfl := hn
    rw [ho.2, hp]

theorem Reads.cons {place : Place} {event : Event} {node : Option Node}
    {waiting next : List Name} {steps : List Step} (h : (place.read event).1 = .ok node)
    (hn : event.Nests waiting next) (hp : place.path.length = waiting.length)
    (hs : ∃ here outer, Reads (place.read event).2.path.length steps here outer) :
    ∃ here outer,
      Reads place.path.length (⟨.ok node, (place.read event).2.path⟩ :: steps) here outer := by
  have ho := Place.read_eq_ok h
  obtain ⟨here, outer, hs⟩ := hs
  cases event with
  | startTag tag =>
    obtain ⟨⟨element, rfl⟩, ho⟩ := ho
    rw [ho, List.length_cons] at hs
    rw [ho]
    obtain ⟨after, outer, rfl⟩ := List.exists_cons_of_length_eq_add_one hs.length
    exact ⟨_, _, .opened rfl rfl hs⟩
  | endTag =>
    obtain ⟨name, rfl⟩ := hn
    obtain ⟨rfl, ho⟩ := ho
    have hl : place.path.length = (place.read .endTag).2.path.length + 1 := by
      rw [ho, List.length_tail, hp, List.length_cons, Nat.add_sub_cancel]
    rw [hl]
    exact ⟨_, _, .closed rfl rfl hs⟩
  | emptyTag tag =>
    obtain ⟨⟨element, rfl⟩, ho⟩ := ho
    rw [ho] at hs ⊢
    exact ⟨_, _, .empty rfl rfl hs⟩
  | text | cdata | aside =>
    obtain ⟨rfl, ho⟩ := ho
    rw [ho] at hs ⊢
    exact ⟨_, _, .aside rfl hs⟩

theorem Document.clean_cons {step : Step} {document : Document} :
    (document.cons step).Clean ↔ (∃ node, step.outcome = .ok node) ∧ document.Clean := by
  constructor
  · rintro ⟨hs, he⟩
    obtain ⟨h, hs⟩ := List.forall_mem_cons.1 hs
    exact ⟨h, hs, he⟩
  · rintro ⟨h, hs, he⟩
    exact ⟨List.forall_mem_cons.2 ⟨h, hs⟩, he⟩

theorem Reads.ofToken {place : Place} {waiting : List Name} {token : Token} {stop : Nat}
    {rest : List Token} (hp : place.path.length = waiting.length)
    (hn : ∀ event, token.event = .ok event → event.Nests waiting token.waiting)
    (hc : (Document.ofTokens stop place (token :: rest)).Clean)
    (ih : ∀ next : Place, next.path.length = token.waiting.length →
      (Document.ofTokens stop next rest).Clean →
      ∃ here outer, Reads next.path.length (Document.ofTokens stop next rest).steps here outer) :
    ∃ here outer,
      Reads place.path.length (Document.ofTokens stop place (token :: rest)).steps here outer := by
  rw [Document.ofTokens] at hc ⊢
  cases he : token.event with
  | error fault =>
    simp only [Place.readToken, he, Document.clean_cons] at hc
    obtain ⟨⟨node, h⟩, -⟩ := hc
    cases h
  | ok event =>
    simp only [Place.readToken, he, Document.clean_cons] at hc ⊢
    obtain ⟨⟨node, ho⟩, hc⟩ := hc
    cases hr : (place.read event).1 with
    | error defect =>
      rw [hr] at ho
      cases ho
    | ok node =>
      have hl := Place.read_nests hr (hn event he) hp
      exact Reads.cons hr (hn event he) hp (ih _ hl hc)

theorem Reads.ofEnd {place : Place} {stop : Nat} (h : (Document.ofTokens stop place []).Clean) :
    ∃ here outer,
      Reads place.path.length (Document.ofTokens stop place []).steps here outer := by
  have hn : place.path = [] := by
    cases hp : place.path with
    | nil => rfl
    | cons name outer => simpa [Document.ofTokens, hp] using h.ending
  rw [hn]
  exact ⟨_, _, .nil⟩

theorem reads_tokensFrom {size stop : Nat} {waiting : List Name} {bytes : List UInt8}
    {place : Place} (hp : place.path.length = waiting.length)
    (hc : (Document.ofTokens stop place (tokensFrom size waiting bytes).list).Clean) :
    ∃ here outer, Reads place.path.length
      (Document.ofTokens stop place (tokensFrom size waiting bytes).list).steps here outer := by
  -- the lexer and the reader go in step, so what is generalized is the place
  fun_induction tokensFrom size waiting bytes generalizing place with
  | case1 => exact Reads.ofEnd hc
  | case2 =>
    exact Reads.ofToken hp (fun event he => nomatch he) hc fun next hl hc => Reads.ofEnd hc
  | case3 =>
    rename_i ih
    exact Reads.ofToken hp (fun event he => Construct.toToken_nests he) hc fun next hl hc =>
      ih hl hc
  | case4 =>
    rename_i ih
    exact Reads.ofToken hp (fun event he => by cases he; rfl) hc fun next hl hc => ih hl hc

theorem Document.Clean.reads {bytes : List UInt8} (h : (Document.read bytes).Clean) :
    ∃ root, Reads 0 (Document.read bytes).steps root [] := by
  obtain ⟨root, outer, hr⟩ := @reads_tokensFrom _ _ [] _ .start rfl h
  obtain rfl := List.length_eq_zero_iff.1 hr.length
  exact ⟨root, hr⟩

end ToolSwitch.Markup
