import ToolSwitch.Proofs.Markup.Forest
import ToolSwitch.Schema.Scan
import Mathlib.Tactic.SplitIfs

/-!
What the element tree of a document declares: which elements are taken for properties of a rule, and
what each of them says.
-/

namespace ToolSwitch.Schema

open ToolSwitch.Markup

namespace Outline

def named (name : String) (occurrence : Occurrence) : Bool :=
  occurrence.element.name = Name.ofString name

def ruleOf (occurrence : Occurrence) : Rule :=
  ⟨occurrence.element.attribute? "Name", occurrence.element.attribute? "SwitchPrefix"⟩

def choiceOf (occurrence : Occurrence) : Choice :=
  ⟨occurrence.element.attribute? "Name", occurrence.element.attribute? "Switch"⟩

def choicesAmong (occurrences : List Occurrence) : List Choice :=
  (occurrences.filter (named "EnumValue")).map choiceOf

/-- What an element declares by its own attributes and, in an enum property, by what is inside. -/
def declaration? (occurrence : Occurrence) : Option Property :=
  let value := occurrence.element.attribute?
  let info : Info := ⟨value "Name", value "DisplayName", value "Description"⟩
  if named "StringListProperty" occurrence then some ⟨info, .stringList (value "Switch")⟩
  else if named "BoolProperty" occurrence then
    some ⟨info, .bool (value "Switch") (value "ReverseSwitch")⟩
  else if named "IntProperty" occurrence then some ⟨info, .int (value "Switch")⟩
  else if named "EnumProperty" occurrence then
    some ⟨info, .enum (choicesAmong occurrence.descendants)⟩
  else none

/-- Whether an element starts where a rule's properties are looked for: behind the rule's start tag
or, in the narrow scope, inside the rule. -/
def InReach (scope : Scope) (rule occurrence : Occurrence) : Prop :=
  match scope with
  | .document => rule.position < occurrence.position
  | .rule => occurrence ∈ rule.descendants

/-- Some elements of a list that are just its properties, except that nothing inside an enum
property among them is one. -/
structure Settled (all found : List Occurrence) : Prop where
  sublist : found.Sublist all
  mem_iff : ∀ occurrence ∈ all, occurrence ∈ found ↔
    (declaration? occurrence).isSome ∧
      ∀ outer ∈ found, named "EnumProperty" outer → occurrence ∉ outer.descendants

/-- The elements of a tree that declare the properties of a rule. -/
structure Declares (scope : Scope) (root : Forest) (rule : Occurrence) (found : List Occurrence) :
    Prop where
  sublist : found.Sublist root.occurrences
  mem_iff : ∀ occurrence ∈ root.occurrences, occurrence ∈ found ↔
    (declaration? occurrence).isSome ∧ InReach scope rule occurrence ∧
      ∀ outer ∈ found, named "EnumProperty" outer → occurrence ∉ outer.descendants

section

variable {scope : Scope} {root : Forest} {rule : Occurrence} {found others : List Occurrence}

theorem Declares.mem_congr (h : Declares scope root rule found)
    (h' : Declares scope root rule others) {occurrence : Occurrence}
    (ho : occurrence ∈ root.occurrences) : occurrence ∈ found ↔ occurrence ∈ others := by
  -- an enum property around an element starts before it, so the induction is on positions
  induction hn : occurrence.position using Nat.strongRecOn generalizing occurrence with
  | ind n ih =>
    have ha : ∀ outer ∈ root.occurrences, occurrence ∈ outer.descendants →
        (outer ∈ found ↔ outer ∈ others) := fun outer hm hd =>
      ih outer.position (hn ▸ (Occurrence.position_of_mem_descendants hd).1) hm rfl
    rw [h.mem_iff _ ho, h'.mem_iff _ ho]
    refine and_congr_right fun _ => and_congr_right fun _ => ⟨fun hf => ?_, fun hf => ?_⟩
    · intro outer hm he hd
      exact hf outer ((ha outer (h'.sublist.subset hm) hd).2 hm) he hd
    · intro outer hm he hd
      exact hf outer ((ha outer (h.sublist.subset hm) hd).1 hm) he hd

theorem Declares.unique (h : Declares scope root rule found)
    (h' : Declares scope root rule others) : found = others := by
  have hp : found.Pairwise (·.position < ·.position) :=
    (Forest.pairwise_occurrencesFrom 0 root).sublist h.sublist
  have hp' : others.Pairwise (·.position < ·.position) :=
    (Forest.pairwise_occurrencesFrom 0 root).sublist h'.sublist
  have hd : ∀ {l : List Occurrence}, l.Pairwise (·.position < ·.position) → l.Nodup := fun hl =>
    hl.imp fun {a b} (hab : a.position < b.position) (he : a = b) => by simp [he] at hab
  refine List.Perm.eq_of_pairwise (fun a b _ _ hab hba => absurd hab (Nat.lt_asymm hba)) hp hp' ?_
  rw [List.perm_ext_iff_of_nodup (hd hp) (hd hp')]
  refine fun occurrence => ⟨fun hm => ?_, fun hm => ?_⟩
  · exact (h.mem_congr h' (h.sublist.subset hm)).1 hm
  · exact (h.mem_congr h' (h'.sublist.subset hm)).2 hm

end

/-- What a tree says about the schema of its document: there is none if no element is a rule, and
else it is that of the first rule in document order, with the declarations in its reach. -/
structure Fits (scope : Scope) (root : Forest) (schema : Option RuleSchema) : Prop where
  none_iff : schema = none ↔
    ∀ occurrence ∈ root.occurrences, occurrence.element.name ≠ Name.ofString "Rule"
  of_rule : ∀ rule, root.occurrences.find? (named "Rule") = some rule →
    ∃ found, Declares scope root rule found ∧
      schema = some ⟨ruleOf rule, found.filterMap declaration?⟩

theorem Fits.unique {scope : Scope} {root : Forest} {schema other : Option RuleSchema}
    (h : Fits scope root schema) (h' : Fits scope root other) : schema = other := by
  cases hf : root.occurrences.find? (named "Rule") with
  | none =>
    have hn : ∀ occurrence ∈ root.occurrences,
        occurrence.element.name ≠ Name.ofString "Rule" := by
      simpa [named] using hf
    rw [h.none_iff.2 hn, h'.none_iff.2 hn]
  | some rule =>
    obtain ⟨found, hd, rfl⟩ := h.of_rule rule hf
    obtain ⟨others, hd', rfl⟩ := h'.of_rule rule hf
    rw [hd.unique hd']

/-- The properties that a scan finds from a start tag on: it passes over what is inside an enum
property and looks into every other element. -/
def dispatched (n : Nat) : Forest → List Occurrence
  | .nil => []
  | .cons element inside after =>
    let first : Occurrence := ⟨n, element, inside⟩
    if named "EnumProperty" first then first :: dispatched (n + inside.size + 1) after
    else if (declaration? first).isSome then
      first :: (dispatched (n + 1) inside ++ dispatched (n + inside.size + 1) after)
    else dispatched (n + 1) inside ++ dispatched (n + inside.size + 1) after

theorem dispatched_append (n : Nat) (forest other : Forest) :
    dispatched n (forest.append other) =
      dispatched n forest ++ dispatched (n + forest.size) other := by
  induction forest generalizing n with
  | nil => rfl
  | cons element inside after _ ih =>
    have hn : n + inside.size + 1 + after.size = n + (inside.size + after.size + 1) := by omega
    simp only [Forest.append, dispatched, Forest.size, ih, hn]
    split
    · rfl
    · split <;> simp

/-- One element that ends before another starts is neither that nor around it nor inside it. -/
theorem apart {first second : Occurrence}
    (h : first.position + first.inside.size < second.position) :
    first ≠ second ∧ first ∉ second.descendants ∧ second ∉ first.descendants := by
  refine ⟨?_, fun hm => ?_, fun hm => ?_⟩
  · rintro rfl
    omega
  · have := Occurrence.position_of_mem_descendants hm
    omega
  · have := Occurrence.position_of_mem_descendants hm
    omega

namespace Settled

theorem nil : Settled [] [] :=
  ⟨List.Sublist.refl _, by simp⟩

theorem append {first second found others : List Occurrence} (hf : Settled first found)
    (hs : Settled second others)
    (h : ∀ x ∈ first, ∀ y ∈ second, x.position + x.inside.size < y.position) :
    Settled (first ++ second) (found ++ others) := by
  refine ⟨hf.sublist.append hs.sublist, fun o ho => ?_⟩
  obtain ho | ho := List.mem_append.1 ho
  · have hn : ∀ y ∈ others, o ≠ y ∧ o ∉ y.descendants := fun y hy =>
      let ha := apart (h o ho y (hs.sublist.subset hy))
      ⟨ha.1, ha.2.1⟩
    have hm : o ∈ found ++ others ↔ o ∈ found := by
      simp only [List.mem_append, or_iff_left_iff_imp]
      exact fun hy => absurd rfl (hn o hy).1
    rw [hm, hf.mem_iff o ho]
    simp only [List.forall_mem_append]
    exact and_congr_right fun _ => ⟨fun hd => ⟨hd, fun y hy _ => (hn y hy).2⟩, And.left⟩
  · have hn : ∀ x ∈ found, x ≠ o ∧ o ∉ x.descendants := fun x hx =>
      let ha := apart (h x (hf.sublist.subset hx) o ho)
      ⟨ha.1, ha.2.2⟩
    have hm : o ∈ found ++ others ↔ o ∈ others := by
      simp only [List.mem_append, or_iff_right_iff_imp]
      exact fun hx => absurd rfl (hn o hx).1
    rw [hm, hs.mem_iff o ho]
    simp only [List.forall_mem_append]
    exact and_congr_right fun _ => ⟨fun hd => ⟨fun x hx _ => (hn x hx).2, hd⟩, And.right⟩

theorem enum {first : Occurrence} (hn : named "EnumProperty" first)
    (hd : (declaration? first).isSome) : Settled (first :: first.descendants) [first] := by
  have hs : first ∉ first.descendants := fun hm =>
    absurd (Occurrence.position_of_mem_descendants hm).1 (Nat.lt_irrefl _)
  refine ⟨(List.nil_sublist _).cons_cons _, fun o ho => ?_⟩
  simp only [List.mem_singleton, forall_eq, hn, forall_const]
  obtain rfl | ho := List.mem_cons.1 ho
  · simp [hd, hs]
  · have he : o ≠ first := fun he => hs (he ▸ ho)
    simp [he, ho]

section

variable {first : Occurrence} {rest found : List Occurrence}

theorem cons_of_none (hs : Settled rest found) (h : ∀ y ∈ rest, first.position < y.position)
    (hd : (declaration? first).isSome = false) : Settled (first :: rest) found := by
  refine ⟨hs.sublist.cons _, List.forall_mem_cons.2 ⟨?_, hs.mem_iff⟩⟩
  have hn : first ∉ found := fun hm =>
    absurd (h first (hs.sublist.subset hm)) (Nat.lt_irrefl _)
  simp [hn, hd]

theorem cons_of_some (hs : Settled rest found) (h : ∀ y ∈ rest, first.position < y.position)
    (hn : named "EnumProperty" first = false) (hd : (declaration? first).isSome) :
    Settled (first :: rest) (first :: found) := by
  refine ⟨hs.sublist.cons_cons _, List.forall_mem_cons.2 ⟨?_, fun o ho => ?_⟩⟩
  · have hf : ∀ y ∈ found, first ∉ y.descendants := fun y hy hm => by
      have := h y (hs.sublist.subset hy)
      have := Occurrence.position_of_mem_descendants hm
      omega
    refine iff_of_true List.mem_cons_self ⟨hd, List.forall_mem_cons.2 ⟨?_, fun y hy _ => hf y hy⟩⟩
    simp [hn]
  · have he : o ≠ first := fun he => absurd (h o ho) (by rw [he]; exact Nat.lt_irrefl _)
    rw [List.mem_cons, or_iff_right he, hs.mem_iff o ho, List.forall_mem_cons, hn]
    simp

end

end Settled

theorem isSome_declaration? {occurrence : Occurrence}
    (h : named "EnumProperty" occurrence) : (declaration? occurrence).isSome := by
  unfold declaration?
  simp only [h]
  split_ifs <;> rfl

theorem settled_dispatched (n : Nat) (forest : Forest) :
    Settled (forest.occurrencesFrom n) (dispatched n forest) := by
  induction forest generalizing n with
  | nil => exact .nil
  | cons element inside after ihi iha =>
    have hi := ihi (n + 1)
    have ha := iha (n + inside.size + 1)
    have hp : ∀ y ∈ after.occurrencesFrom (n + inside.size + 1), n + inside.size < y.position :=
      fun y hy => by have := Forest.position_bounds hy; omega
    have hb : Settled
        (inside.occurrencesFrom (n + 1) ++ after.occurrencesFrom (n + inside.size + 1))
        (dispatched (n + 1) inside ++ dispatched (n + inside.size + 1) after) :=
      hi.append ha fun x hx y hy => by
        have := Forest.position_bounds hx
        have := hp y hy
        omega
    have hr : ∀ y ∈ inside.occurrencesFrom (n + 1) ++
        after.occurrencesFrom (n + inside.size + 1), n < y.position := by
      simp only [List.mem_append]
      rintro y (hy | hy)
      · have := Forest.position_bounds hy; omega
      · have := hp y hy; omega
    rw [dispatched, Forest.occurrencesFrom]
    split
    · next he =>
      exact (Settled.enum he (isSome_declaration? he)).append ha fun x hx y hy => by
        have := hp y hy
        obtain rfl | hx := List.mem_cons.1 hx
        · exact this
        · have := Forest.position_bounds hx
          dsimp only at this
          omega
    · next he =>
      split
      · next hd => exact hb.cons_of_some hr (by simpa using he) hd
      · next hd => exact hb.cons_of_none hr (by simpa using hd)

end Outline

end ToolSwitch.Schema
