import ToolSwitch.Markup.Document

/-!
The element tree of a document: elements side by side, each with the elements inside it, and where
each of them stands in document order.
-/

namespace ToolSwitch.Markup

inductive Forest where
  | nil
  | cons (element : Element) (inside after : Forest)

/-- An element in its forest: how many elements start before it, and what is inside it. -/
structure Occurrence where
  position : Nat
  element : Element
  inside : Forest

namespace Forest

def size : Forest → Nat
  | .nil => 0
  | .cons _ inside after => inside.size + after.size + 1

/-- The elements in the order of their start tags, the first of them at position `n`. -/
def occurrencesFrom (n : Nat) : Forest → List Occurrence
  | .nil => []
  | .cons element inside after =>
    ⟨n, element, inside⟩ ::
      (inside.occurrencesFrom (n + 1) ++ after.occurrencesFrom (n + inside.size + 1))

def occurrences (forest : Forest) : List Occurrence :=
  forest.occurrencesFrom 0

def append : Forest → Forest → Forest
  | .nil, other => other
  | .cons element inside after, other => .cons element inside (after.append other)

theorem append_nil (forest : Forest) : forest.append .nil = forest := by
  induction forest with
  | nil => rfl
  | cons element inside after _ ih => rw [append, ih]

theorem occurrencesFrom_append (n : Nat) (forest other : Forest) :
    (forest.append other).occurrencesFrom n =
      forest.occurrencesFrom n ++ other.occurrencesFrom (n + forest.size) := by
  induction forest generalizing n with
  | nil => rfl
  | cons element inside after _ ih =>
    have hn : n + inside.size + 1 + after.size = n + (inside.size + after.size + 1) := by omega
    simp [append, occurrencesFrom, size, ih, hn]

def join (forests : List Forest) : Forest :=
  forests.foldr append .nil

theorem join_cons (forest : Forest) (rest : List Forest) :
    join (forest :: rest) = forest.append (join rest) :=
  rfl

theorem map_position_occurrencesFrom (n : Nat) (forest : Forest) :
    (forest.occurrencesFrom n).map Occurrence.position = List.range' n forest.size := by
  induction forest generalizing n with
  | nil => rfl
  | cons element inside after ihi iha =>
    have hn : n + inside.size + 1 = n + 1 + inside.size := by omega
    rw [occurrencesFrom, List.map_cons, List.map_append, ihi, iha, hn, List.range'_append_1, size,
      List.range'_succ]

/-- Positions tell the elements of a forest apart and follow document order. -/
theorem pairwise_occurrencesFrom (n : Nat) (forest : Forest) :
    (forest.occurrencesFrom n).Pairwise (·.position < ·.position) := by
  have h : (List.range' n forest.size).Pairwise (· < ·) := List.pairwise_lt_range'
  rwa [← map_position_occurrencesFrom, List.pairwise_map] at h

theorem position_bounds {n : Nat} {forest : Forest} {occurrence : Occurrence}
    (h : occurrence ∈ forest.occurrencesFrom n) :
    n ≤ occurrence.position ∧
      occurrence.position + occurrence.inside.size < n + forest.size := by
  induction forest generalizing n with
  | nil => cases h
  | cons element inside after ihi iha =>
    rw [occurrencesFrom, List.mem_cons, List.mem_append] at h
    rw [size]
    obtain rfl | h | h := h
    · exact ⟨Nat.le_refl n, by dsimp only; omega⟩
    · have := ihi h; omega
    · have := iha h; omega

/-- The nodes that a forest is written with.  An element with nothing inside may be written with one
tag or with two. -/
inductive Spells : Forest → List Node → Prop where
  | nil : Spells .nil []
  | empty {element : Element} {after : Forest} {rest : List Node} :
      Spells after rest → Spells (.cons element .nil after) (.empty element :: rest)
  | opened {element : Element} {inside after : Forest} {content rest : List Node} :
      Spells inside content → Spells after rest →
      Spells (.cons element inside after) (.opened element :: content ++ .closed :: rest)

end Forest

namespace Occurrence

/-- The elements inside an element, at any depth. -/
def descendants (occurrence : Occurrence) : List Occurrence :=
  occurrence.inside.occurrencesFrom (occurrence.position + 1)

theorem position_of_mem_descendants {occurrence outer : Occurrence}
    (h : occurrence ∈ outer.descendants) :
    outer.position < occurrence.position ∧
      occurrence.position ≤ outer.position + outer.inside.size := by
  have := Forest.position_bounds h
  omega

end Occurrence

end ToolSwitch.Markup
