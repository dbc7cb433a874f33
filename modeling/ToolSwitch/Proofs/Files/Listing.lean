import Mathlib.Data.List.Nodup
import Mathlib.Data.List.Perm.Basic
import ToolSwitch.Proofs.Files.Leads

/-!
What is in a folder, and that the order in which a tree holds its entries makes no difference.
-/

namespace ToolSwitch.Files

namespace FileTree

/-- Each entry is held once, and under names that entries can have, and the working folder is
there. -/
structure Proper (tree : FileTree) : Prop where
  once : (tree.entries.map Prod.fst).Nodup
  names : ∀ place ∈ tree.entries.map Prod.fst, ∀ name ∈ place, Path.IsProper name
  working : tree.Rooted tree.working

variable {tree other : FileTree} {place : List String} {entry : Entry} {name : String}

instance : Decidable tree.Proper :=
  decidable_of_iff ((tree.entries.map Prod.fst).Nodup ∧
      (∀ place ∈ tree.entries.map Prod.fst, ∀ name ∈ place, Path.IsProper name) ∧
      tree.Rooted tree.working)
    ⟨fun ⟨once, names, working⟩ => ⟨once, names, working⟩, fun h => ⟨h.once, h.names, h.working⟩⟩

theorem mem_keys (h : tree.get? place = some entry) (hp : place ≠ []) :
    place ∈ tree.entries.map Prod.fst := by
  rw [get?, if_neg hp] at h
  obtain ⟨before, after, he, -⟩ := List.lookup_eq_some_iff.1 h
  rw [he]
  simp

/-- The name of an entry of a folder, if what lies at a place is one. -/
def nameIn? (folder place : List String) : Option String :=
  if place.dropLast = folder then place.getLast? else none

theorem nameIn?_eq_some_iff {folder : List String} :
    nameIn? folder place = some name ↔ place = folder ++ [name] := by
  constructor
  · intro h
    obtain ⟨hd, hl⟩ := Option.ite_none_right_eq_some.1 h
    obtain ⟨init, rfl⟩ := List.getLast?_eq_some_iff.1 hl
    rw [List.dropLast_concat] at hd
    rw [hd]
  · rintro rfl
    simp [nameIn?]

theorem listing_eq (tree : FileTree) (place : List String) :
    tree.listing place =
      ((tree.entries.map Prod.fst).filterMap (nameIn? place)).mergeSort
        fun a b => decide (a ≤ b) := by
  rw [List.filterMap_map]
  rfl

theorem mem_listing :
    name ∈ tree.listing place ↔ ∃ entry, tree.get? (place ++ [name]) = some entry := by
  have hk : place ++ [name] ∈ tree.entries.map Prod.fst ↔
      tree.entries.lookup (place ++ [name]) ≠ none := by
    simp [List.lookup_eq_none_iff]
  rw [listing_eq, List.mem_mergeSort, List.mem_filterMap, ← Option.ne_none_iff_exists', get?,
    if_neg (by simp), ← hk]
  simp only [nameIn?_eq_some_iff, exists_eq_right]

theorem Proper.isProper (ht : tree.Proper) (h : name ∈ tree.listing place) :
    Path.IsProper name := by
  rw [listing_eq, List.mem_mergeSort, List.mem_filterMap] at h
  obtain ⟨other, ho, hn⟩ := h
  obtain rfl := nameIn?_eq_some_iff.1 hn
  exact ht.names _ ho name (by simp)

/-- A folder's content is in order, and nothing is in it twice. -/
theorem Proper.listing_pairwise (ht : tree.Proper) (place : List String) :
    (tree.listing place).Pairwise (· < ·) := by
  rw [listing_eq]
  have hs := @List.pairwise_mergeSort String (fun a b => decide (a ≤ b))
    (by simpa using fun a b c => String.le_trans) (by simpa using String.le_total)
    ((tree.entries.map Prod.fst).filterMap (nameIn? place))
  have hn : ((tree.entries.map Prod.fst).filterMap (nameIn? place)).Nodup := by
    refine ht.once.filterMap fun first second name hf hs => ?_
    rw [nameIn?_eq_some_iff.1 hf, nameIn?_eq_some_iff.1 hs]
  have hd := (List.mergeSort_perm _ fun a b => decide (a ≤ b)).nodup_iff.2 hn
  refine hs.imp₂ (fun a b hle hne => ?_) hd
  exact String.not_le.1 fun h => hne (String.le_antisymm (of_decide_eq_true hle) h)

/-! ### The order of entries -/

theorem lookup_eq_some_iff (hn : (tree.entries.map Prod.fst).Nodup) :
    tree.entries.lookup place = some entry ↔ (place, entry) ∈ tree.entries := by
  constructor
  · intro hl
    obtain ⟨before, after, he, -⟩ := List.lookup_eq_some_iff.1 hl
    rw [he]
    exact List.mem_append_right _ List.mem_cons_self
  · intro hm
    obtain ⟨before, after, he⟩ := List.append_of_mem hm
    refine List.lookup_eq_some_iff.2 ⟨before, after, he, fun pair hp => ?_⟩
    rw [he, List.map_append, List.nodup_append] at hn
    exact bne_iff_ne.2 (hn.2.2 _ (List.mem_map_of_mem hp) _ (by simp)).symm

section

variable (ht : tree.Proper) (h : other.entries.Perm tree.entries)

include ht h

theorem lookup_perm (place : List String) :
    other.entries.lookup place = tree.entries.lookup place := by
  have ho : (other.entries.map Prod.fst).Nodup := (h.map Prod.fst).nodup_iff.2 ht.once
  apply Option.ext
  intro entry
  rw [lookup_eq_some_iff ho, lookup_eq_some_iff ht.once, h.mem_iff]

theorem get?_perm (place : List String) : other.get? place = tree.get? place := by
  rw [get?, get?, lookup_perm ht h]

theorem isLink_perm (place : List String) (name : String) :
    other.isLink place name = tree.isLink place name := by
  rw [isLink, isLink, get?_perm ht h]

theorem followTo_perm (jump : List String → List String → Except FileFault Found) :
    other.followTo jump = tree.followTo jump := by
  funext here parts
  induction parts generalizing here with
  | nil => rfl
  | cons part rest ih => simp only [followTo, ih, lookup_perm ht h]

theorem follow_perm (links : Nat) : other.follow links = tree.follow links := by
  induction links with
  | zero => exact followTo_perm ht h _
  | succ links ih => rw [follow, follow, ih, followTo_perm ht h]

variable (hw : other.working = tree.working)

include hw

theorem Proper.perm : other.Proper where
  once := (h.map Prod.fst).nodup_iff.2 ht.once
  names place hp := ht.names place ((h.map Prod.fst).mem_iff.1 hp)
  working before hb := (get?_perm ht h before).trans (ht.working before (hw ▸ hb))

theorem listing_perm (place : List String) : other.listing place = tree.listing place := by
  refine List.Perm.eq_of_pairwise ?_ ((ht.perm h hw).listing_pairwise place)
    (ht.listing_pairwise place) ?_
  · intro a b _ _ hab hba
    exact absurd hab (String.lt_asymm hba)
  · rw [listing_eq, listing_eq]
    exact ((List.mergeSort_perm _ _).trans ((h.map Prod.fst).filterMap _)).trans
      (List.mergeSort_perm _ _).symm

theorem find_perm (path : String) : other.find path = tree.find path := by
  rw [find, find, locate, locate, follow_perm ht h, start, start, hw]

end

end FileTree

end ToolSwitch.Files
