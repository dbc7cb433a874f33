import Mathlib.Data.Finset.Card
import Mathlib.Data.Finset.SDiff
import ToolSwitch.Proofs.Files.Listing

/-!
The ways that a walk can take from folder to folder, and how long they can be.
-/

namespace ToolSwitch.Files.FileTree

variable {tree : FileTree} {links : Nat} {here place : List String} {parts names : List String}
  {found : Found} {path folder name : String}

/-! ### What is found in a folder -/

theorem find_eq_ok_iff : tree.find path = .ok found ↔
    tree.locate path = .ok found ∧ ∀ place name, found ≠ .vacant place name := by
  rw [find]
  cases tree.locate path with
  | error fault => simp [bind, Except.bind]
  | ok other =>
    cases other with
    | vacant place name =>
      simp only [bind, Except.bind, reduceCtorEq, Except.ok.injEq, false_iff, not_and, not_forall]
      rintro rfl
      exact ⟨place, name, not_not.2 rfl⟩
    | folder | file =>
      simp only [bind, Except.bind, pure, Except.pure, Except.ok.injEq, iff_self_and]
      rintro rfl
      simp

/-- For a folder the step that a slash at the end asks for makes no difference. -/
theorem leads_steps_iff : tree.Leads links here (Path.steps path) (.folder place) ↔
    tree.Leads links here (Path.parts path) (.folder place) := by
  rw [Path.steps]
  split
  · constructor
    · intro h
      obtain ⟨other, links', hi, hl⟩ := h.split
      generalize hw : "." = part at hl
      cases hl with
      | here h => rwa [h.eq_folder]
      | parent => simp at hw
      | folder hh | link hh => exact absurd hw.symm hh
    · exact fun h => h.append fun _ => .here .nil
  · rw [List.append_nil]

theorem find_eq_folder_iff : tree.find path = .ok (.folder place) ↔
    path ≠ "" ∧ tree.Leads linkLimit (tree.start path) (Path.parts path) (.folder place) := by
  rw [find_eq_ok_iff, locate_eq_ok_iff, leads_steps_iff]
  simp

section

variable (hf : tree.find folder = .ok (.folder place)) (hn : Path.IsName name)

include hf hn

theorem isLinkAt_join :
    tree.isLinkAt (Path.join folder name) = tree.isLink place name := by
  have hl := follow_of_leads (find_eq_folder_iff.1 hf).2
  rw [isLinkAt, start_join hn, Path.parts_join folder hn, List.dropLast_concat, hl,
    List.getLast?_concat]

/-- What is found under a name joined to a folder's path is what the name leads to from there. -/
theorem leads_of_find_join (h : tree.find (Path.join folder name) = .ok found) :
    ∃ links, tree.Leads links place [name] found := by
  obtain ⟨-, hl⟩ := locate_eq_ok_iff.1 (find_eq_ok_iff.1 h).1
  rw [Path.steps_join folder hn, start_join hn] at hl
  obtain ⟨other, links, hi, hl⟩ := hl.split
  cases hi.unique (find_eq_folder_iff.1 hf).2
  exact ⟨links, hl⟩

end

section

variable (hf : tree.find folder = .ok (.folder place)) (hn : Path.IsProper name)

include hf hn

/-- What is found in a folder is an entry of it. -/
theorem mem_listing_of_find (h : tree.find (Path.join folder name) = .ok found) :
    name ∈ tree.listing place := by
  obtain ⟨links, hl⟩ := leads_of_find_join hf hn.1 h
  cases hl with
  | here => exact absurd rfl hn.2.1
  | parent => exact absurd rfl hn.2.2
  | vacant => exact absurd rfl ((find_eq_ok_iff.1 h).2 _ _)
  | file _ _ he => exact mem_listing.2 ⟨_, he⟩
  | folder _ _ he => exact mem_listing.2 ⟨_, he⟩
  | link _ _ he => exact mem_listing.2 ⟨_, he⟩

/-- A folder that is not behind a link lies where its name is. -/
theorem place_of_find {next : List String}
    (h : tree.find (Path.join folder name) = .ok (.folder next))
    (hl : tree.isLink place name = false) : next = place ++ [name] := by
  obtain ⟨links, hw⟩ := leads_of_find_join hf hn.1 h
  cases hw with
  | here => exact absurd rfl hn.2.1
  | parent => exact absurd rfl hn.2.2
  | folder _ _ _ hw =>
    cases hw
    rfl
  | link _ _ he => simp [isLink, he] at hl

end

/-! ### Folders of a tree -/

theorem Proper.rooted (ht : tree.Proper) (h : tree.find path = .ok (.folder place)) :
    tree.Rooted place :=
  (find_eq_folder_iff.1 h).2.rooted (rooted_start ht.working path)

/-- The places that can be folders. -/
def folders (tree : FileTree) : List (List String) :=
  [] :: tree.entries.map Prod.fst

theorem Rooted.mem_folders (h : tree.Rooted place) : place ∈ tree.folders := by
  by_cases hp : place = []
  · exact hp ▸ List.mem_cons_self
  · exact List.mem_cons_of_mem _ (mem_keys (h place List.prefix_rfl) hp)

/-- A folder lies no deeper than there are entries: each of the folders it lies in is one. -/
theorem Rooted.depth_le (h : tree.Rooted place) : place.length ≤ tree.entries.length := by
  have hsub : ∀ k ∈ Finset.range place.length,
      place.take (k + 1) ∈ (tree.entries.map Prod.fst).toFinset := by
    intro k hk
    rw [List.mem_toFinset]
    refine mem_keys (h _ (List.take_prefix _ _)) ?_
    rw [← List.length_pos_iff, List.length_take]
    rw [Finset.mem_range] at hk
    omega
  have hinj : Set.InjOn (fun k => place.take (k + 1)) (Finset.range place.length) := by
    intro k hk l hl he
    have hlength := congrArg List.length he
    rw [List.length_take, List.length_take] at hlength
    rw [Finset.mem_coe, Finset.mem_range] at hk hl
    omega
  calc
    place.length
    _ = (Finset.range place.length).card := (Finset.card_range _).symm
    _ ≤ (tree.entries.map Prod.fst).toFinset.card := Finset.card_le_card_of_injOn _ hsub hinj
    _ ≤ (tree.entries.map Prod.fst).length := List.toFinset_card_le _
    _ = tree.entries.length := List.length_map _

/-! ### How far a way goes on -/

/-- A walk goes on into a folder, as long as no link leads to one that the way leads through. -/
structure Enters (tree : FileTree) (here : Ancestor) (above : List Ancestor) (name : String)
    (place : List String) : Prop where
  find : tree.find (Path.join here.path name) = .ok (.folder place)
  fresh : tree.isLink here.place name = true →
    ∀ ancestor ∈ here :: above, ancestor.place ≠ place

/-- Names lead on from a folder through folders that a walk enters. -/
inductive Descends (tree : FileTree) : Ancestor → List Ancestor → List String → Prop
  | nil {here : Ancestor} {above : List Ancestor} : Descends tree here above []
  | cons {here : Ancestor} {above : List Ancestor} {name : String} {place names : List String}
      (hn : Path.IsProper name) (he : tree.Enters here above name place)
      (h : Descends tree ⟨Path.join here.path name, place⟩ (here :: above) names) :
      Descends tree here above (name :: names)

/-- The folders that no ancestor is. -/
def unseen (tree : FileTree) (trail : List Ancestor) : Finset (List String) :=
  tree.folders.toFinset \ (trail.map Ancestor.place).toFinset

/-- A bound on how many folders a way can still enter.  A link leads to a folder that is not on the
way yet, and any other entry leads further down. -/
def room (tree : FileTree) (here : Ancestor) (above : List Ancestor) : Nat :=
  (tree.unseen (here :: above)).card * (tree.entries.length + 1) +
    (tree.entries.length - here.place.length)

theorem unseen_cons (tree : FileTree) (here : Ancestor) (trail : List Ancestor) :
    tree.unseen (here :: trail) = (tree.unseen trail).erase here.place := by
  rw [unseen, List.map_cons, List.toFinset_cons, Finset.sdiff_insert, unseen]

section

variable (ht : tree.Proper)

include ht

theorem Proper.room_lt {here : Ancestor} {above : List Ancestor}
    (hh : tree.find here.path = .ok (.folder here.place)) (hn : Path.IsProper name)
    (he : tree.Enters here above name place) :
    tree.room ⟨Path.join here.path name, place⟩ (here :: above) < tree.room here above := by
  have hr := ht.rooted he.find
  have hd := hr.depth_le
  rw [room, unseen_cons, room]
  dsimp only
  by_cases hl : tree.isLink here.place name = true
  -- Behind a link the depth is anything, but one folder less is unseen.
  · have hm : place ∈ tree.unseen (here :: above) := by
      rw [unseen, Finset.mem_sdiff, List.mem_toFinset, List.mem_toFinset, List.mem_map]
      exact ⟨hr.mem_folders, fun ⟨ancestor, ha, hsame⟩ => he.fresh hl ancestor ha hsame⟩
    have hcard := Finset.card_erase_lt_of_mem hm
    have hmul := Nat.mul_le_mul_right (tree.entries.length + 1) hcard
    rw [Nat.succ_mul] at hmul
    omega
  · obtain rfl := place_of_find hh hn he.find (Bool.eq_false_iff.2 hl)
    have hcard := Finset.card_le_card
      (Finset.erase_subset (here.place ++ [name]) (tree.unseen (here :: above)))
    have hmul := Nat.mul_le_mul_right (tree.entries.length + 1) hcard
    simp only [List.length_append, List.length_singleton] at hd ⊢
    omega

theorem Proper.length_le_room {here : Ancestor} {above : List Ancestor}
    (h : tree.Descends here above names)
    (hh : tree.find here.path = .ok (.folder here.place)) :
    names.length ≤ tree.room here above := by
  induction h with
  | nil => exact Nat.zero_le _
  | cons hn he _ ih =>
    have hlt := ht.room_lt hh hn he
    have hle := ih he.find
    rw [List.length_cons]
    omega

theorem Proper.room_lt_walkDepth (hf : tree.find folder = .ok (.folder place)) :
    tree.room ⟨folder, place⟩ [] < tree.walkDepth := by
  have hm : place ∈ tree.unseen [] := by
    simpa [unseen] using (ht.rooted hf).mem_folders
  have hcard : (tree.unseen [⟨folder, place⟩]).card ≤ tree.entries.length := by
    have hle : (tree.unseen []).card ≤ tree.entries.length + 1 := by
      have hl := List.toFinset_card_le tree.folders
      simpa [unseen, folders] using hl
    rw [unseen_cons, Finset.card_erase_of_mem hm]
    omega
  have hmul := Nat.mul_le_mul_right (tree.entries.length + 1) hcard
  rw [room, walkDepth, Nat.add_one_mul tree.entries.length]
  omega

/-- No way goes on for longer than a walk does. -/
theorem Proper.length_lt (h : tree.Descends ⟨folder, place⟩ [] names)
    (hf : tree.find folder = .ok (.folder place)) : names.length < tree.walkDepth :=
  (ht.length_le_room h hf).trans_lt (ht.room_lt_walkDepth hf)

end

end ToolSwitch.Files.FileTree
