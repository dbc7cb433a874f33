import ToolSwitch.Proofs.Files.Changes
import ToolSwitch.Proofs.Files.Listing

/-!
Files that are written and folders that are made are held once, and under names that entries can
have: what they are given is read off paths.  No folder is lost over it, the working folder
included.
-/

namespace ToolSwitch.Files

variable {tree next : FileTree} {links : Nat} {here place parts : List String} {found : Found}
  {path : String} {content : Text.Bytes}

theorem Path.isName_of_mem_steps {part : String} (h : part ∈ steps path) : IsName part := by
  rw [steps] at h
  obtain h | h := List.mem_append.1 h
  · exact isName_of_mem_parts h
  · split at h
    · rw [List.mem_singleton.1 h]
      decide
    · cases h

/-- A place under names that entries can have. -/
def ProperPlace (place : List String) : Prop :=
  ∀ name ∈ place, Path.IsProper name

theorem ProperPlace.concat {part : String} (h : ProperPlace place) (hn : Path.IsName part)
    (hh : part ≠ ".") (hp : part ≠ "..") : ProperPlace (place ++ [part]) :=
  List.forall_mem_append.2 ⟨h, List.forall_mem_singleton.2 ⟨hn, hh, hp⟩⟩

theorem ProperPlace.parent (h : ProperPlace place) : ProperPlace place.dropLast :=
  fun name hn => h name (List.dropLast_subset _ hn)

def Found.Proper : Found → Prop
  | .folder place | .file place _ => ProperPlace place
  | .vacant place name => ProperPlace (place ++ [name])

namespace FileTree

theorem Leads.proper (h : tree.Leads links here parts found)
    (hn : ∀ part ∈ parts, Path.IsName part) (hh : ProperPlace here) : found.Proper := by
  induction h with
  | nil => exact hh
  | here _ ih => exact ih (List.forall_mem_cons.1 hn).2 hh
  | parent _ ih => exact ih (List.forall_mem_cons.1 hn).2 hh.parent
  | vacant hdot hup _ => exact ProperPlace.concat hh (hn _ List.mem_cons_self) hdot hup
  | file hdot hup _ => exact ProperPlace.concat hh (hn _ List.mem_cons_self) hdot hup
  | folder hdot hup _ _ ih =>
    obtain ⟨hpart, hrest⟩ := List.forall_mem_cons.1 hn
    exact ih hrest (ProperPlace.concat hh hpart hdot hup)
  | link _ _ _ _ ih =>
    have hrest := (List.forall_mem_cons.1 hn).2
    refine ih (List.forall_mem_append.2 ⟨fun part => Path.isName_of_mem_steps, hrest⟩) ?_
    split
    · exact List.forall_mem_nil _
    · exact hh

theorem Proper.properPlace_working (ht : tree.Proper) : ProperPlace tree.working := by
  by_cases hw : tree.working = []
  · exact hw ▸ List.forall_mem_nil _
  · exact ht.names _ (mem_keys (ht.working _ List.prefix_rfl) hw)

theorem Proper.properPlace_start (ht : tree.Proper) (path : String) :
    ProperPlace (tree.start path) := by
  rw [start]
  split
  · exact List.forall_mem_nil _
  · exact ht.properPlace_working

theorem Proper.properPlace (ht : tree.Proper) (h : tree.place? path = some place) :
    ProperPlace place := by
  obtain ⟨-, found, hl, hp⟩ := place?_eq_some_iff.1 h
  have hf := hl.proper (fun part => Path.isName_of_mem_steps) (ht.properPlace_start path)
  cases found with
  | folder => cases hp
  | file =>
    cases hp
    exact hf
  | vacant =>
    cases hp
    exact hf

theorem Proper.set (ht : tree.Proper) (hp : ProperPlace place) {entry : Entry}
    (hf : ∀ other, tree.get? other = some .folder →
      (tree.set place entry).get? other = some .folder) : (tree.set place entry).Proper where
  once := by
    have hsub : ((tree.entries.filter (·.1 ≠ place)).map Prod.fst).Sublist
        (tree.entries.map Prod.fst) := List.filter_sublist.map Prod.fst
    refine List.nodup_cons.2 ⟨?_, hsub.nodup ht.once⟩
    simp
  names other ho := by
    obtain rfl | ho := List.mem_cons.1 ho
    · exact hp
    · obtain ⟨pair, hpair, rfl⟩ := List.mem_map.1 ho
      exact ht.names _ (List.mem_map_of_mem (List.mem_of_mem_filter hpair))
  working before hb := hf before (ht.working before hb)

theorem Proper.setFile (ht : tree.Proper) (h : tree.place? path = some place)
    (content : Text.Bytes) : (tree.set place (.file content)).Proper := by
  refine ht.set (ht.properPlace h) fun other ho => ?_
  obtain he | ⟨hn, -⟩ := (alike_set (takes_of_place? h) content).places other
  · exact he.trans ho
  · simp [Takes, ho] at hn

/-- A tree stays proper when a file is written. -/
theorem Proper.write (ht : tree.Proper) (h : tree.write path content = .ok next) :
    next.Proper := by
  cases hp : tree.place? path with
  | none =>
    obtain ⟨fault, hf⟩ := write_of_no_place hp content
    rw [hf] at h
    cases h
  | some place =>
    rw [write_of_place hp] at h
    cases h
    exact ht.setFile hp content

/-- A tree stays proper when folders are made, also if not all of them can be. -/
theorem Proper.makeFolders (ht : tree.Proper) (path : String) :
    (tree.makeFolders path).2.Proper := by
  refine makeFolders_keeps (fun way hw middle made hm hmade => ?_) ht
  have hn : ∀ part ∈ way, Path.IsName part := by
    intro part hpart
    obtain rfl | hw := hw
    · exact Path.isName_of_mem_parts hpart
    · exact Path.isName_of_mem_parts (List.mem_of_mem_filter (hw.subset hpart))
  obtain ⟨init, name, place, rfl, hdot, hup, hl, hg, rfl⟩ := makeFolderAt_eq_ok hmade
  obtain ⟨hinit, hname⟩ := List.forall_mem_append.1 hn
  have hplace : ProperPlace place := hl.proper hinit (ht.properPlace_start path)
  exact hm.set (hplace.concat (hname name List.mem_cons_self) hdot hup) fun _ => (grows_set hg).get?

end FileTree

end ToolSwitch.Files
