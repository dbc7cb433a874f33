import ToolSwitch.Proofs.Files.Leads

/-!
What stays when a tree changes.  Writing files moves no path, since all that lies on the way is
folders and links; making folders moves no path that led somewhere.
-/

namespace ToolSwitch.Files.FileTree

variable {tree other third grown : FileTree} {links : Nat} {here start place : List String}
  {parts names : List String} {found : Found} {path : String} {content : Text.Bytes}

theorem start_congr (h : other.working = tree.working) (path : String) :
    other.start path = tree.start path := by
  rw [FileTree.start, FileTree.start, h]

/-! ### Files -/

/-- Trees that differ in nothing but files. -/
structure Alike (tree other : FileTree) : Prop where
  working : other.working = tree.working
  places : ∀ place, other.get? place = tree.get? place ∨ tree.Takes place ∧ other.Takes place

theorem Alike.refl (tree : FileTree) : tree.Alike tree :=
  ⟨rfl, fun _ => .inl rfl⟩

theorem Alike.symm (h : tree.Alike other) : other.Alike tree :=
  ⟨h.working.symm, fun place => (h.places place).imp Eq.symm And.symm⟩

theorem Takes.congr (h : tree.Takes place) (he : other.get? place = tree.get? place) :
    other.Takes place := by
  rwa [Takes, he]

theorem Alike.trans (h : tree.Alike other) (ho : other.Alike third) : tree.Alike third := by
  refine ⟨ho.working.trans h.working, fun place => ?_⟩
  obtain he | ⟨ht, hs⟩ := h.places place
  · obtain ho | ⟨hs, hu⟩ := ho.places place
    · exact .inl (ho.trans he)
    · exact .inr ⟨hs.congr he.symm, hu⟩
  · obtain ho | ⟨-, hu⟩ := ho.places place
    · exact .inr ⟨ht, hs.congr ho⟩
    · exact .inr ⟨ht, hu⟩

theorem alike_set (h : tree.Takes place) (content : Text.Bytes) :
    tree.Alike (tree.set place (.file content)) := by
  refine ⟨rfl, fun other => ?_⟩
  rw [get?_set _ h.ne_nil]
  split
  · next he =>
    subst he
    exact .inr ⟨h, .inr ⟨content, by rw [get?_set _ h.ne_nil, if_pos rfl]⟩⟩
  · exact .inl rfl

theorem Alike.takes (h : tree.Alike other) (ht : tree.Takes place) : other.Takes place :=
  (h.places place).elim ht.congr And.right

theorem Takes.leads {part : String} (h : tree.Takes (place ++ [part])) (hh : part ≠ ".")
    (hp : part ≠ "..") (links : Nat) :
    ∃ found, tree.Leads links place [part] found ∧
      found.place? = some (place ++ [part]) := by
  obtain hn | ⟨content, hf⟩ := h
  · exact ⟨_, .vacant hh hp hn, rfl⟩
  · exact ⟨_, .file hh hp hf, rfl⟩

theorem Alike.leads (h : tree.Alike other) (hl : tree.Leads links here parts found) :
    ∃ found', other.Leads links here parts found' ∧ found'.place? = found.place? := by
  -- Only the last step can meet a file or nothing; all before it are the same in both trees.
  induction hl with
  | nil => exact ⟨_, .nil, rfl⟩
  | here _ ih =>
    obtain ⟨found', hl, hp⟩ := ih
    exact ⟨found', .here hl, hp⟩
  | parent _ ih =>
    obtain ⟨found', hl, hp⟩ := ih
    exact ⟨found', .parent hl, hp⟩
  | vacant hh hp hn => exact (h.takes (.inl hn)).leads hh hp _
  | file hh hp hf => exact (h.takes (.inr ⟨_, hf⟩)).leads hh hp _
  | folder hh hp hf _ ih =>
    obtain ⟨found', hl, hp'⟩ := ih
    obtain he | ⟨ht, -⟩ := h.places _
    · exact ⟨found', .folder hh hp (he.trans hf) hl, hp'⟩
    · simp [Takes, hf] at ht
  | link hh hp ht _ ih =>
    obtain ⟨found', hl, hp'⟩ := ih
    obtain he | ⟨ht', -⟩ := h.places _
    · exact ⟨found', .link hh hp (he.trans ht) hl, hp'⟩
    · simp [Takes, ht] at ht'

theorem Alike.place? (h : tree.Alike other) (path : String) :
    other.place? path = tree.place? path := by
  ext place
  rw [place?_eq_some_iff, place?_eq_some_iff, start_congr h.working]
  refine and_congr_right fun _ => ⟨?_, ?_⟩
  · rintro ⟨found, hl, hp⟩
    obtain ⟨found', hl', hp'⟩ := h.symm.leads hl
    exact ⟨found', hl', hp'.trans hp⟩
  · rintro ⟨found, hl, hp⟩
    obtain ⟨found', hl', hp'⟩ := h.leads hl
    exact ⟨found', hl', hp'.trans hp⟩

/-- What is written under a path is read under it. -/
theorem read_set (h : tree.place? path = some place) (content : Text.Bytes) :
    (tree.set place (.file content)).read path = .ok content := by
  have ht := takes_of_place? h
  refine read_eq_ok_iff.2 ⟨place, ((alike_set ht content).place? path).trans h, ?_⟩
  rw [get?_set _ ht.ne_nil, if_pos rfl]

/-! ### Folders -/

/-- Folders have been made where nothing was. -/
structure Grows (tree grown : FileTree) : Prop where
  working : grown.working = tree.working
  places : ∀ place, grown.get? place = tree.get? place ∨
    tree.get? place = none ∧ grown.get? place = some .folder

theorem Grows.get? {entry : Entry} (h : tree.Grows grown) (he : tree.get? place = some entry) :
    grown.get? place = some entry := by
  obtain hg | ⟨hn, -⟩ := h.places place
  · exact hg.trans he
  · simp [he] at hn

theorem grows_set (h : tree.get? place = none) : tree.Grows (tree.set place .folder) := by
  have hp : place ≠ [] := by
    rintro rfl
    simp [FileTree.get?] at h
  refine ⟨rfl, fun other => ?_⟩
  rw [get?_set _ hp]
  split
  · next he => exact .inr ⟨he ▸ h, rfl⟩
  · exact .inl rfl

theorem Leads.grows (hl : tree.Leads links here parts found) (h : tree.Grows grown)
    (hv : ∀ place name, found ≠ .vacant place name) : grown.Leads links here parts found := by
  induction hl with
  | nil => exact .nil
  | here _ ih => exact .here (ih hv)
  | parent _ ih => exact .parent (ih hv)
  | vacant => exact absurd rfl (hv _ _)
  | file hh hp hf => exact .file hh hp (h.get? hf)
  | folder hh hp hf _ ih => exact .folder hh hp (h.get? hf) (ih hv)
  | link hh hp ht _ ih => exact .link hh hp (h.get? ht) (ih hv)

theorem Grows.read (h : tree.Grows grown) (hr : tree.read path = .ok content) :
    grown.read path = .ok content := by
  obtain ⟨place, hp, hf⟩ := read_eq_ok_iff.1 hr
  obtain ⟨he, found, hl, hs⟩ := place?_eq_some_iff.1 hp
  refine read_eq_ok_iff.2 ⟨place, place?_eq_some_iff.2 ⟨he, found, ?_, hs⟩, h.get? hf⟩
  rw [start_congr h.working]
  refine hl.grows h ?_
  rintro place name rfl
  cases hs
  simp [show tree.get? (place ++ [name]) = none from hl.stands] at hf

/-! What folders made one at a time keep, folders made along a path keep. -/

section

variable {P : FileTree → Prop}

theorem ensureFolderAt_keeps {before : FileTree → Except FileFault Unit × FileTree}
    (hm : ∀ tree grown, P tree → tree.makeFolderAt start parts = .ok grown → P grown)
    (hb : ∀ tree, P tree → P (before tree).2) (ht : P tree) :
    P (ensureFolderAt start parts before tree).2 := by
  unfold ensureFolderAt
  dsimp only
  split
  · next made hmade => exact hm tree made ht hmade
  · have hbefore := hb tree ht
    split
    · next hr =>
      rw [hr] at hbefore
      exact hbefore
    · next middle hr =>
      rw [hr] at hbefore
      split
      · next made hmade => exact hm middle made hbefore hmade
      · split <;> exact hbefore
  · split <;> exact ht

theorem makeFoldersAlong_keeps
    (hm : ∀ way, way <+: names.reverse → ∀ tree grown, P tree →
      tree.makeFolderAt start way = .ok grown → P grown) (ht : P tree) :
    P (makeFoldersAlong start names tree).2 := by
  induction names generalizing tree with
  | nil => exact ht
  | cons name before ih =>
    rw [makeFoldersAlong]
    refine ensureFolderAt_keeps (hm _ List.prefix_rfl) (fun middle hmiddle => ?_) ht
    refine ih (fun way hp => hm way ?_) hmiddle
    rw [List.reverse_cons]
    exact hp.trans (List.prefix_append ..)

theorem makeFolders_keeps
    (hm : ∀ way, way = Path.parts path ∨ way <+: Path.names path → ∀ middle grown, P middle →
      middle.makeFolderAt (tree.start path) way = .ok grown → P grown) (ht : P tree) :
    P (tree.makeFolders path).2 := by
  unfold makeFolders
  split
  · exact ht
  · refine ensureFolderAt_keeps (hm _ (.inl rfl)) (fun middle hmiddle => ?_) ht
    refine makeFoldersAlong_keeps (fun way hp => hm way (.inr ?_)) hmiddle
    rw [List.reverse_reverse] at hp
    exact hp.trans (List.dropLast_prefix _)

end

/-- Folders have been made where some of these ways lead now. -/
structure Lays (start : List String) (ways : List String → Prop) (tree grown : FileTree) :
    Prop where
  working : grown.working = tree.working
  places : ∀ place, grown.get? place = tree.get? place ∨
    tree.get? place = none ∧ grown.get? place = some .folder ∧
      ∃ way, ways way ∧ grown.Leads linkLimit start way (.folder place)

section

variable {ways : List String → Prop}

theorem Lays.refl (tree : FileTree) : Lays start ways tree tree :=
  ⟨rfl, fun _ => .inl rfl⟩

theorem Lays.grows (h : Lays start ways tree grown) : tree.Grows grown :=
  ⟨h.working, fun place => (h.places place).imp_right fun ⟨hn, hf, _⟩ => ⟨hn, hf⟩⟩

theorem Lays.trans (h : Lays start ways tree other) (ho : Lays start ways other third) :
    Lays start ways tree third := by
  refine ⟨ho.working.trans h.working, fun place => ?_⟩
  obtain he | ⟨hn, hf, way, hw, hl⟩ := h.places place
  · rw [← he]
    exact ho.places place
  · exact .inr ⟨hn, ho.grows.get? hf, way, hw, hl.grows ho.grows (by simp)⟩

theorem makeFolderAt_eq_ok (h : tree.makeFolderAt start parts = .ok grown) :
    ∃ init name place, parts = init ++ [name] ∧ name ≠ "." ∧ name ≠ ".." ∧
      tree.Leads linkLimit start init (.folder place) ∧
      tree.get? (place ++ [name]) = none ∧ grown = tree.set (place ++ [name]) .folder := by
  unfold makeFolderAt at h
  split at h
  · cases h
  · next name hl =>
    obtain ⟨init, rfl⟩ := List.getLast?_eq_some_iff.1 hl
    rw [List.dropLast_concat] at h
    split at h
    · rcases hf : tree.follow linkLimit start (init ++ [name]) with _ | (_ | _ | _) <;>
      · rw [hf] at h
        cases h
    · next hd =>
      obtain ⟨place, hf⟩ : ∃ place, tree.follow linkLimit start init = .ok (.folder place) := by
        rcases hf : tree.follow linkLimit start init with _ | (place | _ | _)
        case ok.folder => exact ⟨place, rfl⟩
        all_goals
          rw [hf] at h
          cases h
      rw [hf] at h
      obtain ⟨hh, hp⟩ := not_or.1 hd
      cases hg : tree.get? (place ++ [name]) with
      | some entry => simp [hg, bind, Except.bind] at h
      | none =>
        simp only [hg, bind, Except.bind, pure, Except.pure, Except.ok.injEq] at h
        exact ⟨init, name, place, rfl, hh, hp, leads_of_follow hf, hg, h.symm⟩

theorem makeFolderAt_lays (hw : ways parts) (h : tree.makeFolderAt start parts = .ok grown) :
    Lays start ways tree grown := by
  obtain ⟨init, name, place, rfl, hh, hp, hl, hn, rfl⟩ := makeFolderAt_eq_ok h
  have hg := grows_set hn
  have hf : (tree.set (place ++ [name]) .folder).get? (place ++ [name]) = some .folder := by
    rw [get?_set _ (by simp), if_pos rfl]
  refine ⟨rfl, fun other => ?_⟩
  obtain he | ⟨ho, hs⟩ := hg.places other
  · exact .inl he
  · refine .inr ⟨ho, hs, _, hw, ?_⟩
    by_cases he : other = place ++ [name]
    · subst he
      exact (hl.grows hg (by simp)).append fun _ => .folder hh hp hf .nil
    · rw [get?_set _ (by simp), if_neg he, ho] at hs
      cases hs

end

/-- A folder that a path leads to or through: at the end of the path as it is written, or of a
beginning of its names. -/
def Passes (tree : FileTree) (path : String) (place : List String) : Prop :=
  ∃ way, (way = Path.parts path ∨ way <+: Path.names path) ∧
    tree.follow linkLimit (tree.start path) way = .ok (.folder place)

theorem makeFolders_lays (tree : FileTree) (path : String) :
    Lays (tree.start path) (fun way => way = Path.parts path ∨ way <+: Path.names path) tree
      (tree.makeFolders path).2 :=
  makeFolders_keeps (fun _ hw _ _ hl hm => hl.trans (makeFolderAt_lays hw hm)) (.refl tree)

theorem makeFolders_grows (tree : FileTree) (path : String) :
    tree.Grows (tree.makeFolders path).2 :=
  (makeFolders_lays tree path).grows

/-- Making the folders of a path adds some that it leads to or through, and changes nothing else. -/
theorem makeFolders_get? (tree : FileTree) (path : String) (place : List String) :
    (tree.makeFolders path).2.get? place = tree.get? place ∨
      tree.get? place = none ∧ (tree.makeFolders path).2.get? place = some .folder ∧
        (tree.makeFolders path).2.Passes path place := by
  refine ((makeFolders_lays tree path).places place).imp_right fun ⟨hn, hf, way, hw, hl⟩ =>
    ⟨hn, hf, way, hw, ?_⟩
  rw [start_congr (makeFolders_lays tree path).working]
  exact follow_of_leads hl

end ToolSwitch.Files.FileTree
