import Mathlib.Data.List.Infix
import ToolSwitch.Files.Walk
import ToolSwitch.Proofs.Files.Path

/-!
Where paths lead, as a relation, and what of it stays when a tree changes.
-/

namespace ToolSwitch.Files

open ToolSwitch.Text

namespace FileTree

/-- From a folder, parts of a path lead to what is found. -/
inductive Leads (tree : FileTree) : Nat → List String → List String → Found → Prop
  | nil {links : Nat} {here : List String} : Leads tree links here [] (.folder here)
  | here {links : Nat} {here rest : List String} {found : Found}
      (h : Leads tree links here rest found) : Leads tree links here ("." :: rest) found
  | parent {links : Nat} {here rest : List String} {found : Found}
      (h : Leads tree links here.dropLast rest found) : Leads tree links here (".." :: rest) found
  | vacant {links : Nat} {here : List String} {part : String} (hh : part ≠ ".") (hp : part ≠ "..")
      (hn : tree.get? (here ++ [part]) = none) :
      Leads tree links here [part] (.vacant here part)
  | file {links : Nat} {here : List String} {part : String} {content : Bytes} (hh : part ≠ ".")
      (hp : part ≠ "..") (hf : tree.get? (here ++ [part]) = some (.file content)) :
      Leads tree links here [part] (.file (here ++ [part]) content)
  | folder {links : Nat} {here : List String} {part : String} {rest : List String} {found : Found}
      (hh : part ≠ ".") (hp : part ≠ "..") (hf : tree.get? (here ++ [part]) = some .folder)
      (h : Leads tree links (here ++ [part]) rest found) :
      Leads tree links here (part :: rest) found
  | link {links : Nat} {here : List String} {part target : String} {rest : List String}
      {found : Found} (hh : part ≠ ".") (hp : part ≠ "..")
      (hl : tree.get? (here ++ [part]) = some (.link target))
      (h : Leads tree links (if Path.isAbsolute target then [] else here)
        (Path.steps target ++ rest) found) :
      Leads tree (links + 1) here (part :: rest) found

section

variable {tree : FileTree} {links : Nat} {here place parts init rest : List String}
  {found other : Found}

theorem lookup_eq_get? (tree : FileTree) (place : List String) (part : String) :
    tree.entries.lookup (place ++ [part]) = tree.get? (place ++ [part]) := by
  rw [get?, if_neg (by simp)]

/-- Whether or not there may be links, up to the first the way is the same. -/
theorem follow_eq_followTo (tree : FileTree) (links : Nat) :
    ∃ jump, tree.follow links = tree.followTo jump := by
  cases links <;> exact ⟨_, rfl⟩

theorem follow_of_leads (h : tree.Leads links here parts found) :
    tree.follow links here parts = .ok found := by
  obtain ⟨jump, hj⟩ := Classical.skolem.1 tree.follow_eq_followTo
  induction h with
  | nil => simp [hj, followTo]
  | here _ ih | parent _ ih => simpa [hj, followTo] using ih
  | vacant hh hp hn => simp [hj, followTo, hh, hp, lookup_eq_get?, hn]
  | file hh hp hf => simp [hj, followTo, hh, hp, lookup_eq_get?, hf]
  | folder hh hp hf _ ih => simpa [hj, followTo, hh, hp, lookup_eq_get?, hf] using ih
  | link hh hp hl _ ih => simp [follow, followTo, hh, hp, lookup_eq_get?, hl, ih]

theorem leads_of_followTo {jump : List String → List String → Except FileFault Found}
    (hj : ∀ start rest, jump start rest = .ok found →
      ∃ fewer, links = fewer + 1 ∧ tree.Leads fewer start rest found)
    (h : tree.followTo jump here parts = .ok found) : tree.Leads links here parts found := by
  fun_induction followTo tree jump here parts with
  | case1 =>
    cases h
    exact .nil
  | case2 _ _ ih => exact .here (ih h)
  | case3 _ _ _ ih => exact .parent (ih h)
  | case5 | case8 => cases h
  | case4 here part rest hh hp hl hr =>
    obtain rfl := List.isEmpty_iff.1 hr
    cases h
    exact .vacant hh hp (lookup_eq_get? .. ▸ hl)
  | case6 here part rest hh hp hl ih => exact .folder hh hp (lookup_eq_get? .. ▸ hl) (ih h)
  | case7 here part rest hh hp content hl hr =>
    obtain rfl := List.isEmpty_iff.1 hr
    cases h
    exact .file hh hp (lookup_eq_get? .. ▸ hl)
  | case9 here part rest hh hp target hl =>
    obtain ⟨fewer, rfl, hf⟩ := hj _ _ h
    exact .link hh hp (lookup_eq_get? .. ▸ hl) hf

theorem leads_of_follow (h : tree.follow links here parts = .ok found) :
    tree.Leads links here parts found := by
  induction links generalizing here parts with
  | zero =>
    refine leads_of_followTo ?_ h
    rintro _ _ ⟨⟩
  | succ links ih =>
    refine leads_of_followTo ?_ h
    exact fun _ _ hs => ⟨links, rfl, ih hs⟩

theorem follow_eq_ok_iff :
    tree.follow links here parts = .ok found ↔ tree.Leads links here parts found :=
  ⟨leads_of_follow, follow_of_leads⟩

theorem Leads.unique (h : tree.Leads links here parts found)
    (ho : tree.Leads links here parts other) : found = other :=
  Except.ok.inj ((follow_of_leads h).symm.trans (follow_of_leads ho))

theorem Leads.eq_folder (h : tree.Leads links here [] found) : found = .folder here := by
  cases h
  rfl

/-- A way goes on from the folder that its beginning leads to. -/
theorem Leads.append (h : tree.Leads links here init (.folder place))
    (hr : ∀ links, tree.Leads links place rest found) :
    tree.Leads links here (init ++ rest) found := by
  -- The links of the beginning count against the rest, which leads on with any number of them.
  generalize hf : Found.folder place = middle at h
  induction h with
  | nil =>
    cases hf
    exact hr _
  | here _ ih => exact .here (ih hf)
  | parent _ ih => exact .parent (ih hf)
  | vacant => cases hf
  | file => cases hf
  | folder hh hp he _ ih => exact .folder hh hp he (ih hf)
  | link hh hp hl _ ih => exact .link hh hp hl (by simpa using ih hf)

/-- What stands before the last part of a way leads to a folder. -/
theorem Leads.split {part : String} (h : tree.Leads links here (init ++ [part]) found) :
    ∃ place links', tree.Leads links here init (.folder place) ∧
      tree.Leads links' place [part] found := by
  -- A link puts its own steps before the parts that are left, so the last part stays the last.
  generalize hw : init ++ [part] = parts at h
  induction h generalizing init with
  | nil => simp at hw
  | here h ih =>
    cases init with
    | nil =>
      cases hw
      exact ⟨_, _, .nil, .here h⟩
    | cons first init =>
      cases hw
      obtain ⟨place, links', hi, hl⟩ := ih rfl
      exact ⟨place, links', .here hi, hl⟩
  | parent h ih =>
    cases init with
    | nil =>
      cases hw
      exact ⟨_, _, .nil, .parent h⟩
    | cons first init =>
      cases hw
      obtain ⟨place, links', hi, hl⟩ := ih rfl
      exact ⟨place, links', .parent hi, hl⟩
  | vacant hh hp hn =>
    obtain ⟨rfl, rfl⟩ : init = [] ∧ part = _ := by simpa [List.append_eq_singleton_iff] using hw
    exact ⟨_, 0, .nil, .vacant hh hp hn⟩
  | file hh hp hf =>
    obtain ⟨rfl, rfl⟩ : init = [] ∧ part = _ := by simpa [List.append_eq_singleton_iff] using hw
    exact ⟨_, 0, .nil, .file hh hp hf⟩
  | folder hh hp hf h ih =>
    cases init with
    | nil =>
      cases hw
      exact ⟨_, _, .nil, .folder hh hp hf h⟩
    | cons first init =>
      cases hw
      obtain ⟨place, links', hi, hl⟩ := ih rfl
      exact ⟨place, links', .folder hh hp hf hi, hl⟩
  | link hh hp hl h ih =>
    cases init with
    | nil =>
      cases hw
      exact ⟨_, _, .nil, .link hh hp hl h⟩
    | cons first init =>
      cases hw
      obtain ⟨place, links', hi, hr⟩ := ih (List.append_assoc ..)
      exact ⟨place, links', .link hh hp hl hi, hr⟩

end

/-! ### Folders -/

/-- Every folder that a folder lies in is there. -/
def Rooted (tree : FileTree) (place : List String) : Prop :=
  ∀ before, before <+: place → tree.get? before = some .folder

section

variable {tree : FileTree} {links : Nat} {here place parts : List String}

instance : Decidable (tree.Rooted place) :=
  decidable_of_iff (∀ before ∈ place.inits, tree.get? before = some .folder) (by simp [Rooted])

theorem rooted_root (tree : FileTree) : tree.Rooted [] := by
  intro before hb
  rw [List.prefix_nil.1 hb, get?, if_pos rfl]

theorem Rooted.parent (h : tree.Rooted place) : tree.Rooted place.dropLast :=
  fun before hb => h before (hb.trans (List.dropLast_prefix _))

theorem Rooted.concat {name : String} (h : tree.Rooted place)
    (hf : tree.get? (place ++ [name]) = some .folder) : tree.Rooted (place ++ [name]) := by
  intro before hb
  obtain rfl | hb := List.prefix_concat_iff.1 hb
  · exact hf
  · exact h before hb

theorem Leads.rooted (h : tree.Leads links here parts (.folder place)) (hr : tree.Rooted here) :
    tree.Rooted place := by
  generalize hf : Found.folder place = found at h
  induction h with
  | nil =>
    cases hf
    exact hr
  | here _ ih => exact ih hr hf
  | parent _ ih => exact ih hr.parent hf
  | vacant => cases hf
  | file => cases hf
  | folder _ _ he _ ih => exact ih (hr.concat he) hf
  | link _ _ _ _ ih =>
    refine ih ?_ hf
    split
    · exact tree.rooted_root
    · exact hr

theorem rooted_start (h : tree.Rooted tree.working) (path : String) :
    tree.Rooted (tree.start path) := by
  rw [start]
  split
  · exact tree.rooted_root
  · exact h

end

/-! ### Places for files -/

/-- A file can be put at a place: nothing is there, or a file. -/
def Takes (tree : FileTree) (place : List String) : Prop :=
  tree.get? place = none ∨ ∃ content, tree.get? place = some (.file content)

/-- The content of the file at a place, if there is one. -/
def content? (tree : FileTree) (place : List String) : Option Bytes :=
  match tree.get? place with
  | some (.file content) => some content
  | _ => none

/-- What a tree has at the place of what is found in it. -/
def Stands (tree : FileTree) : Found → Prop
  | .folder _ => True
  | .file place content => tree.get? place = some (.file content)
  | .vacant place name => tree.get? (place ++ [name]) = none

end FileTree

/-- The place for a file that is found, whether or not one is there. -/
def Found.place? : Found → Option (List String)
  | .folder _ => none
  | .file place _ => some place
  | .vacant place name => some (place ++ [name])

namespace FileTree

/-- The place for a file that a path leads to. -/
def place? (tree : FileTree) (path : String) : Option (List String) :=
  (tree.locate path).toOption.bind Found.place?

section

variable {tree : FileTree} {links : Nat} {here place parts : List String} {found : Found}
  {path other : String} {content : Bytes}

theorem Takes.ne_nil (h : tree.Takes place) : place ≠ [] := by
  rintro rfl
  simp [Takes, get?] at h

/-- What is found is there. -/
theorem Leads.stands (h : tree.Leads links here parts found) : tree.Stands found := by
  induction h with
  | nil => trivial
  | here _ ih | parent _ ih | folder _ _ _ _ ih | link _ _ _ _ ih => exact ih
  | vacant _ _ hn => exact hn
  | file _ _ hf => exact hf

theorem Leads.takes (h : tree.Leads links here parts found) (hp : found.place? = some place) :
    tree.Takes place := by
  have hs := h.stands
  cases found with
  | folder place => cases hp
  | file place content =>
    cases hp
    exact .inr ⟨content, hs⟩
  | vacant place name =>
    cases hp
    exact .inl hs

/-- A way that ends where it stands leads to a folder. -/
theorem Leads.place?_of_here (h : tree.Leads links here (parts ++ ["."]) found) :
    found.place? = none := by
  obtain ⟨place, links', -, hl⟩ := h.split
  generalize hw : "." = part at hl
  cases hl with
  | here h => rw [h.eq_folder, Found.place?]
  | parent => simp at hw
  | vacant hh | file hh | folder hh | link hh => exact absurd hw.symm hh

theorem locate_eq_ok_iff : tree.locate path = .ok found ↔
    path ≠ "" ∧ tree.Leads linkLimit (tree.start path) (Path.steps path) found := by
  unfold locate
  split
  · next h => simp [h]
  · next h => simp [h, follow_eq_ok_iff]

theorem place?_eq_some_iff : tree.place? path = some place ↔
    path ≠ "" ∧ ∃ found, tree.Leads linkLimit (tree.start path) (Path.steps path) found ∧
      found.place? = some place := by
  rw [place?]
  cases hl : tree.locate path with
  | error fault =>
    have hn : ∀ found, ¬ tree.locate path = .ok found := by simp [hl]
    simp only [locate_eq_ok_iff] at hn
    simp only [Except.toOption, Option.bind_none, reduceCtorEq, false_iff, not_and]
    rintro he ⟨found, hf, -⟩
    exact hn found ⟨he, hf⟩
  | ok found =>
    obtain ⟨he, hf⟩ := locate_eq_ok_iff.1 hl
    simp only [Except.toOption, Option.bind_some]
    constructor
    · exact fun hp => ⟨he, found, hf, hp⟩
    · rintro ⟨-, other, ho, hp⟩
      rwa [hf.unique ho]

theorem takes_of_place? (h : tree.place? path = some place) : tree.Takes place := by
  obtain ⟨-, found, hf, hp⟩ := place?_eq_some_iff.1 h
  exact hf.takes hp

/-- A path that ends in a slash is none of a file. -/
theorem not_endsOpen_of_place? (h : tree.place? path = some place) :
    Path.endsOpen path = false := by
  obtain ⟨-, found, hf, hp⟩ := place?_eq_some_iff.1 h
  cases he : Path.endsOpen path with
  | false => rfl
  | true =>
    rw [Path.steps, he, if_pos rfl] at hf
    rw [hf.place?_of_here] at hp
    cases hp

/-- Two paths lead to one place for a file. -/
def Coincide (tree : FileTree) (path other : String) : Prop :=
  ∃ place, tree.place? path = some place ∧ tree.place? other = some place

instance : Decidable (tree.Coincide path other) :=
  match hp : tree.place? path with
  | none => .isFalse (by simp [Coincide, hp])
  | some place =>
    if ho : tree.place? other = some place then .isTrue ⟨place, hp, ho⟩
    else .isFalse (by simpa [Coincide, hp] using ho)

/-! ### Reading and writing by places -/

theorem toOption_read (tree : FileTree) (path : String) :
    (tree.read path).toOption = (tree.place? path).bind tree.content? := by
  rw [read, find, place?]
  cases hl : tree.locate path with
  | error fault => rfl
  | ok found =>
    have hs := (locate_eq_ok_iff.1 hl).2.stands
    cases found with
    | folder place => rfl
    | file place content =>
      show some content = tree.content? place
      rw [content?, show tree.get? place = _ from hs]
    | vacant place name =>
      show none = tree.content? (place ++ [name])
      rw [content?, show tree.get? (place ++ [name]) = _ from hs]

theorem read_eq_ok_iff : tree.read path = .ok content ↔
    ∃ place, tree.place? path = some place ∧ tree.get? place = some (.file content) := by
  have hr : tree.read path = .ok content ↔ (tree.read path).toOption = some content := by
    cases tree.read path <;> simp [Except.toOption]
  rw [hr, toOption_read, Option.bind_eq_some_iff]
  refine exists_congr fun place => and_congr_right fun _ => ?_
  rw [content?]
  split <;> simp_all

theorem write_of_place (h : tree.place? path = some place) (content : Bytes) :
    tree.write path content = .ok (tree.set place (.file content)) := by
  rw [write, if_neg (by simp [not_endsOpen_of_place? h])]
  rw [place?] at h
  cases hl : tree.locate path with
  | error fault => simp [hl, Except.toOption] at h
  | ok found =>
    rw [hl] at h
    cases found with
    | folder place => cases h
    | file place content => cases h; rfl
    | vacant place name => cases h; rfl

theorem write_of_no_place (h : tree.place? path = none) (content : Bytes) :
    ∃ fault, tree.write path content = .error fault := by
  unfold write
  split
  · cases tree.follow linkLimit (tree.start path) (Path.parts path).dropLast with
    | error fault => exact ⟨fault, rfl⟩
    | ok found => cases found <;> exact ⟨_, rfl⟩
  · rw [place?] at h
    cases hl : tree.locate path with
    | error fault => exact ⟨fault, rfl⟩
    | ok found =>
      rw [hl] at h
      cases found with
      | folder place => exact ⟨_, rfl⟩
      | file place content => cases h
      | vacant place name => cases h

/-! ### Links -/

/-- Whether there is a link under a path, wherever that leads. -/
def isLinkAt (tree : FileTree) (path : String) : Bool :=
  match tree.follow linkLimit (tree.start path) (Path.parts path).dropLast,
    (Path.parts path).getLast? with
  | .ok (.folder place), some name => tree.isLink place name
  | _, _ => false

theorem start_join {folder name : String} (hn : Path.IsName name) :
    tree.start (Path.join folder name) = tree.start folder := by
  rw [start, start, Path.isAbsolute_join folder hn]

/-- Unless a link is in the way, a name in a folder is for a file in that folder. -/
theorem place?_join {folder name : String} (hn : Path.IsName name)
    (hl : tree.isLinkAt (Path.join folder name) = false)
    (h : tree.place? (Path.join folder name) = some place) :
    ∃ outer, tree.Leads linkLimit (tree.start folder) (Path.parts folder) (.folder outer) ∧
      place = outer ++ [name] := by
  obtain ⟨-, found, hf, hp⟩ := place?_eq_some_iff.1 h
  rw [Path.steps_join folder hn, start_join hn] at hf
  obtain ⟨outer, links, hi, hf⟩ := hf.split
  cases hf with
  | here hf | parent hf | folder _ _ _ hf =>
    rw [hf.eq_folder] at hp
    cases hp
  | vacant =>
    cases hp
    exact ⟨_, hi, rfl⟩
  | file =>
    cases hp
    exact ⟨_, hi, rfl⟩
  | link _ _ ht =>
    rw [isLinkAt, start_join hn, Path.parts_join folder hn, List.dropLast_concat,
      follow_of_leads hi, List.getLast?_concat] at hl
    simp [isLink, ht] at hl

end

end FileTree

end ToolSwitch.Files
