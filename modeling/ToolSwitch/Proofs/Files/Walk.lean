import Mathlib.Data.List.Basic
import ToolSwitch.Proofs.Files.Ways

/-!
What a walk finds, and in which order: the files at the ends of the ways it can take, as their paths
are ordered.
-/

namespace ToolSwitch.Files.FileTree

variable {tree other : FileTree} {here : Ancestor} {above : List Ancestor} {fuel : Nat}
  {place done names : List String} {path folder name : String}

/-! ### The ways of a walk -/

/-- A folder that a walk from `folder` goes into, if it goes into those before it: a link does not
lead into a folder that the way leads through already. -/
def Enterable (tree : FileTree) (folder : String) (names : List String) : Prop :=
  ∃ place, tree.find (Path.joinAll folder names) = .ok (.folder place) ∧
    (tree.isLinkAt (Path.joinAll folder names) = true →
      ∀ before, before <+: names → before ≠ names →
        tree.find (Path.joinAll folder before) ≠ .ok (.folder place))

/-- There is a file called `name` behind `names`, all of them folders to go into. -/
structure Visits (tree : FileTree) (folder : String) (names : List String) (name : String) :
    Prop where
  proper : ∀ part ∈ names ++ [name], Path.IsProper part
  enterable : ∀ before, before <+: names → before ≠ [] → tree.Enterable folder before
  file : tree.isFile (Path.joinAll folder (names ++ [name])) = true

/-- What a walk knows of the way from `folder` that it has done. -/
structure Trail (tree : FileTree) (folder : String) (done : List String) (here : Ancestor)
    (above : List Ancestor) : Prop where
  path : here.path = Path.joinAll folder done
  find : tree.find here.path = .ok (.folder here.place)
  seen : ∀ place, (∃ ancestor ∈ here :: above, ancestor.place = place) ↔
    ∃ before, before <+: done ∧ tree.find (Path.joinAll folder before) = .ok (.folder place)

theorem Trail.start (hf : tree.find folder = .ok (.folder place)) :
    tree.Trail folder [] ⟨folder, place⟩ [] where
  path := rfl
  find := hf
  seen other := by
    have hj : Path.joinAll folder [] = folder := rfl
    simp [hj, hf]

theorem Trail.enter (ht : tree.Trail folder done here above)
    (he : tree.Enters here above name place) :
    tree.Trail folder (done ++ [name]) ⟨Path.join here.path name, place⟩ (here :: above) := by
  have hj : Path.joinAll folder (done ++ [name]) = Path.join here.path name := by
    rw [Path.joinAll_concat, ht.path]
  refine ⟨hj.symm, he.find, fun other => ?_⟩
  simp only [List.prefix_concat_iff, or_and_right, exists_or, exists_eq_left, hj, he.find,
    ← ht.seen]
  simp

theorem Trail.enterable_iff (ht : tree.Trail folder done here above) (hn : Path.IsProper name) :
    tree.Enterable folder (done ++ [name]) ↔
      ∃ place, tree.Enters here above name place := by
  rw [Enterable, Path.joinAll_concat, ← ht.path, isLinkAt_join ht.find hn.1]
  apply exists_congr
  intro place
  constructor
  · rintro ⟨hf, h⟩
    refine ⟨hf, fun hl ancestor ha hsame => ?_⟩
    obtain ⟨before, hb, hfound⟩ := (ht.seen place).1 ⟨ancestor, ha, hsame⟩
    have hne : before ≠ done ++ [name] := by
      rintro rfl
      have hlength := hb.length_le
      rw [List.length_append, List.length_singleton] at hlength
      omega
    exact h hl before (hb.trans (List.prefix_append _ _)) hne hfound
  · rintro ⟨hf, h⟩
    refine ⟨hf, fun hl before hb hne hfound => ?_⟩
    have hdone := (List.prefix_concat_iff.1 hb).resolve_left hne
    obtain ⟨ancestor, ha, hsame⟩ := (ht.seen place).2 ⟨before, hdone, hfound⟩
    exact h hl ancestor ha hsame

/-- A walk goes on along names if each of them is one of a folder to go into. -/
theorem Trail.descends_iff (ht : tree.Trail folder done here above) :
    tree.Descends here above names ↔ (∀ name ∈ names, Path.IsProper name) ∧
      ∀ before, before <+: names → before ≠ [] → tree.Enterable folder (done ++ before) := by
  induction names generalizing done here above with
  | nil =>
    refine ⟨fun _ => ⟨by simp, fun before hb hne => ?_⟩, fun _ => .nil⟩
    exact absurd (List.prefix_nil.1 hb) hne
  | cons name names ih =>
    constructor
    · intro h
      cases h with
      | cons hn he hd =>
        obtain ⟨hproper, henter⟩ := (ih (ht.enter he)).1 hd
        refine ⟨List.forall_mem_cons.2 ⟨hn, hproper⟩, fun before hb hne => ?_⟩
        -- A beginning is the first name alone, or it goes on behind that.
        obtain rfl | ⟨rest, rfl, hr⟩ := List.prefix_cons_iff.1 hb
        · exact absurd rfl hne
        · by_cases hrest : rest = []
          · rw [hrest]
            exact (ht.enterable_iff hn).2 ⟨_, he⟩
          · rw [List.append_cons]
            exact henter rest hr hrest
    · rintro ⟨hproper, henter⟩
      obtain ⟨hn, hproper⟩ := List.forall_mem_cons.1 hproper
      have hfirst := henter [name] (by simp) (by simp)
      obtain ⟨place, he⟩ := (ht.enterable_iff hn).1 hfirst
      refine .cons hn he ((ih (ht.enter he)).2 ⟨hproper, fun before hb _ => ?_⟩)
      rw [← List.append_cons]
      exact henter (name :: before) (by simpa using hb) (by simp)

theorem Descends.isProper (h : tree.Descends here above names) :
    ∀ name ∈ names, Path.IsProper name := by
  induction h with
  | nil => simp
  | cons hn _ _ ih => exact List.forall_mem_cons.2 ⟨hn, ih⟩

/-! ### One name of a folder -/

/-- What a walk comes to at one name of a folder. -/
def visit (tree : FileTree) (fuel : Nat) (here : Ancestor) (above : List Ancestor) (name : String) :
    List (Except WalkFault String) :=
  let path := Path.join here.path name
  match tree.find path with
  | .error fault => [.error (.unreadable path fault)]
  | .ok (.folder place) =>
    let cycle :=
      if tree.isLink here.place name then (here :: above).find? (·.place = place)
      else none
    match cycle with
    | some ancestor => [.error (.cycle path ancestor.path)]
    | none => tree.walkFolder fuel ⟨path, place⟩ (here :: above)
  | .ok _ => [.ok path]

theorem walkFolder_succ (tree : FileTree) (fuel : Nat) (here : Ancestor) (above : List Ancestor) :
    tree.walkFolder (fuel + 1) here above =
      (tree.listing here.place).flatMap (tree.visit fuel here above) := rfl

theorem visit_of_enters (he : tree.Enters here above name place) (fuel : Nat) :
    tree.visit fuel here above name =
      tree.walkFolder fuel ⟨Path.join here.path name, place⟩ (here :: above) := by
  have hcycle : (if tree.isLink here.place name then
      (here :: above).find? (·.place = place) else none) = none := by
    rw [ite_eq_right_iff]
    intro hl
    rw [List.find?_eq_none]
    exact fun ancestor ha => by simpa using he.fresh hl ancestor ha
  simp only [visit, he.find, hcycle]

theorem isFile_iff :
    tree.isFile path = true ↔ ∃ place content, tree.find path = .ok (.file place content) := by
  unfold isFile
  split
  · next place content hf => simp [hf]
  · next hf => simpa using hf

theorem visit_of_file (hf : tree.isFile (Path.join here.path name) = true) (fuel : Nat)
    (above : List Ancestor) :
    tree.visit fuel here above name = [.ok (Path.join here.path name)] := by
  obtain ⟨place, content, hf⟩ := isFile_iff.1 hf
  simp only [visit, hf]

/-- A name is passed over, is one of a file, or is one of a folder to go into. -/
theorem visit_cases (tree : FileTree) (here : Ancestor) (above : List Ancestor) (name : String) :
    (∃ fault, ∀ fuel, tree.visit fuel here above name = [.error fault]) ∨
      tree.isFile (Path.join here.path name) = true ∨
      ∃ place, tree.Enters here above name place := by
  cases hf : tree.find (Path.join here.path name) with
  | error fault =>
    refine .inl ⟨.unreadable (Path.join here.path name) fault, fun fuel => ?_⟩
    simp only [visit, hf]
  | ok found =>
    cases found with
    | vacant place part => exact absurd rfl ((find_eq_ok_iff.1 hf).2 _ _)
    | file place content => exact .inr (.inl (isFile_iff.2 ⟨place, content, hf⟩))
    | folder place =>
      cases hcycle : (if tree.isLink here.place name then
          (here :: above).find? (·.place = place) else none) with
      | some ancestor =>
        refine .inl ⟨.cycle (Path.join here.path name) ancestor.path, fun fuel => ?_⟩
        simp only [visit, hf, hcycle]
      | none =>
        refine .inr (.inr ⟨place, hf, fun hl => ?_⟩)
        rw [if_pos hl, List.find?_eq_none] at hcycle
        exact fun ancestor ha => by simpa using hcycle ancestor ha

/-! ### Whole walks -/

/-- With as much fuel as the ways go on, more makes no difference. -/
theorem walkFolder_fuel (ht : tree.Proper)
    (hd : ∀ names, tree.Descends here above names → names.length < fuel) :
    tree.walkFolder (fuel + 1) here above = tree.walkFolder fuel here above := by
  induction fuel generalizing here above with
  | zero => exact absurd (hd [] .nil) (Nat.lt_irrefl 0)
  | succ fuel ih =>
    rw [walkFolder_succ, walkFolder_succ]
    apply List.flatMap_congr
    intro name hm
    have hn := ht.isProper hm
    obtain ⟨fault, hv⟩ | hfile | ⟨place, he⟩ := visit_cases tree here above name
    · rw [hv, hv]
    · rw [visit_of_file hfile, visit_of_file hfile]
    · rw [visit_of_enters he, visit_of_enters he, ih]
      intro names hnames
      have hlt := hd (name :: names) (.cons hn he hnames)
      rw [List.length_cons] at hlt
      omega

/-- A walk finds the files behind the names it can go along. -/
theorem mem_walkFolder (ht : tree.Proper)
    (hh : tree.find here.path = .ok (.folder here.place)) :
    .ok path ∈ tree.walkFolder fuel here above ↔
      ∃ names name, names.length < fuel ∧ tree.Descends here above names ∧ Path.IsProper name ∧
        path = Path.joinAll here.path (names ++ [name]) ∧ tree.isFile path = true := by
  -- Each folder that is gone into takes one name off the way and one off the fuel.
  induction fuel generalizing here above with
  | zero => simp [walkFolder]
  | succ fuel ih =>
    rw [walkFolder_succ, List.mem_flatMap]
    constructor
    · rintro ⟨name, hm, hv⟩
      have hn := ht.isProper hm
      obtain ⟨fault, hfault⟩ | hfile | ⟨place, he⟩ := visit_cases tree here above name
      · simp [hfault] at hv
      · rw [visit_of_file hfile] at hv
        obtain rfl : path = Path.join here.path name := by simpa using hv
        exact ⟨[], name, Nat.succ_pos fuel, .nil, hn, rfl, hfile⟩
      · rw [visit_of_enters he, ih he.find] at hv
        obtain ⟨names, last, hl, hd, hlast, rfl, hfile⟩ := hv
        exact ⟨name :: names, last, Nat.succ_lt_succ hl, .cons hn he hd, hlast, rfl, hfile⟩
    · rintro ⟨names, last, hl, hd, hlast, rfl, hfile⟩
      cases hd with
      | nil =>
        obtain ⟨place, content, hf⟩ := isFile_iff.1 hfile
        refine ⟨last, mem_listing_of_find hh hlast hf, ?_⟩
        rw [visit_of_file hfile]
        exact List.mem_singleton_self _
      | cons hn he hd =>
        refine ⟨_, mem_listing_of_find hh hn he.find, ?_⟩
        rw [visit_of_enters he, ih he.find]
        exact ⟨_, last, Nat.lt_of_succ_lt_succ hl, hd, hlast, rfl, hfile⟩

theorem parts_of_mem_walkFolder (ht : tree.Proper)
    (hh : tree.find here.path = .ok (.folder here.place))
    (h : .ok path ∈ tree.walkFolder fuel here above) :
    ∃ rest, Path.parts path = Path.parts here.path ++ rest := by
  obtain ⟨names, name, -, hd, hn, rfl, -⟩ := (mem_walkFolder ht hh).1 h
  refine ⟨names ++ [name], Path.parts_joinAll (fun part hp => ?_) here.path⟩
  obtain hp | hp := List.mem_append.1 hp
  · exact (hd.isProper part hp).1
  · exact List.mem_singleton.1 hp ▸ hn.1

theorem parts_of_mem_visit (ht : tree.Proper) (hn : Path.IsProper name)
    (h : .ok path ∈ tree.visit fuel here above name) :
    ∃ rest, Path.parts path = Path.parts here.path ++ name :: rest := by
  obtain ⟨fault, hfault⟩ | hfile | ⟨place, he⟩ := visit_cases tree here above name
  · simp [hfault] at h
  · rw [visit_of_file hfile] at h
    obtain rfl : path = Path.join here.path name := by simpa using h
    exact ⟨[], Path.parts_join here.path hn.1⟩
  · rw [visit_of_enters he] at h
    obtain ⟨rest, hr⟩ := parts_of_mem_walkFolder ht he.find h
    rw [Path.parts_join here.path hn.1, List.append_assoc, List.singleton_append] at hr
    exact ⟨rest, hr⟩

/-- Of two entries of a walk, the path that is found first is the smaller one. -/
def Precedes (first second : Except WalkFault String) : Prop :=
  ∀ path other, first = .ok path → second = .ok other → Path.parts path < Path.parts other

theorem walkFolder_pairwise (ht : tree.Proper)
    (hh : tree.find here.path = .ok (.folder here.place)) (fuel : Nat)
    (above : List Ancestor) : (tree.walkFolder fuel here above).Pairwise Precedes := by
  induction fuel generalizing here above with
  | zero => exact .nil
  | succ fuel ih =>
    rw [walkFolder_succ, List.pairwise_flatMap]
    constructor
    · intro name hm
      obtain ⟨fault, hfault⟩ | hfile | ⟨place, he⟩ := visit_cases tree here above name
      · rw [hfault]
        exact List.pairwise_singleton _ _
      · rw [visit_of_file hfile]
        exact List.pairwise_singleton _ _
      · rw [visit_of_enters he]
        exact ih he.find _
    · -- What is found at a name goes on from it, so two names of the folder decide.
      refine (ht.listing_pairwise here.place).imp_of_mem ?_
      rintro name next hm hn hlt _ hfirst _ hsecond path other rfl rfl
      obtain ⟨rest, hr⟩ := parts_of_mem_visit ht (ht.isProper hm) hfirst
      obtain ⟨rest', hr'⟩ := parts_of_mem_visit ht (ht.isProper hn) hsecond
      rw [hr, hr']
      exact List.append_left_lt (List.cons_lt_cons_iff.2 (.inl hlt))

/-! ### Schemas -/

/-- A file name with the extension of schemas, in upper or lower case. -/
def IsXml (name : String) : Prop :=
  ∃ stem ending, stem ≠ "" ∧ name = stem ++ "." ++ ending ∧
    ending.toList.map Char.toLower = "xml".toList

theorem lower_eq_toLower (c : Char) : lower c = c.toLower := by
  have hcase : ('A' ≤ c ∧ c ≤ 'Z') ↔ (c.val ≥ 'A'.val ∧ c.val ≤ 'Z'.val) := Iff.rfl
  by_cases hc : 'A' ≤ c ∧ c ≤ 'Z'
  · have hle : c.val.toNat ≤ 90 := UInt32.le_iff_toNat_le.1 hc.2
    have hvalid : (c.toNat + 32).isValidChar := by
      left
      show c.val.toNat + 32 < 55296
      omega
    have hnat : Char.ofNat (c.toNat + 32) = Char.ofNatAux (c.toNat + 32) hvalid := dif_pos hvalid
    have hlower : lower c = Char.ofNatAux (c.toNat + 32) hvalid := (if_pos hc).trans hnat
    have htoLower : c.toLower.val = c.val + 32 := congrArg Char.val (dif_pos (hcase.1 hc))
    apply Char.ext
    apply UInt32.toNat.inj
    rw [hlower, htoLower, UInt32.toNat_add, Nat.mod_eq_of_lt]
    · rfl
    · show c.val.toNat + 32 < 4294967296
      omega
  · have hlower : lower c = c := if_neg hc
    have htoLower : c.toLower = c := dif_neg (mt hcase.2 hc)
    rw [hlower, htoLower]

theorem isSchema_iff {before : List String} (hn : Path.IsProper name)
    (h : Path.parts path = before ++ [name]) : isSchema path = true ↔ IsXml name := by
  have he : Path.extension? path = (Path.splitExtension name).2 := by
    rw [Path.extension?, Path.fileName?_of_parts hn h, Option.bind_some]
  have hs : isSchema path = true ↔ ∃ ending, (Path.splitExtension name).2 = some ending ∧
      ending.toList.map Char.toLower = "xml".toList := by
    rw [isSchema, he]
    cases (Path.splitExtension name).2 <;> simp [funext lower_eq_toLower]
  rw [hs, IsXml]
  constructor
  · rintro ⟨ending, hsplit, hl⟩
    obtain ⟨-, stem, hstem, rfl⟩ := Path.splitExtension_eq_some_iff.1 hsplit
    exact ⟨stem, ending, hstem, rfl, hl⟩
  · rintro ⟨stem, ending, hstem, hname, hl⟩
    refine ⟨ending, Path.splitExtension_eq_some_iff.2 ⟨fun hd => ?_, stem, hstem, hname⟩, hl⟩
    have hm := List.mem_map_of_mem (f := Char.toLower) hd
    rw [hl] at hm
    exact absurd hm (by decide)

theorem eq_ok_of_schema {entry : Except WalkFault String}
    (h : entry.toOption.filter isSchema = some path) : entry = .ok path := by
  cases entry with
  | error fault => cases h
  | ok found =>
    obtain ⟨hf, -⟩ := Option.filter_eq_some_iff.1 h
    rw [Option.some.inj hf]

theorem mem_schemas_iff :
    path ∈ tree.schemas folder ↔ .ok path ∈ tree.walk folder ∧ isSchema path = true := by
  rw [schemas, List.mem_filterMap]
  constructor
  · rintro ⟨entry, hm, he⟩
    obtain rfl := eq_ok_of_schema he
    exact ⟨hm, (Option.filter_eq_some_iff.1 he).2⟩
  · rintro ⟨hm, hs⟩
    exact ⟨.ok path, hm, Option.filter_eq_some_iff.2 ⟨rfl, hs⟩⟩

theorem walk_of_folder (hf : tree.find folder = .ok (.folder place)) :
    tree.walk folder = tree.walkFolder tree.walkDepth ⟨folder, place⟩ [] := by
  simp only [walk, hf]

theorem walkFolder_of_walkDepth_le (ht : tree.Proper)
    (hf : tree.find folder = .ok (.folder place)) (hle : tree.walkDepth ≤ fuel) :
    tree.walkFolder fuel ⟨folder, place⟩ [] = tree.walk folder := by
  rw [walk_of_folder hf]
  induction fuel, hle using Nat.le_induction with
  | base => rfl
  | succ fuel hle ih =>
    rw [walkFolder_fuel ht fun names hd => (ht.length_lt hd hf).trans_le hle, ih]

theorem schemas_pairwise (ht : tree.Proper) (hf : tree.find folder = .ok (.folder place)) :
    (tree.schemas folder).Pairwise fun path other => Path.parts path < Path.parts other := by
  rw [schemas, walk_of_folder hf, List.pairwise_filterMap]
  refine (walkFolder_pairwise ht hf tree.walkDepth []).imp ?_
  intro first second hp path hfirst other hsecond
  exact hp path other (eq_ok_of_schema hfirst) (eq_ok_of_schema hsecond)

theorem visits_iff (hf : tree.find folder = .ok (.folder place)) :
    tree.Visits folder names name ↔ tree.Descends ⟨folder, place⟩ [] names ∧
      Path.IsProper name ∧ tree.isFile (Path.joinAll folder (names ++ [name])) = true := by
  rw [(Trail.start hf).descends_iff]
  simp only [List.nil_append]
  constructor
  · rintro ⟨hproper, henter, hfile⟩
    obtain ⟨hnames, hname⟩ := List.forall_mem_append.1 hproper
    exact ⟨⟨hnames, henter⟩, hname name List.mem_cons_self, hfile⟩
  · rintro ⟨⟨hnames, henter⟩, hname, hfile⟩
    refine ⟨List.forall_mem_append.2 ⟨hnames, ?_⟩, henter, hfile⟩
    exact List.forall_mem_singleton.2 hname

theorem Visits.isSchema_iff (h : tree.Visits folder names name) :
    isSchema (Path.joinAll folder (names ++ [name])) = true ↔ IsXml name := by
  have hparts := Path.parts_joinAll (fun part hp => (h.proper part hp).1) folder
  rw [← List.append_assoc] at hparts
  exact FileTree.isSchema_iff (h.proper name (by simp)) hparts

theorem mem_schemas (ht : tree.Proper) (hf : tree.find folder = .ok (.folder place)) :
    path ∈ tree.schemas folder ↔ ∃ names name, path = Path.joinAll folder (names ++ [name]) ∧
      tree.Visits folder names name ∧ IsXml name := by
  rw [mem_schemas_iff, walk_of_folder hf, mem_walkFolder ht hf]
  constructor
  · rintro ⟨⟨names, name, -, hd, hn, rfl, hfile⟩, hs⟩
    have hv : tree.Visits folder names name := (visits_iff hf).2 ⟨hd, hn, hfile⟩
    exact ⟨names, name, rfl, hv, hv.isSchema_iff.1 hs⟩
  · rintro ⟨names, name, rfl, hv, hx⟩
    obtain ⟨hd, hn, hfile⟩ := (visits_iff hf).1 hv
    exact ⟨⟨names, name, ht.length_lt hd hf, hd, hn, rfl, hfile⟩, hv.isSchema_iff.2 hx⟩

theorem walkFolder_perm (ht : tree.Proper) (h : other.entries.Perm tree.entries)
    (hw : other.working = tree.working) (fuel : Nat) (here : Ancestor) (above : List Ancestor) :
    other.walkFolder fuel here above = tree.walkFolder fuel here above := by
  induction fuel generalizing here above with
  | zero => rfl
  | succ fuel ih =>
    simp only [walkFolder, listing_perm ht h hw, find_perm ht h hw, isLink_perm ht h, ih]

theorem schemas_perm (ht : tree.Proper) (h : other.entries.Perm tree.entries)
    (hw : other.working = tree.working) (folder : String) :
    other.schemas folder = tree.schemas folder := by
  have hwalk : other.walk folder = tree.walk folder := by
    simp only [walk, walkDepth, find_perm ht h hw, walkFolder_perm ht h hw, h.length_eq]
  rw [schemas, schemas, hwalk]

/-- The schemas below a folder.  A walk comes to its end by itself, so that more fuel makes no
difference.  The schemas are in the order of the parts of their paths, none of them twice; they are
the files with the extension behind folders to go into; and the order in which a tree holds its
entries makes no difference. -/
theorem schemas_in_order (ht : tree.Proper) (hf : tree.find folder = .ok (.folder place)) :
    (∀ fuel, tree.walkDepth ≤ fuel →
      tree.walkFolder fuel ⟨folder, place⟩ [] = tree.walk folder) ∧
    (tree.schemas folder).Pairwise (fun path other => Path.parts path < Path.parts other) ∧
    (∀ path, path ∈ tree.schemas folder ↔
      ∃ names name, path = Path.joinAll folder (names ++ [name]) ∧
        tree.Visits folder names name ∧ IsXml name) ∧
    ∀ other : FileTree, other.entries.Perm tree.entries → other.working = tree.working →
      other.schemas folder = tree.schemas folder :=
  ⟨fun _ hle => walkFolder_of_walkDepth_le ht hf hle, schemas_pairwise ht hf,
    fun _ => mem_schemas ht hf, fun _ h hw => schemas_perm ht h hw folder⟩

/-- Of two folders with links to each other, one of them outside the working folder, each is entered
once. -/
theorem schemas_in_order_behind_links :
    let tree : FileTree :=
      ⟨[(["w"], .folder), (["w", "d"], .folder), (["w", "d", "gone"], .link "nowhere"),
        (["w", "d", "b"], .link "/e"), (["w", "d", "a.xml"], .file []), (["e"], .folder),
        (["e", "back"], .link "../w/d"), (["e", "C.XML"], .file [])], ["w"]⟩
    "d/b/C.XML" ∈ tree.schemas "d" ∧ "d/b/back/a.xml" ∉ tree.schemas "d" := by
  intro tree
  have hd : tree.find "d" = .ok (.folder ["w", "d"]) := by decide +kernel
  have hb : tree.find (Path.joinAll "d" ["b"]) = .ok (.folder ["e"]) := by
    decide +kernel
  have hback : tree.find (Path.joinAll "d" ["b", "back"]) = .ok (.folder ["w", "d"]) := by
    decide +kernel
  obtain ⟨-, -, hm, -⟩ := schemas_in_order (by decide +kernel) hd
  constructor
  · have hfile : tree.isFile (Path.joinAll "d" ["b", "C.XML"]) = true := by decide +kernel
    refine (hm _).2 ⟨["b"], "C.XML", by decide, ⟨by decide, ?_, hfile⟩, "C", "XML", ?_⟩
    · intro before hbefore hne
      obtain rfl : before = ["b"] := by simpa [List.prefix_cons_iff, hne] using hbefore
      refine ⟨["e"], hb, fun _ above habove hne => ?_⟩
      obtain rfl : above = [] := by simpa [List.prefix_cons_iff, hne] using habove
      exact fun h => absurd (hd.symm.trans h) (by decide)
    · decide
  · -- The way would lead through the link back, and that leads to the folder it starts from.
    intro h
    obtain ⟨names, name, hp, hv, -⟩ := (hm _).1 h
    have hparts := congrArg Path.parts hp
    rw [Path.parts_joinAll fun part hpart => (hv.proper part hpart).1] at hparts
    have hnames : names ++ [name] = ["b", "back"] ++ ["a.xml"] := by
      have hl : Path.parts "d/b/back/a.xml" = Path.parts "d" ++ ["b", "back", "a.xml"] := by decide
      exact (List.append_cancel_left (hl.symm.trans hparts)).symm
    obtain ⟨rfl, -⟩ := List.append_inj' hnames rfl
    obtain ⟨place, hf, hc⟩ := hv.enterable ["b", "back"] List.prefix_rfl (by decide)
    rw [hback] at hf
    cases hf
    exact hc (by decide +kernel) [] List.nil_prefix (by decide) hd

end ToolSwitch.Files.FileTree
