import Mathlib.Data.List.TakeWhile
import ToolSwitch.Proofs.Batch.Run

/-!
What a batch comes to, in terms of what its schemas come to by themselves.
-/

namespace ToolSwitch.Batch

open ToolSwitch.Files ToolSwitch.Text

variable {options : Options} {folder extension source other : String} {tree made : FileTree}
  {sources : List String}

/-! ### Output paths -/

theorem outputPath_eq_join (he : '/' ∉ extension.toList) (folder source : String) :
    ∃ name, Path.IsName name ∧ outputPath folder extension source = Path.join folder name := by
  refine ⟨(Path.stem? source).getD "generated" ++ "." ++ extension, ⟨?_, ?_⟩, ?_⟩
  · intro h
    simpa using congrArg String.toList h
  · have hs : '/' ∉ ((Path.stem? source).getD "generated").toList := by
      cases h : Path.stem? source with
      | none => decide
      | some stem => exact (Path.stem_isName h).2
    simp [hs, he]
  · unfold outputPath
    rfl

/-- Unless a link is in the way, what is written to one place is written under one path. -/
theorem outputPath_eq_of_coincide (he : '/' ∉ extension.toList)
    (hs : made.isLinkAt (outputPath folder extension source) = false)
    (ho : made.isLinkAt (outputPath folder extension other) = false)
    (h : made.Coincide (outputPath folder extension source) (outputPath folder extension other)) :
    outputPath folder extension source = outputPath folder extension other := by
  obtain ⟨place, hp, hq⟩ := h
  obtain ⟨name, hn, hj⟩ := outputPath_eq_join he folder source
  obtain ⟨name', hn', hj'⟩ := outputPath_eq_join he folder other
  rw [hj] at hs hp
  rw [hj'] at ho hq
  obtain ⟨outer, hl, rfl⟩ := FileTree.place?_join hn hs hp
  obtain ⟨outer', hl', hq⟩ := FileTree.place?_join hn' ho hq
  cases hl.unique hl'
  rw [hj, hj', List.singleton_inj.1 (List.append_cancel_left hq)]

/-! ### Schemas that are generated -/

theorem of_mem_handled (h : source ∈ handled options folder extension made sources) :
    ∃ written next, single options folder extension made source = .ok (written, next) := by
  have hi := List.mem_takeWhile_imp h
  cases hs : single options folder extension made source with
  | error failure => simp [hs, Except.isOk, Except.toBool] at hi
  | ok result => exact ⟨result.1, result.2, rfl⟩

theorem handled_initial : handled options folder extension made sources <+: sources :=
  List.takeWhile_prefix _

theorem handled_handled :
    handled options folder extension made (handled options folder extension made sources) =
      handled options folder extension made sources :=
  List.takeWhile_idem

/-! ### Batches -/

/-- The schemas that a batch comes through: if there is a folder for them, those before the first
whose pass or write fails. -/
def completed (options : Options) (tree : FileTree) (sources : List String)
    (folder extension : String) : List String :=
  match tree.makeFolders folder with
  | (.error _, _) => []
  | (.ok (), made) => handled options folder extension made sources

/-- What a batch does, in a tree where its folder has been made. -/
structure Outcome (options : Options) (tree : FileTree) (sources : List String)
    (folder extension : String) (made : FileTree) : Prop where
  /-- It succeeds if there is a folder and every schema is come through. -/
  succeeds_iff : (∃ records, (write options tree sources folder extension).result = .ok records) ↔
    (tree.makeFolders folder).1 = .ok () ∧ completed options tree sources folder extension = sources
  records : ∀ records, (write options tree sources folder extension).result = .ok records →
    List.Forall₂ (Records options folder extension made) sources records
  /-- All that changes is that folders are made on the way to the folder of the batch, and files
  written where the schemas that are come through have their output. -/
  frame : ∀ place, (write options tree sources folder extension).tree.get? place = tree.get? place ∨
    (tree.get? place = none ∧
      (write options tree sources folder extension).tree.get? place = some .folder ∧
      made.Passes folder place) ∨
    ∃ source ∈ completed options tree sources folder extension,
      made.place? (outputPath folder extension source) = some place
  /-- The last schema that is written under a path leaves there what its own pass puts out. -/
  content : ∀ before source after,
    completed options tree sources folder extension = before ++ source :: after →
    (∀ other ∈ after, outputPath folder extension other ≠ outputPath folder extension source) →
    (write options tree sources folder extension).tree.read (outputPath folder extension source) =
      .ok (Utf8.encode (Generation.ofFile options made source).output)
  /-- Making the folder is nothing to the pass of a schema that was there before. -/
  pass : ∀ source content, tree.read source = .ok content →
    Generation.ofFile options made source = Generation.ofFile options tree source
  /-- A schema that ends the batch leaves what the schemas before it have left. -/
  rest : (write options tree sources folder extension).tree =
    (write options tree (completed options tree sources folder extension) folder extension).tree

theorem ofFile_makeFolders {content : Bytes} (h : tree.read source = .ok content)
    (options : Options) (folder : String) :
    Generation.ofFile options (tree.makeFolders folder).2 source =
      Generation.ofFile options tree source :=
  Generation.ofFile_congr h ((FileTree.makeFolders_grows tree folder).read h)

theorem write_of_folder (hm : tree.makeFolders folder = (.ok (), made)) :
    write options tree sources folder extension =
      generate options folder extension [] made sources := by
  simp only [write, hm]

theorem ReadFirst.of_initial {before : List String} (hp : before <+: sources)
    (h : ReadFirst folder extension made sources) : ReadFirst folder extension made before :=
  List.Pairwise.sublist hp.sublist h

section

variable (hm : tree.makeFolders folder = (.ok (), made))
  (hr : ReadFirst folder extension made
    (sources.take ((handled options folder extension made sources).length + 1)))

include hm hr

/-- A batch that gets its folder comes to what its schemas come to by themselves. -/
theorem write_independent :
    (write options tree sources folder extension).tree =
        (handled options folder extension made sources).foldl
          (put options folder extension made) made ∧
      ((handled options folder extension made sources = sources ∧
          ∃ records, (write options tree sources folder extension).result = .ok records ∧
            List.Forall₂ (Records options folder extension made) sources records) ∨
        handled options folder extension made sources ≠ sources ∧
          ∃ failure, (write options tree sources folder extension).result = .error failure) := by
  rw [write_of_folder hm]
  exact generate_independent (.refl made) (fun _ _ _ _ => rfl) hr

theorem write_handled :
    (write options tree (handled options folder extension made sources) folder extension).tree =
      (write options tree sources folder extension).tree := by
  have hh : ReadFirst folder extension made ((handled options folder extension made sources).take
      ((handled options folder extension made
        (handled options folder extension made sources)).length + 1)) :=
    hr.of_initial ((List.take_prefix _ _).trans
      (List.prefix_take_iff.2 ⟨handled_initial, Nat.le_succ _⟩))
  rw [(write_independent hm hh).1, (write_independent hm hr).1, handled_handled]

theorem write_frame (place : List String) :
    (write options tree sources folder extension).tree.get? place = made.get? place ∨
      ∃ source ∈ handled options folder extension made sources,
        made.place? (outputPath folder extension source) = some place := by
  rw [(write_independent hm hr).1, or_iff_not_imp_right]
  exact fun hp => foldl_put_get?_of_ne fun source hs hq => hp ⟨source, hs, hq⟩

/-- The last schema that is written to a place leaves its accessors there. -/
theorem write_last {before after : List String}
    (hs : handled options folder extension made sources = before ++ source :: after)
    (ha : ∀ other ∈ after, ¬ made.Coincide (outputPath folder extension source)
      (outputPath folder extension other)) :
    (write options tree sources folder extension).tree.read (outputPath folder extension source) =
      .ok (Utf8.encode (Generation.ofFile options made source).output) := by
  have hsource : source ∈ handled options folder extension made sources := by simp [hs]
  obtain ⟨written, next, hsingle⟩ := of_mem_handled hsource
  obtain ⟨summary, place, -, hp, -, -⟩ := single_eq_ok_iff.1 hsingle
  rw [(write_independent hm hr).1, hs]
  refine FileTree.read_eq_ok_iff.2 ⟨place, ?_, ?_⟩
  · rw [(foldl_put_alike (.refl made) _).place?, hp]
  · exact foldl_put_get? hp fun other ho hq => ha other ho ⟨place, hp, hq⟩

end

/-- A folder that can be made, with a place for the output of each schema: none for two of them, and
none that has a schema already. -/
structure Apart (tree : FileTree) (sources : List String) (folder extension : String) : Prop where
  made : (tree.makeFolders folder).1 = .ok ()
  placed : ∀ source ∈ sources,
    (tree.makeFolders folder).2.place? (outputPath folder extension source) ≠ none
  outputs : sources.Pairwise fun source other => ¬ (tree.makeFolders folder).2.Coincide
    (outputPath folder extension source) (outputPath folder extension other)
  sources : ∀ source ∈ sources, ∀ other ∈ sources,
    ¬ (tree.makeFolders folder).2.Coincide (outputPath folder extension source) other

theorem Apart.handled_eq (h : Apart tree sources folder extension)
    (hp : ∀ source ∈ sources, Generation.Succeeds options tree source) :
    handled options folder extension (tree.makeFolders folder).2 sources = sources := by
  refine List.takeWhile_eq_self_iff.2 fun source hs => ?_
  obtain ⟨content, hc⟩ := (hp source hs).read
  obtain ⟨summary, hr⟩ := hp source hs
  obtain ⟨place, hplace⟩ := Option.ne_none_iff_exists'.1 (h.placed source hs)
  rw [← ofFile_makeFolders hc options folder] at hr
  rw [single_eq_ok_iff.2 ⟨summary, place, hr, hplace, rfl, rfl⟩]
  rfl

/-- Schemas that pass, with their outputs apart, all have what they put out written. -/
theorem Apart.read_output (h : Apart tree sources folder extension)
    (hp : ∀ source ∈ sources, Generation.Succeeds options tree source)
    (hs : source ∈ sources) :
    (write options tree sources folder extension).tree.read (outputPath folder extension source) =
      .ok (Utf8.encode (Generation.ofFile options tree source).output) := by
  obtain ⟨content, hc⟩ := (hp source hs).read
  have hall := h.handled_eq hp
  have hread : ReadFirst folder extension (tree.makeFolders folder).2 sources :=
    List.pairwise_of_forall_mem_list h.sources
  obtain ⟨before, after, rfl⟩ := List.mem_iff_append.1 hs
  rw [← ofFile_makeFolders hc options folder]
  refine write_last (Prod.ext h.made rfl) (hread.of_initial (List.take_prefix ..)) hall ?_
  obtain ⟨-, hafter, -⟩ := List.pairwise_append.1 h.outputs
  exact (List.pairwise_cons.1 hafter).1

/-- A batch with an extension that can end a name does what its schemas do by themselves, unless an
output is a link or a schema is written over before it is read. -/
theorem write_outcome (options : Options) (tree : FileTree) (sources : List String)
    (folder extension : String) (he : '/' ∉ extension.toList)
    (hl : ∀ source ∈ sources,
      (tree.makeFolders folder).2.isLinkAt (outputPath folder extension source) = false)
    (hr : ReadFirst folder extension (tree.makeFolders folder).2
      (sources.take ((completed options tree sources folder extension).length + 1))) :
    Outcome options tree sources folder extension (tree.makeFolders folder).2 := by
  have hpass := fun source content (h : tree.read source = .ok content) =>
    ofFile_makeFolders h options folder
  have hframe := FileTree.makeFolders_get? tree folder
  rcases hm : tree.makeFolders folder with ⟨result, made⟩
  rw [hm] at hl hr hpass hframe
  -- Without the folder no schema is read, and the folders made until then stay.
  cases result with
  | error fault =>
    have hw : ∀ sources, write options tree sources folder extension =
        ⟨.error (.file fault), [], made⟩ := fun sources => by simp only [write, hm]
    have hc : completed options tree sources folder extension = [] := by rw [completed, hm]
    constructor
    case succeeds_iff => simp [hw, hm]
    case records => simp [hw]
    case frame =>
      intro place
      rw [hw]
      exact (hframe place).imp_right .inl
    case content => simp [hc]
    case pass => exact hpass
    case rest => rw [hw, hw]
  | ok =>
    have hc : completed options tree sources folder extension =
        handled options folder extension made sources := by rw [completed, hm]
    rw [hc] at hr
    have hresult := (write_independent hm hr).2
    constructor
    case succeeds_iff =>
      rw [hm, hc]
      obtain ⟨hall, records, hres, -⟩ | ⟨hall, failure, hres⟩ := hresult
      · simp [hall, hres]
      · simp [hall, hres]
    case records =>
      intro records hres
      obtain ⟨-, records', hres', hrecords⟩ | ⟨-, failure, hres'⟩ := hresult
      · rw [hres] at hres'
        cases hres'
        exact hrecords
      · rw [hres] at hres'
        cases hres'
    case frame =>
      intro place
      rw [hc]
      obtain hp | hp := write_frame hm hr place
      · rw [hp]
        exact (hframe place).imp_right .inl
      · exact .inr (.inr hp)
    case content =>
      intro before source after hs ha
      rw [hc] at hs
      have hfile : ∀ other ∈ before ++ source :: after,
          made.isLinkAt (outputPath folder extension other) = false := fun other ho =>
        hl other (handled_initial.subset (hs ▸ ho))
      refine write_last hm hr hs fun other ho hco => ha other ho ?_
      exact (outputPath_eq_of_coincide he (hfile source (by simp)) (hfile other (by simp [ho]))
        hco).symm
    case pass => exact hpass
    case rest => rw [hc, write_handled hm hr]

/-- Two schemas of one name, of which the second stays, and a third that ends the batch.  The folder
of the batch lies outside the working folder. -/
theorem write_outcome_until_malformed :
    let tree : FileTree := ⟨[(["w"], .folder), (["w", "a"], .folder), (["w", "b"], .folder),
      (["w", "a", "x.xml"], .file (Utf8.encode "<IntProperty/>")),
      (["w", "b", "x.xml"], .file (Utf8.encode "<Rule/>")),
      (["w", "c.xml"], .file (Utf8.encode "<"))], ["w"]⟩
    let sources := ["a/x.xml", "/w/b/x.xml", "../w/c.xml"]
    completed .default tree sources "/out" "cs" = ["a/x.xml", "/w/b/x.xml"] ∧
      Outcome .default tree sources "/out" "cs" (tree.makeFolders "/out").2 := by
  refine ⟨by decide +kernel, write_outcome _ _ _ _ _ ?_ ?_ ?_⟩
  · decide +kernel
  · decide +kernel
  · decide +kernel

end ToolSwitch.Batch
