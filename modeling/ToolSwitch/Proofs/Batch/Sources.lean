import ToolSwitch.Proofs.Batch.Outcome

/-!
What a batch leaves of the files it reads, also of those that it writes over.
-/

namespace ToolSwitch.Batch

open ToolSwitch.Files ToolSwitch.Text

variable {options : Options} {folder extension source : String} {tree now next : FileTree}
  {written : Written} {sources taken : List String} {place : List String} {content : Bytes}

/-- A schema that a batch comes through: the schemas up to it make a batch that succeeds. -/
def Handles (options : Options) (tree : FileTree) (sources : List String)
    (folder extension source : String) : Prop :=
  ∃ before after, sources = before ++ source :: after ∧
    ∃ records, (write options tree (before ++ [source]) folder extension).result = .ok records

theorem alike_of_single (h : single options folder extension now source = .ok (written, next)) :
    now.Alike next := by
  obtain ⟨summary, place, -, hp, -, rfl⟩ := single_eq_ok_iff.1 h
  exact FileTree.alike_set (FileTree.takes_of_place? hp) _

theorem get?_of_single (h : single options folder extension now source = .ok (written, next))
    (hp : now.place? (outputPath folder extension source) ≠ some place) :
    next.get? place = now.get? place := by
  obtain ⟨summary, other, -, ho, -, rfl⟩ := single_eq_ok_iff.1 h
  rw [FileTree.get?_set _ (FileTree.takes_of_place? ho).ne_nil, if_neg]
  rintro rfl
  exact hp ho

theorem generate_alike (options : Options) (folder extension : String) (taken : List String)
    (now : FileTree) (sources : List String) :
    now.Alike (generate options folder extension taken now sources).tree := by
  refine generate_keeps (fun tree path place content ht hp => ?_) options folder extension taken
    sources (FileTree.Alike.refl now)
  exact ht.trans (FileTree.alike_set (FileTree.takes_of_place? hp) content)

/-- What a batch changes is where a schema that it comes through has its output. -/
theorem generate_frame
    (h : (generate options folder extension taken now sources).tree.get? place ≠ now.get? place) :
    ∃ before source after, sources = before ++ source :: after ∧
      (∃ records, (generate options folder extension taken now (before ++ [source])).result =
        .ok records) ∧
      now.place? (outputPath folder extension source) = some place := by
  induction sources generalizing now taken with
  | nil => exact absurd rfl h
  | cons source rest ih =>
    cases hs : single options folder extension now source with
    | error failure =>
      rw [(generate_of_error hs taken rest).2] at h
      exact absurd rfl h
    | ok result =>
      obtain ⟨written, next⟩ := result
      -- Either the first schema is written to the place, or the place is as it was behind it.
      by_cases hp : now.place? (outputPath folder extension source) = some place
      · refine ⟨[], source, rest, rfl, ⟨[written], ?_⟩, hp⟩
        rw [List.nil_append, (generate_of_ok hs taken []).1]
        rfl
      · rw [(generate_of_ok hs taken rest).2, ← get?_of_single hs hp] at h
        obtain ⟨before, other, after, rfl, ⟨records, hr⟩, ho⟩ := ih h
        rw [(alike_of_single hs).place?] at ho
        refine ⟨source :: before, other, after, rfl, ⟨written :: records, ?_⟩, ho⟩
        rw [List.cons_append, (generate_of_ok hs taken _).1, hr]
        rfl

/-- A file keeps its content unless the output of a schema that the batch comes through leads to
it. -/
theorem source_survives (hr : tree.read source = .ok content)
    (hc : ∀ other, Handles options tree sources folder extension other →
      ¬ (tree.makeFolders folder).2.Coincide (outputPath folder extension other) source) :
    (write options tree sources folder extension).tree.read source = .ok content := by
  have hmade := (FileTree.makeFolders_grows tree folder).read hr
  rcases hm : tree.makeFolders folder with ⟨result, made⟩
  rw [hm] at hmade hc
  cases result with
  | error fault =>
    have hw : (write options tree sources folder extension).tree = made := by
      simp only [write, hm]
    rw [hw, hmade]
  | ok =>
    have halike := generate_alike options folder extension [] made sources
    obtain ⟨place, hp, hf⟩ := FileTree.read_eq_ok_iff.1 hmade
    rw [write_of_folder hm]
    refine FileTree.read_eq_ok_iff.2 ⟨place, ?_, ?_⟩
    · rw [(halike.place? source), hp]
    · rw [← hf]
      by_contra h
      obtain ⟨before, other, after, hs, hres, ho⟩ := generate_frame h
      refine hc other ⟨before, after, hs, ?_⟩ ⟨place, ho, hp⟩
      rwa [write_of_folder hm]

/-- A batch that ends at a schema leaves the next one, though that has itself for its output. -/
theorem source_survives_after_malformed :
    let tree : FileTree :=
      ⟨[(["a.xml"], .file (Utf8.encode "<Rule/>")), (["b.xml"], .file (Utf8.encode "<"))], []⟩
    tree.read "a.xml" = .ok (Utf8.encode "<Rule/>") ∧
      (write .default tree ["b.xml", "a.xml"] "." "xml").tree.read "a.xml" =
        .ok (Utf8.encode "<Rule/>") := by
  refine ⟨by decide +kernel, source_survives (by decide +kernel) ?_⟩
  rintro other ⟨before, after, hs, records, hr⟩
  have hok : _ = true := congrArg Except.isOk hr
  -- The first schema is malformed, so no batch that begins with it succeeds.
  simp only [List.cons_eq_append_iff, List.nil_eq_append_iff] at hs
  obtain ⟨rfl, hs⟩ | ⟨before, rfl, hs⟩ := hs
  · cases hs
    exact absurd hok (by decide +kernel)
  · obtain ⟨rfl, hs⟩ | ⟨before, rfl, rfl, hs⟩ := hs
    · cases hs
      exact absurd hok (by decide +kernel)
    · cases hs

/-- With the extension of the schemas and in their folder, whatever path leads there, outputs are
the schemas. -/
theorem source_overwritten :
    let tree : FileTree :=
      ⟨[(["w"], .folder), (["w", "a.xml"], .file (Utf8.encode "<Rule/>"))], ["w"]⟩
    tree.read "a.xml" = .ok (Utf8.encode "<Rule/>") ∧
      ∀ folder ∈ [".", "/w", "../w"],
        (write .default tree ["a.xml"] folder "xml").tree.read "a.xml" ≠
          .ok (Utf8.encode "<Rule/>") := by
  decide +kernel

end ToolSwitch.Batch
