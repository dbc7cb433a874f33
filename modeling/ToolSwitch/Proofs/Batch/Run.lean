import ToolSwitch.Batch
import ToolSwitch.Proofs.Files.Changes

/-!
A batch as steps, one for each schema.  Each depends on the steps before it only through the file
that it reads.
-/

namespace ToolSwitch

open ToolSwitch.Files ToolSwitch.Text

namespace Generation

variable {options : Options} {tree other : FileTree} {path : String}

/-- A pass depends on the tree only through the file it reads. -/
theorem ofFile_congr {content : Bytes} (hr : tree.read path = .ok content)
    (ho : other.read path = .ok content) :
    ofFile options other path = ofFile options tree path := by
  have ht : other.readText path = tree.readText path := by
    rw [FileTree.readText, FileTree.readText, hr, ho]
  rw [ofFile, ofFile, ht]

/-- The pass over a file comes to its end. -/
def Succeeds (options : Options) (tree : FileTree) (path : String) : Prop :=
  ∃ summary, (ofFile options tree path).result = .ok summary

instance : Decidable (Succeeds options tree path) :=
  match hr : (ofFile options tree path).result with
  | .ok summary => .isTrue ⟨summary, hr⟩
  | .error failure => .isFalse (by simp [Succeeds, hr])

theorem Succeeds.read (h : Succeeds options tree path) :
    ∃ content, tree.read path = .ok content := by
  obtain ⟨summary, h⟩ := h
  cases hr : tree.read path with
  | ok content => exact ⟨content, rfl⟩
  | error fault =>
    have ht : tree.readText path = .error fault := by
      rw [FileTree.readText, hr]
      rfl
    rw [ofFile, ht] at h
    cases h

end Generation

namespace Batch

variable {options : Options} {folder extension source : String} {tree made now next : FileTree}
  {written : Written} {sources taken : List String} {place : List String}

/-- What becomes of a schema that is generated by itself: its record and the tree that is left. -/
def single (options : Options) (folder extension : String) (tree : FileTree) (source : String) :
    Except Failure (Written × FileTree) :=
  let output := outputPath folder extension source
  let pass := Generation.ofFile options tree source
  match pass.result with
  | .error failure => .error failure
  | .ok summary =>
    match tree.write output (Utf8.encode pass.output) with
    | .error fault => .error (.file fault)
    | .ok tree => .ok (⟨source, output, summary⟩, tree)

theorem single_eq_ok_iff : single options folder extension tree source = .ok (written, next) ↔
    ∃ summary place, (Generation.ofFile options tree source).result = .ok summary ∧
      tree.place? (outputPath folder extension source) = some place ∧
      written = ⟨source, outputPath folder extension source, summary⟩ ∧
      next = tree.set place
        (.file (Utf8.encode (Generation.ofFile options tree source).output)) := by
  rw [single]
  cases hr : (Generation.ofFile options tree source).result with
  | error failure => simp
  | ok summary =>
    cases hp : tree.place? (outputPath folder extension source) with
    | none =>
      obtain ⟨fault, hw⟩ := FileTree.write_of_no_place hp
        (Utf8.encode (Generation.ofFile options tree source).output)
      simp [hw]
    | some place =>
      rw [FileTree.write_of_place hp]
      simp [eq_comm]

theorem generate_of_error {failure : Failure}
    (h : single options folder extension tree source = .error failure) (taken rest : List String) :
    (generate options folder extension taken tree (source :: rest)).result = .error failure ∧
      (generate options folder extension taken tree (source :: rest)).tree = tree := by
  rw [single] at h
  cases hr : (Generation.ofFile options tree source).result with
  | error fault =>
    simp only [hr, Except.error.injEq] at h
    simp only [generate, hr, h, and_self]
  | ok summary =>
    cases hw : tree.write (outputPath folder extension source)
        (Utf8.encode (Generation.ofFile options tree source).output) with
    | error fault =>
      simp only [hr, hw, Except.error.injEq] at h
      simp only [generate, hr, hw, h, and_self]
    | ok next =>
      simp only [hr, hw, reduceCtorEq] at h

theorem generate_of_ok (h : single options folder extension tree source = .ok (written, next))
    (taken rest : List String) :
    let more := generate options folder extension (outputPath folder extension source :: taken)
      next rest
    (generate options folder extension taken tree (source :: rest)).result =
        (written :: ·) <$> more.result ∧
      (generate options folder extension taken tree (source :: rest)).tree = more.tree := by
  rw [single] at h
  cases hr : (Generation.ofFile options tree source).result with
  | error fault => simp only [hr, reduceCtorEq] at h
  | ok summary =>
    cases hw : tree.write (outputPath folder extension source)
        (Utf8.encode (Generation.ofFile options tree source).output) with
    | error fault => simp only [hr, hw, reduceCtorEq] at h
    | ok after =>
      simp only [hr, hw, Except.ok.injEq, Prod.mk.injEq] at h
      obtain ⟨rfl, rfl⟩ := h
      simp only [generate, hr, hw, and_self]

/-- What writing a file keeps, a batch keeps. -/
theorem generate_keeps {P : FileTree → Prop}
    (hp : ∀ tree path place content, P tree → tree.place? path = some place →
      P (tree.set place (.file content)))
    (options : Options) (folder extension : String) (taken sources : List String) (ht : P tree) :
    P (generate options folder extension taken tree sources).tree := by
  induction sources generalizing tree taken with
  | nil => exact ht
  | cons source rest ih =>
    cases hs : single options folder extension tree source with
    | error failure =>
      rw [(generate_of_error hs taken rest).2]
      exact ht
    | ok result =>
      obtain ⟨written, next⟩ := result
      obtain ⟨summary, place, -, hplace, -, rfl⟩ := single_eq_ok_iff.1 hs
      rw [(generate_of_ok hs taken rest).2]
      exact ih _ (hp tree _ place _ ht hplace)

/-! ### A schema among others -/

theorem single_alike (ha : made.Alike now)
    (hs : ∀ place, made.place? source = some place → now.get? place = made.get? place)
    (h : single options folder extension made source = .ok (written, next)) :
    ∃ place, made.place? (outputPath folder extension source) = some place ∧
      single options folder extension now source = .ok (written, now.set place
        (.file (Utf8.encode (Generation.ofFile options made source).output))) := by
  obtain ⟨summary, place, hr, hp, rfl, -⟩ := single_eq_ok_iff.1 h
  obtain ⟨content, hm⟩ := Generation.Succeeds.read ⟨summary, hr⟩
  obtain ⟨origin, ho, hf⟩ := FileTree.read_eq_ok_iff.1 hm
  have hn : now.read source = .ok content :=
    FileTree.read_eq_ok_iff.2 ⟨origin, (ha.place? source).trans ho, (hs origin ho).trans hf⟩
  have he : Generation.ofFile options now source = Generation.ofFile options made source :=
    Generation.ofFile_congr hm hn
  refine ⟨place, hp, single_eq_ok_iff.2 ⟨summary, place, ?_, ?_, rfl, ?_⟩⟩
  · rw [he, hr]
  · rw [ha.place?, hp]
  · rw [he]

/-- The schemas up to the first whose pass or write fails, each by itself. -/
def handled (options : Options) (folder extension : String) (made : FileTree)
    (sources : List String) : List String :=
  sources.takeWhile fun source => (single options folder extension made source).isOk

/-- Puts the accessors of a schema, generated by itself, into a tree. -/
def put (options : Options) (folder extension : String) (made now : FileTree) (source : String) :
    FileTree :=
  match made.place? (outputPath folder extension source) with
  | some place =>
    now.set place (.file (Utf8.encode (Generation.ofFile options made source).output))
  | none => now

theorem put_get?_of_ne (h : made.place? (outputPath folder extension source) ≠ some place) :
    (put options folder extension made now source).get? place = now.get? place := by
  rw [put]
  split
  · next other hp =>
    rw [FileTree.get?_set _ (FileTree.takes_of_place? hp).ne_nil, if_neg]
    rintro rfl
    exact h hp
  · rfl

theorem put_get? (h : made.place? (outputPath folder extension source) = some place) :
    (put options folder extension made now source).get? place =
      some (.file (Utf8.encode (Generation.ofFile options made source).output)) := by
  rw [put, h]
  exact (FileTree.get?_set _ (FileTree.takes_of_place? h).ne_nil _ _).trans (if_pos rfl)

theorem put_alike (h : made.Alike now) (source : String) :
    made.Alike (put options folder extension made now source) := by
  rw [put]
  split
  · next place hp => exact h.trans (FileTree.alike_set (h.takes (FileTree.takes_of_place? hp)) _)
  · exact h

theorem foldl_put_alike (h : made.Alike now) (sources : List String) :
    made.Alike (sources.foldl (put options folder extension made) now) := by
  induction sources generalizing now with
  | nil => exact h
  | cons source rest ih => exact ih (put_alike h source)

theorem foldl_put_get?_of_ne
    (h : ∀ source ∈ sources, made.place? (outputPath folder extension source) ≠ some place) :
    (sources.foldl (put options folder extension made) now).get? place = now.get? place := by
  induction sources generalizing now with
  | nil => rfl
  | cons source rest ih =>
    rw [List.forall_mem_cons] at h
    rw [List.foldl_cons, ih h.2, put_get?_of_ne h.1]

/-- The last schema that is written to a place leaves its accessors there. -/
theorem foldl_put_get? {before after : List String}
    (h : made.place? (outputPath folder extension source) = some place)
    (ha : ∀ other ∈ after, made.place? (outputPath folder extension other) ≠ some place) :
    ((before ++ source :: after).foldl (put options folder extension made) now).get? place =
      some (.file (Utf8.encode (Generation.ofFile options made source).output)) := by
  rw [List.foldl_append, List.foldl_cons, foldl_put_get?_of_ne ha, put_get? h]

/-- Some schemas and the next are read before any other has been written over them. -/
def ReadFirst (folder extension : String) (made : FileTree) (sources : List String) : Prop :=
  sources.Pairwise fun earlier later =>
    ¬ made.Coincide (outputPath folder extension earlier) later

instance : Decidable (ReadFirst folder extension made sources) :=
  inferInstanceAs (Decidable (List.Pairwise _ _))

theorem single_alike_error {failure : Failure} (ha : made.Alike now)
    (hs : ∀ place, made.place? source = some place → now.get? place = made.get? place)
    (h : single options folder extension made source = .error failure) :
    ∃ fault, single options folder extension now source = .error fault := by
  cases hn : single options folder extension now source with
  | error fault => exact ⟨fault, rfl⟩
  | ok result =>
    obtain ⟨place, -, hm⟩ := single_alike ha.symm
      (fun place hp => (hs place ((ha.place? source).symm.trans hp)).symm) hn
    rw [h] at hm
    cases hm

/-- The record of a schema: its own path and the one written to, with the summary of its pass. -/
def Records (options : Options) (folder extension : String) (made : FileTree) (source : String)
    (written : Written) : Prop :=
  ∃ summary, (Generation.ofFile options made source).result = .ok summary ∧
    written = ⟨source, outputPath folder extension source, summary⟩

/-- A batch comes to what its schemas come to by themselves, as long as none is written over before
it is read. -/
theorem generate_independent (ha : made.Alike now)
    (hs : ∀ source ∈ sources.take ((handled options folder extension made sources).length + 1),
      ∀ place, made.place? source = some place → now.get? place = made.get? place)
    (hr : ReadFirst folder extension made
      (sources.take ((handled options folder extension made sources).length + 1))) :
    (generate options folder extension taken now sources).tree =
        (handled options folder extension made sources).foldl
          (put options folder extension made) now ∧
      ((handled options folder extension made sources = sources ∧
          ∃ records, (generate options folder extension taken now sources).result = .ok records ∧
            List.Forall₂ (Records options folder extension made) sources records) ∨
        handled options folder extension made sources ≠ sources ∧
          ∃ failure, (generate options folder extension taken now sources).result =
            .error failure) := by
  -- By induction on the schemas: `now` is what the batch has come to and `made` what it began with;
  -- at the places of the schemas still to be read the two are the same.
  induction sources generalizing now taken with
  | nil => exact ⟨rfl, .inl ⟨rfl, [], rfl, .nil⟩⟩
  | cons source rest ih =>
    have hsource := hs source (by simp)
    cases hm : single options folder extension made source with
    | error failure =>
      have hh : handled options folder extension made (source :: rest) = [] := by
        simp [handled, hm, Except.isOk, Except.toBool]
      obtain ⟨fault, hn⟩ := single_alike_error ha hsource hm
      obtain ⟨hres, htree⟩ := generate_of_error hn taken rest
      rw [hh, hres, htree]
      exact ⟨rfl, .inr ⟨(List.cons_ne_nil source rest).symm, fault, rfl⟩⟩
    | ok result =>
      obtain ⟨written, next⟩ := result
      have hh : handled options folder extension made (source :: rest) =
          source :: handled options folder extension made rest := by
        simp [handled, hm, Except.isOk, Except.toBool]
      obtain ⟨summary, -, hpass, -, hwritten, -⟩ := single_eq_ok_iff.1 hm
      obtain ⟨place, hp, hn⟩ := single_alike ha hsource hm
      have hput : now.set place
          (.file (Utf8.encode (Generation.ofFile options made source).output)) =
            put options folder extension made now source := by
        rw [put, hp]
      rw [hput] at hn
      rw [hh, List.length_cons, List.take_succ_cons] at hs hr
      obtain ⟨hfirst, hrest⟩ := List.pairwise_cons.1 hr
      obtain ⟨htree, hres⟩ := @ih _ (outputPath folder extension source :: taken)
        (put_alike ha source) (fun later hl origin ho =>
          (put_get?_of_ne fun hc => hfirst later hl ⟨origin, hc, ho⟩).trans
            (hs later (List.mem_cons_of_mem _ hl) origin ho)) hrest
      obtain ⟨hres', htree'⟩ := generate_of_ok hn taken rest
      rw [hh, List.foldl_cons, htree', htree, hres']
      refine ⟨rfl, ?_⟩
      obtain ⟨hall, records, hrecords, hf⟩ | ⟨hall, failure, hfailure⟩ := hres
      · rw [hall, hrecords]
        exact .inl ⟨rfl, _, rfl, .cons ⟨summary, hpass, hwritten⟩ hf⟩
      · rw [hfailure]
        exact .inr ⟨fun he => hall (List.tail_eq_of_cons_eq he), failure, rfl⟩

end Batch

end ToolSwitch
