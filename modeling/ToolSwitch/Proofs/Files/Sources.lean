import Mathlib.Data.List.Forall2
import Mathlib.Data.List.Basic
import ToolSwitch.Files.Sources

/-!
What a list of sources comes to, told source by source.
-/

namespace ToolSwitch.Files.Sources

open ToolSwitch.Files.Glob

variable {tree : FileTree} {source name : String} {sources more paths others : List String}
  {failure : Failure}

def HasWildcard (text : String) : Prop :=
  '*' ∈ text.toList ∨ '?' ∈ text.toList ∨ '[' ∈ text.toList

theorem isPattern_iff : isPattern source = true ↔ HasWildcard source := by
  simp only [isPattern, HasWildcard, List.any_eq_true, Bool.or_eq_true, decide_eq_true_eq, or_assoc]
  constructor
  · rintro ⟨c, hc, rfl | rfl | rfl⟩ <;> simp [hc]
  · rintro (h | h | h)
    · exact ⟨'*', h, .inl rfl⟩
    · exact ⟨'?', h, .inr (.inl rfl)⟩
    · exact ⟨'[', h, .inr (.inr rfl)⟩

/-- The paths that a source is there for, whether or not it has any. -/
inductive StandsFor (tree : FileTree) (source : String) : List String → Prop
  | files {pattern : Pattern} (hw : HasWildcard source) (hp : Pattern.ofText source = .ok pattern) :
    StandsFor tree source ((tree.glob pattern source).filter tree.isFile)
  | below (hw : ¬ HasWildcard source) (hf : tree.isFolder source = true) :
    StandsFor tree source (tree.schemas source)
  | itself (hw : ¬ HasWildcard source) (hf : tree.isFolder source = false) :
    StandsFor tree source [source]

/-- Only for a pattern or a folder can there be nothing. -/
theorem StandsFor.of_nil (h : StandsFor tree source []) :
    HasWildcard source ∨ tree.isFolder source = true := by
  generalize hp : ([] : List String) = paths at h
  cases h with
  | files hw _ => exact .inl hw
  | below _ hf => exact .inr hf
  | itself => cases hp

theorem StandsFor.result (h : StandsFor tree source paths) :
    (resolveOne tree source).result = nonempty source paths := by
  cases h with
  | files hw hp =>
    rw [resolveOne, if_pos (isPattern_iff.2 hw), hp]
  | below hw hf =>
    rw [resolveOne, if_neg (mt isPattern_iff.1 hw), if_pos hf]
  | itself hw hf =>
    rw [resolveOne, if_neg (mt isPattern_iff.1 hw), if_neg (by rw [hf]; decide)]
    rfl

/-- Every source stands for something, but for a text that only looks like a pattern. -/
theorem standsFor_or_badPattern (tree : FileTree) (source : String) :
    (∃ paths, StandsFor tree source paths) ∨
      ∃ fault, (resolveOne tree source).result = .error (.badPattern source fault) := by
  by_cases hw : HasWildcard source
  · cases hp : Pattern.ofText source with
    | ok pattern => exact .inl ⟨_, .files hw hp⟩
    | error fault =>
      refine .inr ⟨fault, ?_⟩
      rw [resolveOne, if_pos (isPattern_iff.2 hw), hp]
  · cases hf : tree.isFolder source with
    | true => exact .inl ⟨_, .below hw hf⟩
    | false => exact .inl ⟨_, .itself hw hf⟩

theorem nonempty_eq_ok_iff : nonempty source paths = .ok others ↔ paths = others ∧ others ≠ [] := by
  cases paths with
  | nil => simp +contextual [nonempty, eq_comm]
  | cons first rest =>
    constructor
    · rintro ⟨⟩
      exact ⟨rfl, List.cons_ne_nil first rest⟩
    · rintro ⟨rfl, -⟩
      rfl

theorem nonempty_eq_error_iff :
    nonempty source paths = .error failure ↔ paths = [] ∧ failure = .nothingMatched source := by
  cases paths <;> simp [nonempty, eq_comm]

theorem resolveOne_eq_ok_iff :
    (resolveOne tree source).result = .ok paths ↔ StandsFor tree source paths ∧ paths ≠ [] := by
  constructor
  · intro h
    obtain ⟨others, ho⟩ | ⟨fault, hf⟩ := standsFor_or_badPattern tree source
    · rw [ho.result, nonempty_eq_ok_iff] at h
      obtain ⟨rfl, hne⟩ := h
      exact ⟨ho, hne⟩
    · rw [hf] at h
      cases h
  · rintro ⟨hs, hne⟩
    rw [hs.result, nonempty_eq_ok_iff]
    exact ⟨rfl, hne⟩

theorem resolveOne_nothingMatched_iff :
    (resolveOne tree source).result = .error (.nothingMatched name) ↔
      StandsFor tree source [] ∧ name = source := by
  constructor
  · intro h
    obtain ⟨others, ho⟩ | ⟨fault, hf⟩ := standsFor_or_badPattern tree source
    · rw [ho.result, nonempty_eq_error_iff] at h
      obtain ⟨rfl, he⟩ := h
      exact ⟨ho, by simpa using he⟩
    · rw [hf] at h
      cases h
  · rintro ⟨hs, rfl⟩
    rw [hs.result, nonempty_eq_error_iff]
    exact ⟨rfl, rfl⟩

theorem resolve_cons_of_ok (h : (resolveOne tree source).result = .ok paths)
    (sources : List String) :
    resolve tree (source :: sources) =
      ⟨(paths ++ ·) <$> (resolve tree sources).result,
        (resolveOne tree source).reports ++ (resolve tree sources).reports⟩ := by
  simp only [resolve, h]

theorem resolve_cons_of_error (h : (resolveOne tree source).result = .error failure)
    (sources : List String) :
    resolve tree (source :: sources) = ⟨.error failure, (resolveOne tree source).reports⟩ := by
  simp only [resolve, h]

theorem resolve_singleton (tree : FileTree) (source : String) :
    resolve tree [source] = resolveOne tree source := by
  rcases hr : resolveOne tree source with ⟨result, reports⟩
  cases result with
  | error failure => rw [resolve_cons_of_error (by rw [hr]), hr]
  | ok paths =>
    rw [resolve_cons_of_ok (by rw [hr]), hr]
    simp [resolve]

/-- Behind sources that fail the others are not looked at. -/
theorem resolve_append_of_error (h : (resolve tree sources).result = .error failure)
    (more : List String) : resolve tree (sources ++ more) = resolve tree sources := by
  induction sources with
  | nil => cases h
  | cons source rest ih =>
    rw [List.cons_append]
    cases ho : (resolveOne tree source).result with
    | error other => rw [resolve_cons_of_error ho, resolve_cons_of_error ho]
    | ok paths =>
      rw [resolve_cons_of_ok ho] at h
      cases hr : (resolve tree rest).result with
      | ok others => simp [hr] at h
      | error other =>
        have hf : other = failure := by simpa [hr] using h
        rw [resolve_cons_of_ok ho, resolve_cons_of_ok ho, ih (by rw [hr, hf])]

/-- Behind sources that succeed come the others. -/
theorem resolve_append_of_ok (h : (resolve tree sources).result = .ok paths) (more : List String) :
    resolve tree (sources ++ more) =
      ⟨(paths ++ ·) <$> (resolve tree more).result,
        (resolve tree sources).reports ++ (resolve tree more).reports⟩ := by
  induction sources generalizing paths with
  | nil =>
    cases h
    simp [resolve]
  | cons source rest ih =>
    cases ho : (resolveOne tree source).result with
    | error other =>
      rw [resolve_cons_of_error ho] at h
      cases h
    | ok first =>
      rw [resolve_cons_of_ok ho] at h
      cases hr : (resolve tree rest).result with
      | error other => simp [hr] at h
      | ok others =>
        have hp : paths = first ++ others := by simpa [hr, eq_comm] using h
        rw [List.cons_append, resolve_cons_of_ok ho, resolve_cons_of_ok ho, ih hr, hp]
        simp

theorem resolve_append_eq_ok_iff :
    (resolve tree (sources ++ more)).result = .ok paths ↔
      ∃ first second, (resolve tree sources).result = .ok first ∧
        (resolve tree more).result = .ok second ∧ paths = first ++ second := by
  cases hs : (resolve tree sources).result with
  | error failure => simp [resolve_append_of_error hs, hs]
  | ok first =>
    rw [resolve_append_of_ok hs]
    cases hm : (resolve tree more).result with
    | error failure => simp
    | ok second => simp [eq_comm]

/-- One segment for each source, and none of them empty. -/
theorem resolve_eq_ok_iff :
    (resolve tree sources).result = .ok paths ↔
      ∃ segments, List.Forall₂ (StandsFor tree) sources segments ∧
        (∀ segment ∈ segments, segment ≠ []) ∧ paths = segments.flatten := by
  induction sources generalizing paths with
  | nil => simp [resolve, eq_comm]
  | cons source rest ih =>
    rw [← List.singleton_append, resolve_append_eq_ok_iff, resolve_singleton]
    constructor
    · rintro ⟨first, second, hf, hs, rfl⟩
      obtain ⟨hstands, hne⟩ := resolveOne_eq_ok_iff.1 hf
      obtain ⟨segments, hall, hnes, rfl⟩ := ih.1 hs
      exact ⟨first :: segments, .cons hstands hall, by simpa [hne] using hnes, rfl⟩
    · rintro ⟨segments, hall, hnes, rfl⟩
      obtain ⟨first, others, hstands, hrest, rfl⟩ := List.forall₂_cons_left_iff.1 hall
      rw [List.forall_mem_cons] at hnes
      exact ⟨first, others.flatten, resolveOne_eq_ok_iff.2 ⟨hstands, hnes.1⟩,
        ih.2 ⟨others, hrest, hnes.2, rfl⟩, rfl⟩

theorem resolve_append_eq_error_iff :
    (resolve tree (sources ++ more)).result = .error failure ↔
      (resolve tree sources).result = .error failure ∨
        (∃ paths, (resolve tree sources).result = .ok paths) ∧
          (resolve tree more).result = .error failure := by
  cases hs : (resolve tree sources).result with
  | error other => simp [resolve_append_of_error hs, hs]
  | ok first =>
    rw [resolve_append_of_ok hs]
    cases hm : (resolve tree more).result <;> simp

/-- The failure is that of the first source that fails by itself. -/
theorem resolve_eq_error_iff :
    (resolve tree sources).result = .error failure ↔
      ∃ before source after, sources = before ++ source :: after ∧
        (∀ other ∈ before, ∃ paths, (resolve tree [other]).result = .ok paths) ∧
        (resolve tree [source]).result = .error failure := by
  induction sources with
  | nil => simp [resolve]
  | cons source rest ih =>
    rw [← List.singleton_append, resolve_append_eq_error_iff, ih]
    constructor
    · rintro (hf | ⟨ho, before, failing, after, rfl, hb, hf⟩)
      · exact ⟨[], source, rest, rfl, by simp, hf⟩
      · exact ⟨source :: before, failing, after, rfl, List.forall_mem_cons.2 ⟨ho, hb⟩, hf⟩
    · rintro ⟨before, failing, after, hs, hb, hf⟩
      cases before with
      | nil =>
        cases hs
        exact .inl hf
      | cons other before =>
        cases hs
        obtain ⟨ho, hb⟩ := List.forall_mem_cons.1 hb
        exact .inr ⟨ho, before, failing, after, rfl, hb, hf⟩

/-- Nothing matched the first source that stands for nothing, if those before it stand for
something. -/
theorem resolve_nothingMatched_iff :
    (resolve tree sources).result = .error (.nothingMatched name) ↔
      ∃ before after, sources = before ++ name :: after ∧
        (∀ other ∈ before, ∃ segment, StandsFor tree other segment ∧ segment ≠ []) ∧
        StandsFor tree name [] := by
  simp only [resolve_eq_error_iff, resolve_singleton, resolveOne_eq_ok_iff,
    resolveOne_nothingMatched_iff]
  constructor
  · rintro ⟨before, source, after, hs, hb, hn, rfl⟩
    exact ⟨before, after, hs, hb, hn⟩
  · rintro ⟨before, after, hs, hb, hn⟩
    exact ⟨before, name, after, hs, hb, hn, rfl⟩

/-- Sources are resolved in turn.  Two lists together come to what each comes to, or fail as the
first source of them that fails by itself.  The paths are in one segment for each source, none of
them empty; the source that nothing matched is the first whose segment would be, and never a literal
path. -/
theorem resolve_in_turn (tree : FileTree) (sources more : List String) :
    (∀ paths, (resolve tree (sources ++ more)).result = .ok paths ↔
      ∃ first second, (resolve tree sources).result = .ok first ∧
        (resolve tree more).result = .ok second ∧ paths = first ++ second) ∧
    (∀ failure, (resolve tree (sources ++ more)).result = .error failure ↔
      ∃ before source after, sources ++ more = before ++ source :: after ∧
        (∀ other ∈ before, ∃ paths, (resolve tree [other]).result = .ok paths) ∧
        (resolve tree [source]).result = .error failure) ∧
    (∀ paths, (resolve tree sources).result = .ok paths ↔
      ∃ segments, List.Forall₂ (StandsFor tree) sources segments ∧
        (∀ segment ∈ segments, segment ≠ []) ∧ paths = segments.flatten) ∧
    (∀ name, (resolve tree sources).result = .error (.nothingMatched name) ↔
      ∃ before after, sources = before ++ name :: after ∧
        (∀ other ∈ before, ∃ segment, StandsFor tree other segment ∧ segment ≠ []) ∧
        StandsFor tree name []) ∧
    (∀ name, (resolve tree sources).result = .error (.nothingMatched name) →
      HasWildcard name ∨ tree.isFolder name = true) := by
  refine ⟨fun _ => resolve_append_eq_ok_iff, fun _ => resolve_eq_error_iff,
    fun _ => resolve_eq_ok_iff, fun _ => resolve_nothingMatched_iff, ?_⟩
  intro name h
  obtain ⟨-, -, -, -, hn⟩ := resolve_nothingMatched_iff.1 h
  exact hn.of_nil

end ToolSwitch.Files.Sources
