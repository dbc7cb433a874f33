import Mathlib.Data.List.Basic
import ToolSwitch.Files.Path

/-!
A name joined to a folder's path is the last part of the path that comes out.
-/

namespace ToolSwitch.Files.Path

variable {folder name path part stem : String}

/-- A text that is one part of a path. -/
def IsName (name : String) : Prop :=
  name ≠ "" ∧ '/' ∉ name.toList

instance : DecidablePred IsName := fun name =>
  inferInstanceAs (Decidable (name ≠ "" ∧ '/' ∉ name.toList))

theorem slash_not_mem_splitOn (text : List Char) : ∀ part ∈ text.splitOn '/', '/' ∉ part := by
  induction text with
  | nil => simp
  | cons c text ih =>
    rw [List.splitOn_cons_eq_if_modifyHead]
    split
    · simpa using ih
    · next hc =>
      cases hs : text.splitOn '/' with
      | nil => exact absurd hs (List.splitOn_ne_nil _ _)
      | cons first others =>
        rw [hs] at ih
        simp only [beq_iff_eq] at hc
        simpa [Ne.symm hc] using ih

theorem isName_of_mem_parts (h : part ∈ parts path) : IsName part := by
  simp only [parts, List.mem_filter, List.mem_map, decide_eq_true_eq] at h
  obtain ⟨⟨text, ht, rfl⟩, hn⟩ := h
  refine ⟨hn, ?_⟩
  rw [String.toList_ofList]
  exact slash_not_mem_splitOn _ text ht

theorem parts_name (h : IsName name) : parts name = [name] := by
  simp [parts, List.splitOn_eq_singleton h.2, h.1]

theorem parts_append_slash (folder name : String) :
    parts (folder ++ "/" ++ name) = parts folder ++ parts name := by
  simp [parts, List.splitOn_append_cons_self]

theorem parts_append_of_endsOpen (h : endsOpen folder = true) (name : String) :
    parts (folder ++ name) = parts folder ++ parts name := by
  obtain ⟨init, hi⟩ := List.getLast?_eq_some_iff.1 (by simpa [endsOpen] using h)
  simp [parts, hi, List.splitOn_append_cons_self]

theorem IsName.isAbsolute (h : IsName name) : isAbsolute name = false := by
  cases ha : Path.isAbsolute name with
  | false => rfl
  | true => exact absurd (List.mem_of_mem_head? (by simpa [Path.isAbsolute] using ha)) h.2

theorem parts_join (folder : String) (h : IsName name) :
    parts (join folder name) = parts folder ++ [name] := by
  rw [join, h.isAbsolute, if_neg (by simp)]
  split
  · next hf =>
    obtain rfl | ho := hf
    · rw [String.empty_append, parts_name h]
      rfl
    · rw [parts_append_of_endsOpen ho, parts_name h]
  · rw [parts_append_slash, parts_name h]

theorem endsOpen_join (folder : String) (h : IsName name) :
    endsOpen (join folder name) = false := by
  have hl : ∀ before, endsOpen (before ++ name) = endsOpen name := fun before => by
    simp [endsOpen, h.1]
  have hn : endsOpen name = false := by
    cases he : endsOpen name with
    | false => rfl
    | true => exact absurd (List.mem_of_getLast? (by simpa [endsOpen] using he)) h.2
  rw [join, h.isAbsolute, if_neg (by simp)]
  split <;> rw [hl, hn]

theorem isAbsolute_join (folder : String) (h : IsName name) :
    isAbsolute (join folder name) = isAbsolute folder := by
  have hf : folder ≠ "" → ∀ after, isAbsolute (folder ++ after) = isAbsolute folder := by
    intro hn after
    simp [isAbsolute, hn]
  rw [join, h.isAbsolute, if_neg (by simp)]
  split
  · by_cases hn : folder = ""
    · rw [hn, String.empty_append, h.isAbsolute]
      rfl
    · exact hf hn _
  · next hn =>
    rw [not_or] at hn
    rw [String.append_assoc]
    exact hf hn.1 _

theorem steps_join (folder : String) (h : IsName name) :
    steps (join folder name) = parts folder ++ [name] := by
  rw [steps, endsOpen_join folder h, parts_join folder h, if_neg (by simp), List.append_nil]

theorem splitExtension_isName (h : IsName name) : IsName (splitExtension name).1 := by
  unfold splitExtension
  dsimp only
  split
  · exact h
  · next he =>
    refine ⟨?_, ?_⟩
    · simpa using he
    · rw [String.toList_ofList]
      exact fun hm => h.2 (List.mem_of_mem_take hm)

theorem stem_isName (h : stem? path = some stem) : IsName stem := by
  obtain ⟨name, hn, rfl⟩ := Option.map_eq_some_iff.1 h
  have hm : name ∈ names path := List.mem_of_getLast? (Option.filter_eq_some_iff.1 hn).1
  exact splitExtension_isName (isName_of_mem_parts (List.mem_filter.1 hm).1)

/-! ### Names one inside the other -/

/-- The path that names lead to from a folder. -/
def joinAll (folder : String) (names : List String) : String :=
  names.foldl join folder

theorem joinAll_concat (folder : String) (names : List String) (name : String) :
    joinAll folder (names ++ [name]) = join (joinAll folder names) name := by
  rw [joinAll, List.foldl_append]
  rfl

theorem parts_joinAll {names : List String} (h : ∀ name ∈ names, IsName name) (folder : String) :
    parts (joinAll folder names) = parts folder ++ names := by
  induction names generalizing folder with
  | nil => rw [List.append_nil]; rfl
  | cons name names ih =>
    obtain ⟨hn, h⟩ := List.forall_mem_cons.1 h
    calc
      parts (joinAll (join folder name) names)
      _ = parts (join folder name) ++ names := ih h _
      _ = parts folder ++ name :: names := by
        rw [parts_join folder hn, List.append_assoc, List.singleton_append]

/-- A name that an entry can have. -/
def IsProper (name : String) : Prop :=
  IsName name ∧ name ≠ "." ∧ name ≠ ".."

instance : DecidablePred IsProper := fun name =>
  inferInstanceAs (Decidable (IsName name ∧ name ≠ "." ∧ name ≠ ".."))

theorem fileName?_of_parts {before : List String} (hn : IsProper name)
    (h : parts path = before ++ [name]) : fileName? path = some name := by
  obtain ⟨-, hdot, hup⟩ := hn
  have hnames : names path = before.filter (· ≠ ".") ++ [name] := by
    simp [names, h, hdot]
  rw [fileName?, hnames, List.getLast?_concat]
  simp [hup]

/-! ### Extensions -/

theorem takeWhile_dot {tail : List Char} (h : '.' ∉ tail) (rest : List Char) :
    (tail.reverse ++ rest).takeWhile (· ≠ '.') = tail.reverse ++ rest.takeWhile (· ≠ '.') := by
  refine List.takeWhile_append_of_pos fun c hc => ?_
  exact decide_eq_true (ne_of_mem_of_not_mem (List.mem_reverse.1 hc) h)

/-- A file name that ends in a dot and what is behind it. -/
theorem splitExtension_of_dot {head tail : List Char} (hn : name.toList = head ++ '.' :: tail)
    (ht : '.' ∉ tail) :
    splitExtension name =
      if head.isEmpty then (name, none) else (String.ofList head, some (String.ofList tail)) := by
  have htail : (name.toList.reverse.takeWhile (· ≠ '.')).reverse = tail := by
    rw [hn, List.reverse_append, List.reverse_cons, List.append_assoc, takeWhile_dot ht]
    simp
  have hlength : name.length - tail.length - 1 = head.length := by
    rw [← String.length_toList, hn, List.length_append, List.length_cons]
    omega
  have hhead : name.toList.take (name.length - tail.length - 1) = head := by
    rw [hlength, hn, List.take_left]
  simp only [splitExtension, htail, hhead]

theorem splitExtension_of_no_dot (h : '.' ∉ name.toList) : splitExtension name = (name, none) := by
  have htail : (name.toList.reverse.takeWhile (· ≠ '.')).reverse = name.toList := by
    have ht := takeWhile_dot h []
    rw [List.append_nil, List.takeWhile_nil, List.append_nil] at ht
    rw [ht, List.reverse_reverse]
  have hlength : name.length - name.toList.length - 1 = 0 := by
    rw [← String.length_toList]
    omega
  simp only [splitExtension, htail, hlength, List.take_zero, List.isEmpty_nil, if_true]

/-- A file name's extension is what is behind its last dot, if there is something before that. -/
theorem splitExtension_eq_some_iff {ending : String} :
    (splitExtension name).2 = some ending ↔
      '.' ∉ ending.toList ∧ ∃ stem, stem ≠ "" ∧ name = stem ++ "." ++ ending := by
  constructor
  · intro h
    by_cases hd : '.' ∈ name.toList.reverse
    · obtain ⟨tail, head, hr, ht⟩ := List.eq_append_cons_of_mem hd
      have hn : name.toList = head.reverse ++ '.' :: tail.reverse := by
        simpa using congrArg List.reverse hr
      have ht' : '.' ∉ tail.reverse := by simpa using ht
      rw [splitExtension_of_dot hn ht'] at h
      split at h
      · cases h
      · next he =>
        cases h
        refine ⟨by simpa using ht, String.ofList head.reverse, by simpa using he, ?_⟩
        rw [← String.toList_inj, hn]
        simp
    · rw [splitExtension_of_no_dot (by simpa using hd)] at h
      cases h
  · rintro ⟨hd, stem, hs, rfl⟩
    have hn : (stem ++ "." ++ ending).toList = stem.toList ++ '.' :: ending.toList := by simp
    rw [splitExtension_of_dot hn hd, if_neg (by simpa using hs)]
    simp

end ToolSwitch.Files.Path
