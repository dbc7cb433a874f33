import ToolSwitch.Proofs.Accessor.Printable
import ToolSwitch.Proofs.Generation.Blocks
import ToolSwitch.Relay

/-!
Lines that are told one by one, against the text they are told from.  Put below one another they are
the text again, but for the carriage returns in front of its line feeds.  In generated text nothing
but an identifier brings these in.
-/

namespace ToolSwitch.Relay

open ToolSwitch.CSharp ToolSwitch.Files ToolSwitch.Schema

section

variable {front back line text : List Char}

/-- A carriage return with its line feed. -/
def crlf : List Char :=
  ['\r', '\n']

theorem not_crlf_infix {c : Char} (hc : c ∈ crlf) (h : c ∉ front) : ¬ crlf <:+: front :=
  fun hp => h (hp.subset hc)

theorem crlf_infix_append (h : '\r' ∉ front) : crlf <:+: front ++ back ↔ crlf <:+: back := by
  induction front with
  | nil => rfl
  | cons c rest ih =>
    rw [List.mem_cons, not_or] at h
    rw [List.cons_append, List.infix_cons_iff, ih h.2, crlf, List.cons_prefix_cons]
    simp [h.1]

/-- None reaches over a line feed. -/
theorem crlf_infix_append_newline :
    crlf <:+: front ++ '\n' :: back ↔ crlf <:+: front ++ ['\n'] ∨ crlf <:+: back := by
  induction front with
  | nil => simp [List.infix_cons_iff, crlf]
  | cons c rest ih =>
    have hp : crlf <+: c :: (rest ++ '\n' :: back) ↔ crlf <+: c :: (rest ++ ['\n']) := by
      cases rest <;> simp [crlf]
    rw [List.cons_append, List.infix_cons_iff, ih, hp, List.cons_append, List.infix_cons_iff,
      or_assoc]

theorem crlf_infix_snoc :
    crlf <:+: front ++ ['\n'] ↔ crlf <:+: front ∨ front.getLast? = some '\r' := by
  have hs : crlf <:+ front ++ ['\n'] ↔ front.getLast? = some '\r' := by
    rw [crlf, ← List.singleton_append, List.suffix_append_inj_of_length_eq rfl,
      List.getLast?_eq_some_iff]
    simp [List.IsSuffix, eq_comm]
  rw [List.infix_concat_iff, hs, or_comm]

/-- Lines below one another, each with a line feed behind it. -/
def rejoin (lines : List (List Char)) : List Char :=
  lines.flatMap (· ++ ['\n'])

theorem rejoin_cons (first : List Char) (rest : List (List Char)) :
    rejoin (first :: rest) = first ++ '\n' :: rejoin rest := by
  simp [rejoin]

theorem trim_append_newline (line rest other : List Char) :
    trim line ++ '\n' :: other = line ++ '\n' :: rest ↔
      line.getLast? ≠ some '\r' ∧ other = rest := by
  by_cases h : line.getLast? = some '\r'
  · obtain ⟨short, rfl⟩ := List.getLast?_eq_some_iff.1 h
    simp [trim]
  · simp [trim, h]

/-- The lines of a text in which the last line is ended too are the text again just if no line feed
has a carriage return in front of it. -/
theorem rejoin_linesOf (hl : '\n' ∉ line)
    (ht : ∀ c ∈ (line.reverse ++ text).getLast?, c = '\n') :
    rejoin (linesOf line text) = line.reverse ++ text ↔ ¬ crlf <:+: line.reverse ++ text := by
  -- `line` is what has been read of the line that `text` goes on with
  induction text generalizing line with
  | nil =>
    cases line with
    | nil => simp [linesOf, rejoin, crlf]
    | cons c rest =>
      obtain rfl : c = '\n' := by simpa using ht
      exact absurd List.mem_cons_self hl
  | cons c rest ih =>
    rw [linesOf]
    by_cases hc : c = '\n'
    · subst hc
      have hr : ∀ d ∈ rest.getLast?, d = '\n' := by
        intro d hd
        refine ht d ?_
        rw [List.getLast?_append, List.getLast?_cons, Option.mem_def.1 hd]
        rfl
      have hi := @ih [] List.not_mem_nil (by simpa using hr)
      rw [List.reverse_nil, List.nil_append] at hi
      have hp : ¬ crlf <:+: line.reverse :=
        not_crlf_infix (List.mem_cons_of_mem _ List.mem_cons_self) (by simpa using hl)
      rw [if_pos rfl, rejoin_cons, trim_append_newline, hi, crlf_infix_append_newline,
        crlf_infix_snoc]
      simp [hp]
    · have hn : '\n' ∉ c :: line := by simp [hl, Ne.symm hc]
      have hs : (c :: line).reverse ++ rest = line.reverse ++ c :: rest := by simp
      rw [if_neg hc, ← hs]
      exact ih hn (hs ▸ ht)

end

theorem join_lines {text : String} (h : ∀ c ∈ text.toList.getLast?, c = '\n') :
    String.join ((lines text).map (· ++ "\n")) = text ↔ ¬ crlf <:+: text.toList := by
  have hj : (String.join ((lines text).map (· ++ "\n"))).toList =
      rejoin (linesOf [] text.toList) := by
    rw [String.toList_join, List.flatMap_map, lines, List.flatMap_map, rejoin]
    simp
  rw [← String.toList_inj, hj]
  exact rejoin_linesOf List.not_mem_nil h

section

variable (getters : Getters) (lead : String)

theorem crlf_infix_render (property : Property) :
    crlf <:+: (Accessor.render getters lead property).toList ++ ['\n'] ↔
      crlf <:+: property.title.toList ++ ['\n'] := by
  have hd : '\r' ∉ (Accessor.declarator property.kind).toList := by
    cases property.kind <;> decide
  have hb := Accessor.return_not_mem_body getters lead property
  obtain ⟨below, he⟩ :
      ∃ below, Line.below (Accessor.body getters lead property) = '\n' :: below := ⟨_, rfl⟩
  have ht : (Accessor.render getters lead property).toList =
      (Accessor.declarator property.kind).toList ++ (property.title.toList ++ '\n' :: below) := by
    rw [← he, ← Accessor.toList_rest, ← String.toList_append, ← String.toList_append,
      ← String.append_assoc]
    rfl
  have hn : ¬ crlf <:+: below ++ ['\n'] :=
    not_crlf_infix List.mem_cons_self (by simpa [he] using hb)
  rw [ht, List.append_assoc, crlf_infix_append hd, List.append_assoc, List.cons_append,
    crlf_infix_append_newline]
  exact or_iff_left hn

theorem crlf_infix_renderAll (properties : List Property) :
    crlf <:+: (Accessor.renderAll getters lead properties).toList ↔
      ∃ property ∈ properties, crlf <:+: property.title.toList ++ ['\n'] := by
  induction properties with
  | nil => simp [Accessor.renderAll, crlf]
  | cons property others ih =>
    have ht : (Accessor.renderAll getters lead (property :: others)).toList =
        (Accessor.render getters lead property).toList ++
          '\n' :: (Accessor.renderAll getters lead others).toList := by
      rw [Accessor.renderAll_cons, String.append_assoc, String.toList_append, String.toList_append]
      rfl
    rw [ht, crlf_infix_append_newline, crlf_infix_render, ih]
    simp

theorem getLast?_renderAll (properties : List Property) :
    ∀ c ∈ (Accessor.renderAll getters lead properties).toList.getLast?, c = '\n' := by
  rcases List.eq_nil_or_concat properties with rfl | ⟨front, last, rfl⟩
  · simp [Accessor.renderAll]
  · rw [List.concat_eq_append, Accessor.renderAll_append, Accessor.renderAll_cons]
    simp [Accessor.renderAll]

/-- Accessors are told as they are unless an identifier brings in a carriage return that a line feed
follows, be it the one behind the identifier. -/
theorem join_lines_renderAll (properties : List Property) :
    String.join ((lines (Accessor.renderAll getters lead properties)).map (· ++ "\n")) =
        Accessor.renderAll getters lead properties ↔
      ∀ property ∈ properties,
        ¬ (['\r', '\n'] <:+: property.title.toList ∨
          property.title.toList.getLast? = some '\r') := by
  rw [join_lines (getLast?_renderAll getters lead properties), crlf_infix_renderAll]
  simp only [not_exists, not_and, crlf_infix_snoc]
  rfl

end

/-! A pass reports what it does, and no lines. -/

theorem report_of_mem_map {notices : List Notice} {report : Report}
    (h : report ∈ notices.map .scan) : ∃ notice, report = .scan notice := by
  obtain ⟨notice, -, rfl⟩ := List.mem_map.1 h
  exact ⟨notice, rfl⟩

theorem report_of_blocks {getters : Getters} {lead : String} {scan : Scan} {report : Report}
    (h : report ∈ (Generation.blocks getters lead scan).reports) :
    ∃ notice, report = .scan notice := by
  fun_induction Generation.blocks getters lead scan with
  | case1 | case2 => exact report_of_mem_map h
  | case3 =>
    rename_i ih
    obtain h | h := List.mem_append.1 h
    · exact report_of_mem_map h
    · exact ih h

theorem report_of_document {options : Options} {document : Markup.Document} {report : Report}
    (h : report ∈ (Generation.ofDocument options document).reports) :
    (∃ notice, report = .scan notice) ∨ report = .noRule := by
  unfold Generation.ofDocument at h
  dsimp only at h
  split at h
  · exact .inl (report_of_mem_map h)
  · obtain h | h := List.mem_append.1 h
    · exact .inl (report_of_mem_map h)
    · exact .inr (List.mem_singleton.1 h)
  · obtain h | h := List.mem_append.1 h
    · exact .inl (report_of_mem_map h)
    · exact .inl (report_of_blocks h)

variable (options : Options) (tree : FileTree) (source : String)

theorem relayed_not_mem (line : String) :
    .relayed line ∉ (Generation.ofFile options tree source).reports := by
  have hd : ∀ document, .relayed line ∉ (Generation.ofDocument options document).reports := by
    intro document h
    obtain ⟨notice, h⟩ | h := report_of_document h <;> cases h
  rw [Generation.ofFile]
  split
  · exact List.not_mem_nil
  · dsimp only
    split
    · exact hd _
    · rw [List.mem_append, List.mem_singleton, not_or]
      exact ⟨hd _, Report.noConfusion⟩

variable {options tree source}

theorem relay_of_error {failure : Failure}
    (h : (Generation.ofFile options tree source).result = .error failure) :
    relay options tree source =
      (.error failure, (Generation.ofFile options tree source).reports) := by
  rw [relay, h]
  rfl

theorem relay_of_ok {summary : Summary}
    (h : (Generation.ofFile options tree source).result = .ok summary) :
    relay options tree source =
      (.ok (lines (Generation.ofFile options tree source).output),
        (Generation.ofFile options tree source).reports) := by
  rw [relay, h]
  rfl

theorem ofFile_schema {summary : Summary}
    (h : (Generation.ofFile options tree source).result = .ok summary) :
    ∃ text found, tree.readText source = .ok text ∧
      RuleSchema.ofText options.scope source text = .ok found ∧
      (Generation.ofFile options tree source).output = Accessor.renderAll options.getters
        (found.elim "" (·.rule.lead)) (found.elim [] RuleSchema.properties) := by
  rw [Generation.ofFile] at h ⊢
  cases ht : tree.readText source with
  | error fault =>
    rw [ht] at h
    cases h
  | ok text =>
    have hs := Generation.ofText_schema options source text
    rw [ht] at h
    cases hf : RuleSchema.ofText options.scope source text with
    | error failure =>
      rw [hf] at hs
      simp [hs] at h
    | ok found =>
      rw [hf] at hs
      obtain ⟨ho, _, hr⟩ := hs
      refine ⟨text, found, rfl, hf, ?_⟩
      dsimp only
      rw [hr]
      exact ho

/-- A schema that is refused has no line told, and the refusal is passed on.  Of any other the lines
that are told are the generated text, unless a property's name holds a carriage return that would
end up in front of a line feed. -/
theorem relay_of_source (options : Options) (tree : FileTree) (source : String) :
    let pass := Generation.ofFile options tree source
    match pass.result with
    | .error failure =>
      (relay options tree source).1 = .error failure ∧
        ∀ line, .relayed line ∉ (run options tree source).2
    | .ok _ =>
      ∃ text found lines,
        tree.readText source = .ok text ∧
          RuleSchema.ofText options.scope source text = .ok found ∧
          (relay options tree source).1 = .ok lines ∧
          (run options tree source).2 = pass.reports ++ lines.map .relayed ∧
          (String.join (lines.map (· ++ "\n")) = pass.output ↔
            ∀ property ∈ found.elim [] RuleSchema.properties,
              ¬ (['\r', '\n'] <:+: property.title.toList ∨
                property.title.toList.getLast? = some '\r')) := by
  intro pass
  cases hr : pass.result with
  | error failure =>
    have hn := relayed_not_mem options tree source
    rw [run, relay_of_error hr]
    exact ⟨rfl, fun line hm => by simp [hn] at hm⟩
  | ok summary =>
    obtain ⟨text, found, ht, hf, ho⟩ := ofFile_schema hr
    rw [run, relay_of_ok hr]
    refine ⟨text, found, _, ht, hf, rfl, rfl, ?_⟩
    simp only [pass, ho]
    exact join_lines_renderAll ..

end ToolSwitch.Relay
