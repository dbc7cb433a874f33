import ToolSwitch.CommandLine.Run
import ToolSwitch.Proofs.Batch.Run
import ToolSwitch.Proofs.CommandLine.Arguments
import ToolSwitch.Proofs.Generation.Blocks

/-!
Runs that leave the tree of files as it is: those that only look at it, and those that fail before
there is anything to write.
-/

namespace ToolSwitch

open ToolSwitch.Files ToolSwitch.Markup ToolSwitch.Schema ToolSwitch.Text

namespace Generation

variable {options : Options} {tree : FileTree} {schema : String}

/-- A pass is refused for the very flaw that reading the document to its end meets. -/
theorem ofDocument_verdict (options : Options) (document : Document) :
    ((ofDocument options document).result.map fun _ => ()) =
      (Scan.start options.scope document).verdict := by
  rw [Scan.verdict_findRule rfl, Pull.verdict]
  cases hr : (Scan.start options.scope document).findRule.result with
  | error flaw =>
    rw [(ofDocument_of_error hr).2]
    rfl
  | ok found =>
    cases found with
    | none =>
      rw [(ofDocument_of_none hr).2]
      rfl
    | some rule =>
      rw [(ofDocument_of_rule hr).2]
      change _ = (Scan.start options.scope document).findRule.next.verdict
      rw [← Scan.yields_verdict]
      cases (Scan.start options.scope document).findRule.next.yields.2 <;> rfl

/-- A schema that no text can be read from, or a text that is malformed somewhere. -/
inductive Refused (options : Options) (tree : FileTree) (schema : String) : Prop where
  | unreadable (fault : FileFault) : tree.readText schema = .error fault →
      Refused options tree schema
  | malformed (text : String) (flaw : Flaw) : tree.readText schema = .ok text →
      (Scan.start options.scope (.read (Utf8.encode text))).verdict = .error flaw →
      Refused options tree schema

theorem ofFile_of_refused (h : Refused options tree schema) :
    ∃ failure, (ofFile options tree schema).result = .error failure := by
  cases h with
  | unreadable fault ht => exact ⟨.file fault, by rw [ofFile, ht]⟩
  | malformed text flaw ht hv =>
    rw [← ofDocument_verdict] at hv
    cases hd : (ofDocument options (.read (Utf8.encode text))).result with
    | ok summary =>
      rw [hd] at hv
      cases hv
    | error other =>
      have hp : (ofText options schema text).result =
          .error ((Failure.schema ⟨other, schema, none⟩).attach text) := by
        rw [ofText, ofBytes_result, hd]
        rfl
      refine ⟨(Failure.schema ⟨other, schema, none⟩).attach text, ?_⟩
      simp only [ofFile, ht, hp]

end Generation

namespace CommandLine

open ToolSwitch.Generation

variable {options : Options} {settings : Settings} {tree : FileTree} {schema : String}
  {schemas inputs arguments : List String} {output folder : Option String}
  {invocation : Invocation} {failure : Failure}

/-- A run that fails and leaves the tree as it is. -/
structure Outcome.Idle (outcome : Outcome) (tree : FileTree) : Prop where
  status : outcome.status = .failure
  tree : outcome.tree = tree

theorem Outcome.Idle.behind {outcome : Outcome} (h : outcome.Idle tree) (reports : List Report) :
    (outcome.behind reports).Idle tree :=
  ⟨h.status, h.tree⟩

theorem Outcome.Idle.failed (tree : FileTree) (output : String) (reports : List Report)
    (complaint : String) : (Outcome.failed tree output reports complaint).Idle tree :=
  ⟨rfl, rfl⟩

/-! ### Commands -/

theorem inspect_tree (options : Options) (tree : FileTree) (input : String) :
    (inspect options tree input).tree = tree := by
  unfold inspect
  split
  · rfl
  · split <;> rfl

theorem task_tree (options : Options) (tree : FileTree) (source : String) :
    (task options tree source).tree = tree := by
  unfold task
  split <;> rfl

theorem printAll_tree (options : Options) (tree : FileTree) (schemas : List String) :
    (printAll options tree schemas).tree = tree := by
  induction schemas with
  | nil => rfl
  | cons schema rest ih =>
    unfold printAll
    dsimp only
    split
    · rfl
    · exact ih

theorem writeOne_idle (h : Refused options tree schema) (output : String) :
    (writeOne options tree schema output).Idle tree := by
  obtain ⟨failure, hr⟩ := ofFile_of_refused h
  simp only [writeOne, hr]
  exact .failed ..

/-- What a run of `generate` is about: what the command line names, or else the settings. -/
def requested (settings : Settings) (inputs : List String) : List String :=
  if inputs.isEmpty then settings.sources else inputs

/-- What it does with the schemas that this stands for. -/
def deliver (options : Options) (settings : Settings) (tree : FileTree)
    (output folder : Option String) (schemas : List String) : Outcome :=
  match targetFolder settings output folder, output with
  | some target, _ => writeAll options tree schemas target.folder target.extension
  | none, some output =>
    match schemas with
    | [schema] => writeOne options tree schema output
    | _ => .failed tree "" [] s!"--output takes exactly one schema, got {schemas.length}"
  | none, none => printAll options tree schemas

theorem generate_cases (options : Options) (settings : Settings) (tree : FileTree)
    (inputs : List String) (output folder : Option String) :
    (generate options settings tree inputs output folder).Idle tree ∨
      requested settings inputs ≠ [] ∧
        ∃ schemas, (Sources.resolve tree (requested settings inputs)).result = .ok schemas ∧
          generate options settings tree inputs output folder =
            .behind (Sources.resolve tree (requested settings inputs)).reports
              (deliver options settings tree output folder schemas) := by
  by_cases hn : requested settings inputs = []
  · refine .inl ?_
    unfold generate
    rw [show (if inputs.isEmpty then settings.sources else inputs) = [] from hn]
    exact .failed ..
  · have he : (requested settings inputs).isEmpty = false := by simpa using hn
    cases hr : (Sources.resolve tree (requested settings inputs)).result with
    | error failure =>
      rw [requested] at he hr
      simp only [generate, he, hr, Bool.false_eq_true, if_false]
      exact .inl (.failed ..)
    | ok schemas =>
      refine .inr ⟨hn, schemas, rfl, ?_⟩
      rw [requested] at he hr ⊢
      simp only [generate, he, hr, Bool.false_eq_true, if_false]
      rfl

theorem generate_idle (h : requested settings inputs = [] ∨
      ∃ failure, (Sources.resolve tree (requested settings inputs)).result = .error failure)
    (options : Options) (output folder : Option String) :
    (generate options settings tree inputs output folder).Idle tree := by
  obtain hi | ⟨hn, schemas, hr, -⟩ := generate_cases options settings tree inputs output folder
  · exact hi
  · obtain he | ⟨failure, hf⟩ := h
    · exact absurd he hn
    · cases hr.symm.trans hf

theorem generate_prints_tree (ht : settings.target = none) (options : Options) (tree : FileTree)
    (inputs : List String) : (generate options settings tree inputs none none).tree = tree := by
  obtain hi | ⟨-, schemas, -, hg⟩ := generate_cases options settings tree inputs none none
  · exact hi.tree
  · have hd : deliver options settings tree none none schemas = printAll options tree schemas := by
      simp only [deliver, targetFolder, ht]
    rw [hg, hd]
    exact printAll_tree options tree schemas

theorem generate_file_idle (file : String)
    (h : ∀ schema, (Sources.resolve tree (requested settings inputs)).result = .ok [schema] →
      Refused options tree schema) :
    (generate options settings tree inputs (some file) none).Idle tree := by
  obtain hi | ⟨-, schemas, hr, hg⟩ := generate_cases options settings tree inputs (some file) none
  · exact hi
  · rw [hg]
    refine Outcome.Idle.behind ?_ _
    simp only [deliver, targetFolder]
    split
    · next schema => exact writeOne_idle (h schema hr) file
    · exact .failed ..

/-! ### Runs -/

theorem run_idle_of_error (h : (Settings.load tree invocation.settings).1 = .error failure) :
    (invocation.run tree).Idle tree := by
  rcases hl : Settings.load tree invocation.settings with ⟨result, reports⟩
  rw [hl] at h
  cases h
  simp only [Invocation.run, hl]
  exact .failed ..

theorem run_eq_behind (h : (Settings.load tree invocation.settings).1 = .ok settings) :
    invocation.run tree = .behind (Settings.load tree invocation.settings).2
      (match invocation.command with
        | .generate inputs output folder =>
          generate (invocation.options settings) settings tree inputs output folder
        | .inspect input => inspect (invocation.options settings) tree input
        | .task source => task (invocation.options settings) tree source) := by
  rcases hl : Settings.load tree invocation.settings with ⟨result, reports⟩
  rw [hl] at h
  cases h
  cases hc : invocation.command <;> simp only [Invocation.run, hl, hc]

/-- Looking at schemas, telling their lines and printing their accessors leave the tree as it is.  So
does generation that fails because there are no settings or no schemas to be had, or because what a
file is to be written from is not one schema that can be read to its end. -/
theorem run_untouched (h : Wish.ofArguments arguments = .run invocation) (tree : FileTree) :
    (∀ input, invocation.command = .inspect input → (run tree arguments).tree = tree) ∧
      (∀ source, invocation.command = .task source → (run tree arguments).tree = tree) ∧
      ∀ inputs output folder, invocation.command = .generate inputs output folder →
        (∀ failure, (Settings.load tree invocation.settings).1 = .error failure →
          (run tree arguments).Idle tree) ∧
        ∀ settings, (Settings.load tree invocation.settings).1 = .ok settings →
          let sources := requested settings inputs
          (output = none → folder = none → settings.target = none →
            (run tree arguments).tree = tree) ∧
          ((sources = [] ∨ ∃ failure, (Sources.resolve tree sources).result = .error failure) →
            (run tree arguments).Idle tree) ∧
          ∀ file, output = some file →
            (∀ schema, (Sources.resolve tree sources).result = .ok [schema] →
              Refused (invocation.options settings) tree schema) →
            (run tree arguments).Idle tree := by
  have hrun : run tree arguments = invocation.run tree := by rw [run, h]
  rw [hrun]
  refine ⟨fun input hc => ?_, fun source hc => ?_, fun inputs output folder hc =>
    ⟨fun failure hl => run_idle_of_error hl, fun settings hl => ?_⟩⟩
  · cases hl : (Settings.load tree invocation.settings).1 with
    | error failure => exact (run_idle_of_error hl).tree
    | ok settings =>
      rw [run_eq_behind hl, hc]
      exact inspect_tree ..
  · cases hl : (Settings.load tree invocation.settings).1 with
    | error failure => exact (run_idle_of_error hl).tree
    | ok settings =>
      rw [run_eq_behind hl, hc]
      exact task_tree ..
  · rw [run_eq_behind hl, hc]
    refine ⟨?_, fun hs => (generate_idle hs ..).behind _, ?_⟩
    · rintro rfl rfl ht
      exact generate_prints_tree ht ..
    · rintro file rfl hf
      obtain rfl := folder_eq_none h hc
      exact (generate_file_idle file hf).behind _

/-- A schema that breaks off behind a complete property, and a file that is there already. -/
theorem run_untouched_behind_property :
    let tree : FileTree := ⟨[(["a.xml"], .file (Utf8.encode "<Rule><IntProperty/>")),
      (["a.cs"], .file (Utf8.encode "old"))], []⟩
    let arguments := ["generate", "a.xml", "-o", "a.cs"]
    Wish.ofArguments arguments =
        .run ⟨none, false, none, none, .generate ["a.xml"] (some "a.cs") none⟩ ∧
      (run tree arguments).Idle tree := by
  intro tree arguments
  have hw : Wish.ofArguments arguments =
      .run ⟨none, false, none, none, .generate ["a.xml"] (some "a.cs") none⟩ := by decide +kernel
  have hl : (Settings.load tree none).1 = .ok .default := by decide +kernel
  have hr : (Sources.resolve tree ["a.xml"]).result = .ok ["a.xml"] := by decide +kernel
  have ht : tree.readText "a.xml" = .ok "<Rule><IntProperty/>" := by decide +kernel
  refine ⟨hw, (((run_untouched hw tree).2.2 _ _ _ rfl).2 _ hl).2.2 "a.cs" rfl fun schema hs => ?_⟩
  cases hr.symm.trans hs
  exact .malformed _ ⟨.unclosed "Rule", 20⟩ ht (by decide +kernel)

end CommandLine

end ToolSwitch
