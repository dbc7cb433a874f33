import ToolSwitch.CommandLine.Run
import ToolSwitch.Proofs.Batch.Outcome
import ToolSwitch.Proofs.Generation.Blocks

/-!
The ways to have accessors generated: printed, into a folder, into a file.
-/

namespace ToolSwitch

open ToolSwitch.Files ToolSwitch.Generation ToolSwitch.Schema ToolSwitch.Text

namespace Generation

/-- The blocks of the properties that a schema yields, up to its end or its first flaw. -/
def finished (options : Options) (tree : FileTree) (path : String) : String :=
  match tree.readText path with
  | .error _ => ""
  | .ok text =>
    let pull := (Scan.start options.scope (.read (Utf8.encode text))).findRule
    match pull.result with
    | .ok (some rule) => Accessor.renderAll options.getters rule.lead pull.next.yields.1
    | _ => ""

theorem ofFile_output_of_text {options : Options} {tree : FileTree} {path text : String}
    (h : tree.readText path = .ok text) :
    (ofFile options tree path).output =
      (ofDocument options (.read (Utf8.encode text))).output := by
  have ht : (ofFile options tree path).output = (ofText options path text).output := by
    cases hr : (ofText options path text).result <;> simp only [ofFile, h, hr]
  exact ht

theorem ofFile_output (options : Options) (tree : FileTree) (path : String) :
    (ofFile options tree path).output = finished options tree path := by
  cases ht : tree.readText path with
  | error fault => simp only [ofFile, finished, ht]
  | ok text =>
    rw [ofFile_output_of_text ht]
    cases hr : (Scan.start options.scope (.read (Utf8.encode text))).findRule.result with
    | error flaw => simp only [finished, ht, hr, (ofDocument_of_error hr).1]
    | ok found =>
      cases found with
      | none => simp only [finished, ht, hr, (ofDocument_of_none hr).1]
      | some rule => simp only [finished, ht, hr, (ofDocument_of_rule hr).1]

end Generation

namespace CommandLine

variable {options : Options} {tree : FileTree} {source output : String} {schemas : List String}

/-! ### Modes -/

theorem printAll_append {before : List String}
    (hp : ∀ schema ∈ before, Succeeds options tree schema) (rest : List String) :
    (printAll options tree (before ++ rest)).output =
      String.join (before.map fun schema => (ofFile options tree schema).output) ++
        (printAll options tree rest).output := by
  induction before with
  | nil => simp [String.join_nil]
  | cons schema before ih =>
    rw [List.forall_mem_cons] at hp
    obtain ⟨⟨summary, hr⟩, hp⟩ := hp
    simp only [List.cons_append, printAll, hr, ih hp, List.map_cons, String.join_cons,
      String.append_assoc]

theorem printAll_output_of_succeeds (hp : ∀ schema ∈ schemas, Succeeds options tree schema) :
    (printAll options tree schemas).output =
      String.join (schemas.map fun schema => (ofFile options tree schema).output) := by
  simpa [printAll, Outcome.succeeded] using printAll_append hp []

theorem printAll_cons_output_of_fails (hf : ¬ Succeeds options tree source) (rest : List String) :
    (printAll options tree (source :: rest)).output =
      (ofFile options tree source).output := by
  cases hr : (ofFile options tree source).result with
  | error failure => simp only [printAll, hr, Outcome.failed]
  | ok summary => exact absurd ⟨summary, hr⟩ hf

theorem writeAll_tree (options : Options) (tree : FileTree) (sources : List String)
    (folder extension : String) :
    (writeAll options tree sources folder extension).tree =
      (Batch.write options tree sources folder extension).tree := by
  rw [writeAll]
  cases (Batch.write options tree sources folder extension).result <;> rfl

theorem writeOne_read (hp : Succeeds options tree source)
    (hm : (tree.makeFolders (Path.folder output)).1 = .ok ())
    (ho : (tree.makeFolders (Path.folder output)).2.place? output ≠ none) :
    (writeOne options tree source output).tree.read output =
      .ok (Utf8.encode (ofFile options tree source).output) := by
  obtain ⟨summary, hr⟩ := hp
  obtain ⟨place, hplace⟩ := Option.ne_none_iff_exists'.1 ho
  rcases hf : tree.makeFolders (Path.folder output) with ⟨result, made⟩
  rw [hf] at hm hplace
  cases hm
  simp only [writeOne, hr, hf, FileTree.write_of_place hplace, Outcome.succeeded]
  exact FileTree.read_set hplace _

/-! ### Runs -/

variable {settings : Settings} {inputs : List String}

theorem run_of_load {config : Option String} (hs : (Settings.load tree config).1 = .ok settings)
    (verbose : Bool) (scope : Option Scope) (getters : Option Getters) (inputs : List String)
    (output folder : Option String) :
    let run := Invocation.run ⟨config, verbose, scope, getters, .generate inputs output folder⟩ tree
    let outcome := generate
      ⟨scope.getD settings.options.scope, getters.getD settings.options.getters⟩ settings tree
      inputs output folder
    run.output = outcome.output ∧ run.tree = outcome.tree := by
  rcases hl : Settings.load tree config with ⟨result, reports⟩
  rw [hl] at hs
  cases hs
  simp only [Invocation.run, hl, Invocation.options, Outcome.behind, and_self]

section

variable (hr : (Sources.resolve tree (if inputs.isEmpty then settings.sources else inputs)).result =
  .ok schemas)

include hr

theorem sources_nonempty (hn : schemas ≠ []) :
    (if inputs.isEmpty then settings.sources else inputs).isEmpty = false := by
  generalize (if inputs.isEmpty then settings.sources else inputs) = sources at hr
  cases sources with
  | nil =>
    cases hr
    exact absurd rfl hn
  | cons first rest => rfl

theorem generate_prints (ht : settings.target = none) (options : Options) :
    (generate options settings tree inputs none none).output =
      (printAll options tree schemas).output := by
  by_cases hi : (if inputs.isEmpty then settings.sources else inputs).isEmpty
  · rw [List.isEmpty_iff.1 hi] at hr
    cases hr
    simp only [generate, hi, if_true, Outcome.failed, printAll, Outcome.succeeded]
  · simp only [generate, hi, hr, targetFolder, ht, Outcome.behind, Bool.false_eq_true, if_false]

theorem generate_into_folder (ht : settings.target = none) (hn : schemas ≠ []) (options : Options)
    (folder : String) :
    (generate options settings tree inputs none (some folder)).tree =
      (Batch.write options tree schemas folder "cs").tree := by
  simp only [generate, sources_nonempty hr hn, Bool.false_eq_true, if_false, hr, targetFolder, ht,
    Outcome.behind, writeAll_tree, Option.getD_none, Target.default]

theorem generate_into_file {schema : String} (hn : schemas = [schema]) (options : Options)
    (output : String) :
    (generate options settings tree inputs (some output) none).tree =
      (writeOne options tree schema output).tree := by
  subst hn
  simp only [generate, sources_nonempty hr (List.cons_ne_nil _ _), Bool.false_eq_true, if_false, hr,
    targetFolder, Outcome.behind]

end

/-- The ways to have accessors generated come to the same.  Without settings for the output, what
is printed is what the passes over the schemas put out, one behind the other; in a folder where the
outputs are apart each is in the file of its schema, and the only one is in a file that is named and
can be written.  Before a schema that is refused all is printed, and of that schema the blocks up to
its first flaw. -/
theorem modes_agree (config : Option String) (verbose : Bool) (scope : Option Scope)
    (getters : Option Getters) (inputs : List String)
    (hs : (Settings.load tree config).1 = .ok settings) (ht : settings.target = none)
    (hr : (Sources.resolve tree (if inputs.isEmpty then settings.sources else inputs)).result =
      .ok schemas) :
    let options : Options :=
      ⟨scope.getD settings.options.scope, getters.getD settings.options.getters⟩
    let text := fun schema => (ofFile options tree schema).output
    let run := fun output folder => Invocation.run
      ⟨config, verbose, scope, getters, .generate inputs output folder⟩ tree
    ((∀ schema ∈ schemas, Succeeds options tree schema) →
      (run none none).output = String.join (schemas.map text) ∧
      (∀ folder, Batch.Apart tree schemas folder "cs" → ∀ schema ∈ schemas,
        (run none (some folder)).tree.read (Batch.outputPath folder "cs" schema) =
          .ok (Utf8.encode (text schema))) ∧
      ∀ schema output, schemas = [schema] →
        (tree.makeFolders (Path.folder output)).1 = .ok () →
        (tree.makeFolders (Path.folder output)).2.place? output ≠ none →
        (run (some output) none).tree.read output = .ok (Utf8.encode (text schema))) ∧
    ∀ before schema after, schemas = before ++ schema :: after →
      (∀ earlier ∈ before, Succeeds options tree earlier) → ¬ Succeeds options tree schema →
      (run none none).output =
        String.join (before.map text) ++ finished options tree schema := by
  intro options text run
  have hrun := run_of_load hs verbose scope getters inputs
  refine ⟨fun hp => ⟨?_, fun folder ha schema hm => ?_, fun schema output hn hm ho => ?_⟩,
    fun before schema after hn hp hf => ?_⟩
  · rw [(hrun none none).1, generate_prints hr ht, printAll_output_of_succeeds hp]
  · rw [(hrun none (some folder)).2, generate_into_folder hr ht (List.ne_nil_of_mem hm)]
    exact ha.read_output hp hm
  · rw [(hrun (some output) none).2, generate_into_file hr hn]
    exact writeOne_read (hp schema (by simp [hn])) hm ho
  · rw [(hrun none none).1, generate_prints hr ht, hn, printAll_append hp,
      printAll_cons_output_of_fails hf, ofFile_output]

/-- Two schemas in every way, and the second, which lies outside the working folder, before one that
breaks off in a declaration. -/
theorem modes_agree_on_three :
    let tree : FileTree := ⟨[(["w"], .folder), (["w", "a.xml"], .file (Utf8.encode "<x/>")),
      (["b.xml"], .file (Utf8.encode "<Rule><IntProperty/></Rule>")),
      (["w", "c.xml"], .file (Utf8.encode "<Rule><IntProperty/><"))], ["w"]⟩
    let text := fun schema => (ofFile .default tree schema).output
    let run := fun inputs output folder => Invocation.run
      ⟨none, false, none, none, .generate inputs output folder⟩ tree
    (run ["a.xml", "/b.xml"] none none).output = String.join [text "a.xml", text "/b.xml"] ∧
      (run ["a.xml", "/b.xml"] none (some "out")).tree.read "out/b.cs" =
        .ok (Utf8.encode (text "/b.xml")) ∧
      (run ["/b.xml"] (some "/gen/b.cs") none).tree.read "/gen/b.cs" =
        .ok (Utf8.encode (text "/b.xml")) ∧
      (run ["/b.xml", "c.xml"] none none).output =
        String.join [text "/b.xml"] ++ finished .default tree "c.xml" := by
  intro tree text run
  have hs : (Settings.load tree none).1 = .ok .default := by decide +kernel
  have hpass : ∀ schema ∈ ["a.xml", "/b.xml"], Succeeds .default tree schema := by decide +kernel
  have htwo := (modes_agree none false none none ["a.xml", "/b.xml"] hs rfl
    (by decide +kernel)).1 hpass
  have hone := (modes_agree none false none none ["/b.xml"] hs rfl (by decide +kernel)).1
    (fun schema hm => hpass schema (List.mem_cons_of_mem _ hm))
  have hcut := (modes_agree none false none none ["/b.xml", "c.xml"] hs rfl (by decide +kernel)).2
    ["/b.xml"] "c.xml" [] rfl (fun schema hm => hpass schema (List.mem_cons_of_mem _ hm))
    (by decide +kernel)
  have hout : Batch.outputPath "out" "cs" "/b.xml" = "out/b.cs" := by decide +kernel
  refine ⟨htwo.1, ?_, hone.2.2 "/b.xml" "/gen/b.cs" rfl ?_ ?_, hcut⟩
  · rw [← hout]
    refine htwo.2.1 "out" ⟨?_, ?_, ?_, ?_⟩ "/b.xml" (by simp) <;> decide +kernel
  · decide +kernel
  · decide +kernel

/-- Nothing is where it should be if an output is a link to another one, if the folder is a file or
if the file is a folder. -/
theorem modes_differ :
    let tree : FileTree := ⟨[(["a.xml"], .file (Utf8.encode "<Rule><IntProperty/></Rule>")),
      (["b.xml"], .file (Utf8.encode "<x/>")),
      (["out"], .folder), (["out", "a.cs"], .link "b.cs")], []⟩
    let text := fun schema => (ofFile .default tree schema).output
    let run := fun inputs output folder => Invocation.run
      ⟨none, false, none, none, .generate inputs output folder⟩ tree
    (Settings.load tree none).1 = .ok .default ∧
      (Sources.resolve tree ["a.xml", "b.xml"]).result = .ok ["a.xml", "b.xml"] ∧
      (∀ schema ∈ ["a.xml", "b.xml"], Succeeds .default tree schema) ∧
      (run ["a.xml", "b.xml"] none (some "out")).tree.readText "out/a.cs" ≠ .ok (text "a.xml") ∧
      (run ["a.xml"] none (some "b.xml")).tree.readText "b.xml/a.cs" ≠ .ok (text "a.xml") ∧
      (run ["a.xml"] (some "out") none).tree.readText "out" ≠ .ok (text "a.xml") := by
  refine ⟨?_, ?_, ?_, ?_, ?_, ?_⟩ <;> decide +kernel

end CommandLine

end ToolSwitch
