import ToolSwitch.Proofs.Batch.Outcome
import ToolSwitch.Proofs.CommandLine.Untouched
import ToolSwitch.Proofs.Files.Proper

/-!
Whatever a command line comes to, a proper tree of files is left proper.
-/

namespace ToolSwitch

open ToolSwitch.Files ToolSwitch.Text

variable {options : Options} {settings : Settings} {tree : FileTree} {folder extension : String}
  {sources : List String}

namespace Batch

theorem write_proper (ht : tree.Proper) :
    (write options tree sources folder extension).tree.Proper := by
  have hmade := ht.makeFolders folder
  rcases hm : tree.makeFolders folder with ⟨result, made⟩
  rw [hm] at hmade
  cases result with
  | error fault =>
    simp only [write, hm]
    exact hmade
  | ok =>
    rw [write_of_folder hm]
    exact generate_keeps (fun _ _ _ content ht hp => ht.setFile hp content) options folder extension
      [] sources hmade

end Batch

namespace CommandLine

theorem writeAll_proper (ht : tree.Proper) :
    (writeAll options tree sources folder extension).tree.Proper := by
  have hw : (Batch.write options tree sources folder extension).tree.Proper :=
    Batch.write_proper ht
  unfold writeAll
  dsimp only
  split <;> exact hw

theorem writeOne_proper (ht : tree.Proper) (source output : String) :
    (writeOne options tree source output).tree.Proper := by
  have hmade := ht.makeFolders (Path.folder output)
  unfold writeOne
  dsimp only
  split
  · exact ht
  · split
    · next hm =>
      rw [hm] at hmade
      exact hmade
    · next hm =>
      rw [hm] at hmade
      split
      · exact hmade
      · next hw => exact hmade.write hw

theorem deliver_proper (ht : tree.Proper) (output folder : Option String) :
    (deliver options settings tree output folder sources).tree.Proper := by
  unfold deliver
  split
  · exact writeAll_proper ht
  · split
    · exact writeOne_proper ht _ _
    · exact ht
  · rw [printAll_tree]
    exact ht

theorem generate_proper (ht : tree.Proper) (inputs : List String) (output folder : Option String) :
    (generate options settings tree inputs output folder).tree.Proper := by
  obtain hi | ⟨-, schemas, -, hg⟩ := generate_cases options settings tree inputs output folder
  · rw [hi.tree]
    exact ht
  · rw [hg]
    exact deliver_proper ht output folder

/-- A run leaves a proper tree, so that what a walk finds in it is settled as well. -/
theorem run_proper (ht : tree.Proper) (arguments : List String) :
    (run tree arguments).tree.Proper := by
  unfold run
  split
  · next invocation hw =>
    cases hl : (Settings.load tree invocation.settings).1 with
    | error failure =>
      rw [(run_idle_of_error hl).tree]
      exact ht
    | ok settings =>
      rw [run_eq_behind hl]
      cases invocation.command with
      | generate inputs output folder => exact generate_proper ht inputs output folder
      | inspect input =>
        change (CommandLine.inspect _ tree input).tree.Proper
        rw [inspect_tree]
        exact ht
      | task source =>
        change (CommandLine.task _ tree source).tree.Proper
        rw [task_tree]
        exact ht
  · exact ht
  · exact ht
  · exact ht

end CommandLine

end ToolSwitch
