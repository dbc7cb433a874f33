import ToolSwitch.Proofs.Generation.Blocks
import ToolSwitch.Proofs.Schema.Truncation

/-!
Generation as a stream.  A block is written as soon as its declaration has been read, and nothing
behind the declaration takes it back or changes it.
-/

namespace ToolSwitch.Generation

open ToolSwitch.Text ToolSwitch.Markup ToolSwitch.Schema

theorem ofBytes_blocks (options : Options) (origin : String) (bytes : Bytes) :
    ∃ lead properties, (ofBytes options origin bytes).output =
      Accessor.renderAll options.getters lead properties := by
  rw [ofBytes_output]
  cases hr : (Scan.start options.scope (.read bytes)).findRule.result with
  | error flaw => exact ⟨"", [], (ofDocument_of_error hr).1⟩
  | ok found =>
    cases found with
    | none => exact ⟨"", [], (ofDocument_of_none hr).1⟩
    | some rule => exact ⟨_, _, (ofDocument_of_rule hr).1⟩

/-- What is generated from a document that is cut off, at any byte and whether or not that is
refused, is the beginning of what is generated from the whole.  It ends between two blocks. -/
theorem ofBytes_streams (options : Options) (origin : String) (bytes more : Bytes) :
    ∃ lead written later,
      (ofBytes options origin bytes).output =
        Accessor.renderAll options.getters lead written ∧
      (ofBytes options origin (bytes ++ more)).output =
        (ofBytes options origin bytes).output ++
          Accessor.renderAll options.getters lead later := by
  have hc := Scan.cutOff_start options.scope bytes more
  obtain ⟨lead, later, hb⟩ := ofBytes_blocks options origin (bytes ++ more)
  cases hr : (Scan.start options.scope (.read bytes)).findRule.result with
  | error flaw =>
    refine ⟨lead, [], later, (ofDocument_of_error hr).1, ?_⟩
    rw [hb, ofBytes_output, (ofDocument_of_error hr).1, String.empty_append]
  | ok found =>
    cases found with
    | none =>
      refine ⟨lead, [], later, (ofDocument_of_none hr).1, ?_⟩
      rw [hb, ofBytes_output, (ofDocument_of_none hr).1, String.empty_append]
    | some rule =>
      obtain ⟨hr', hc⟩ := Scan.findRule_cut hc hr
      obtain ⟨later, hy⟩ := Scan.yields_cut hc
      obtain ⟨hshort, -⟩ := ofDocument_of_rule hr
      obtain ⟨hfull, -⟩ := ofDocument_of_rule hr'
      refine ⟨rule.lead, _, later, hshort, ?_⟩
      rw [ofBytes_output, ofBytes_output, hshort, hfull, ← Accessor.renderAll_append, hy]

end ToolSwitch.Generation
