import Mathlib.Data.List.Induction
import ToolSwitch.Settings

/-!
Nodes that are read one after the other, up to the first that offends.
-/

namespace ToolSwitch.Settings

open ToolSwitch.Kdl

/-- The first node that offends, and how.  All nodes before it are sound. -/
def First (sound : List Node → Prop) (offends : List Node → Node → SettingsFault → Prop)
    (nodes : List Node) (fault : SettingsFault) : Prop :=
  ∃ before node after, nodes = before ++ node :: after ∧ sound before ∧ offends before node fault

/-- What reading one more node behind sound ones comes to. -/
def Steps {α : Type} (step : α → Node → Except SettingsFault α) (sound : List Node → Prop)
    (made : List Node → α → Prop) (offends : List Node → Node → SettingsFault → Prop)
    (before : List Node) (state : α) (node : Node) : Prop :=
  (∃ next, step state node = .ok next ∧ sound (before ++ [node]) ∧ made (before ++ [node]) next) ∨
    ∃ fault, step state node = .error fault ∧ offends before node fault

/-- What a step keeps to that reads nodes one after the other: which of them are sound, what is made
of them, and how the next node offends if it does. -/
structure Reading {α : Type} (step : α → Node → Except SettingsFault α) (start : α)
    (sound : List Node → Prop) (made : List Node → α → Prop)
    (offends : List Node → Node → SettingsFault → Prop) : Prop where
  sound_nil : sound []
  made_nil : made [] start
  of_append : ∀ {front back}, sound (front ++ back) → sound front
  step : ∀ {before state} node, sound before → made before state →
    Steps step sound made offends before state node
  refuses : ∀ {before node fault}, offends before node fault → ¬ sound (before ++ [node])
  unique : ∀ {before node fault other}, offends before node fault → offends before node other →
    fault = other

namespace Reading

variable {α : Type} {step : α → Node → Except SettingsFault α} {start state : α}
  {sound : List Node → Prop} {offends : List Node → Node → SettingsFault → Prop}
  {made : List Node → α → Prop} {nodes : List Node} {fault other : SettingsFault}

theorem not_sound (h : Reading step start sound made offends)
    (hf : First sound offends nodes fault) : ¬ sound nodes := by
  obtain ⟨before, node, after, rfl, -, ho⟩ := hf
  intro hs
  rw [List.append_cons] at hs
  exact h.refuses ho (h.of_append hs)

theorem outcome (h : Reading step start sound made offends) (nodes : List Node) :
    (sound nodes ∧ ∃ state, nodes.foldlM step start = .ok state ∧ made nodes state) ∨
      ∃ fault, nodes.foldlM step start = .error fault ∧ First sound offends nodes fault := by
  induction nodes using List.reverseRecOn with
  | nil => exact .inl ⟨h.sound_nil, start, rfl, h.made_nil⟩
  | append_singleton before node ih =>
    rw [List.foldlM_append]
    obtain ⟨hs, state, hr, hm⟩ | ⟨fault, hr, init, bad, rest, rfl, hi, ho⟩ := ih
    · rw [hr]
      obtain ⟨next, hn, hs', hm'⟩ | ⟨fault, hn, ho⟩ := h.step node hs hm
      · refine .inl ⟨hs', next, ?_, hm'⟩
        simp [bind, Except.bind, pure, Except.pure, hn]
      · refine .inr ⟨fault, ?_, before, node, [], rfl, hs, ho⟩
        simp [bind, Except.bind, hn]
    · rw [hr]
      exact .inr ⟨fault, rfl, init, bad, rest ++ [node], by simp, hi, ho⟩

theorem ok_iff (h : Reading step start sound made offends) :
    (∃ state, nodes.foldlM step start = .ok state) ↔ sound nodes := by
  obtain ⟨hs, state, hr, -⟩ | ⟨fault, hr, hf⟩ := h.outcome nodes
  · simp [hs, hr]
  · simp [h.not_sound hf, hr]

theorem made_of_ok (h : Reading step start sound made offends)
    (hr : nodes.foldlM step start = .ok state) : made nodes state := by
  obtain ⟨-, state', hr', hm⟩ | ⟨fault, hr', -⟩ := h.outcome nodes
  · cases hr.symm.trans hr'
    exact hm
  · cases hr.symm.trans hr'

theorem error_iff (h : Reading step start sound made offends) :
    nodes.foldlM step start = .error fault ↔ First sound offends nodes fault := by
  constructor
  · intro hr
    obtain ⟨-, state, hr', -⟩ | ⟨fault', hr', hf⟩ := h.outcome nodes
    · cases hr.symm.trans hr'
    · cases hr.symm.trans hr'
      exact hf
  · rintro ⟨before, node, after, rfl, hs, ho⟩
    obtain ⟨-, state, hr, hm⟩ | ⟨fault', -, hf⟩ := h.outcome before
    · obtain ⟨next, -, hs', -⟩ | ⟨fault', hn, ho'⟩ := h.step node hs hm
      · exact absurd hs' (h.refuses ho)
      · rw [List.foldlM_append, hr, h.unique ho ho']
        simp [bind, Except.bind, List.foldlM_cons, hn]
    · exact absurd hs (h.not_sound hf)

theorem first_unique (h : Reading step start sound made offends)
    (hf : First sound offends nodes fault) (ho : First sound offends nodes other) :
    fault = other :=
  Except.error.inj ((h.error_iff.2 hf).symm.trans (h.error_iff.2 ho))

/-- Nodes that are judged each by itself. -/
theorem of_each {accepts : Node → Prop} {offends : Node → SettingsFault → Prop}
    (made_nil : made [] start)
    (each : ∀ {before state} node, made before state →
      (∃ next, step state node = .ok next ∧ accepts node ∧ made (before ++ [node]) next) ∨
        ∃ fault, step state node = .error fault ∧ offends node fault)
    (refuses : ∀ {node fault}, offends node fault → ¬ accepts node)
    (unique : ∀ {node fault other}, offends node fault → offends node other → fault = other) :
    Reading step start (∀ node ∈ ·, accepts node) made (fun _ => offends) where
  sound_nil := by simp
  made_nil := made_nil
  of_append h node hn := h node (List.mem_append_left _ hn)
  step node hs hm := by
    refine (each node hm).imp_left ?_
    rintro ⟨next, hr, ha, hm'⟩
    exact ⟨next, hr, List.forall_mem_append.2 ⟨hs, by simpa using ha⟩, hm'⟩
  refuses ho hs := refuses ho (hs _ (by simp))
  unique := unique

end Reading

end ToolSwitch.Settings
