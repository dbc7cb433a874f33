import ToolSwitch.CommandLine.Arguments

/-!
What can be asked for: a file and a folder to write to are never named both.
-/

namespace ToolSwitch.CommandLine

variable {arguments inputs : List String} {invocation : Invocation} {name : CommandName}
  {given : Given} {file : String} {folder : Option String}

theorem Step.ofSwitch_ne_run (given : Given) (switch : Switch) (value : Option String)
    (invocation : Invocation) : ofSwitch given switch value ≠ .over (.run invocation) := by
  fun_cases ofSwitch given switch value <;> simp_all

theorem Step.ofLong_ne_run (known : List Switch) (given : Given) (text : List Char)
    (invocation : Invocation) : ofLong known given text ≠ .over (.run invocation) := by
  unfold ofLong
  dsimp only
  split
  · exact ofSwitch_ne_run _ _ _ _
  · simp

theorem Step.ofShort_ne_run (known : List Switch) (given : Given) (text : List Char)
    (invocation : Invocation) : ofShort known given text ≠ .over (.run invocation) := by
  fun_induction ofShort known given text with
  | case1 => simp
  | case2 => simp
  | case3 => exact ofSwitch_ne_run _ _ _ _
  | case4 => assumption
  | case5 => exact ofSwitch_ne_run _ _ _ _

/-- Reading options ends early only with something other than a run. -/
theorem readPart_ne_run (known : List Switch) (stop : Bool) (given : Given)
    (waiting : Option Switch) (arguments : List String) (invocation : Invocation) :
    readPart known stop given waiting arguments ≠ .over (.run invocation) := by
  fun_induction readPart known stop given waiting arguments with
  | case9 given word rest text hw ho step wish hs =>
    rintro ⟨⟩
    revert hs
    dsimp only [step]
    split
    · exact Step.ofLong_ne_run _ _ _ _
    · exact Step.ofShort_ne_run _ _ _ _
  | _ => simp_all

theorem command_of_ofArguments (h : Wish.ofArguments arguments = .run invocation) :
    ∃ name given, Command.of? name given = some invocation.command := by
  unfold Wish.ofArguments at h
  split at h
  · next hp => exact absurd (h ▸ hp) (readPart_ne_run _ _ _ _ _ _)
  · cases h
  · split at h
    · split at h <;> cases h
    · split at h
      · cases h
      · next name hn =>
        split at h
        · next hp => exact absurd (h ▸ hp) (readPart_ne_run _ _ _ _ _ _)
        · cases h
        · next given hg =>
          unfold Invocation.of at h
          split at h
          · cases h
          · next command hc =>
            cases h
            exact ⟨name, given, hc⟩

theorem Command.folder_eq_none (h : of? name given = some (.generate inputs (some file) folder)) :
    folder = none := by
  cases name with
  | generate =>
    simp only [of?] at h
    split at h
    · cases h
    · next hb =>
      simp only [Option.some.injEq, generate.injEq] at h
      simpa [h] using hb
  | inspect | task =>
    simp only [of?] at h
    split at h <;> simp at h

theorem folder_eq_none (h : Wish.ofArguments arguments = .run invocation)
    (hc : invocation.command = .generate inputs (some file) folder) : folder = none := by
  obtain ⟨name, given, ho⟩ := command_of_ofArguments h
  exact Command.folder_eq_none (ho.trans (congrArg some hc))

end ToolSwitch.CommandLine
