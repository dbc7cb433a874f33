import ToolSwitch.Accessor
import ToolSwitch.Failure
import ToolSwitch.Schema.Scan

/-!
The two choices a generation pass leaves open, and the words for them.
-/

namespace ToolSwitch

open ToolSwitch.Schema

structure Options where
  scope : Scope
  getters : Getters
  deriving DecidableEq, Repr

def Options.default : Options :=
  ⟨.document, .typed⟩

namespace Schema.Scope

def word : Scope → String
  | .document => "document"
  | .rule => "rule"

def ofWord (word : String) : Except SettingsFault Scope :=
  if word = "document" then .ok .document
  else if word = "rule" then .ok .rule
  else .error (.unknownScope word)

theorem ofWord_word (scope : Scope) : ofWord scope.word = .ok scope := by
  cases scope <;> rfl

end Schema.Scope

namespace Getters

def word : Getters → String
  | .typed => "typed"
  | .verbatim => "verbatim"

def ofWord (word : String) : Except SettingsFault Getters :=
  if word = "typed" then .ok .typed
  else if word = "verbatim" then .ok .verbatim
  else .error (.unknownGetters word)

theorem ofWord_word (getters : Getters) : ofWord getters.word = .ok getters := by
  cases getters <;> rfl

end Getters

/-- Options by their words, of which the scope is looked at first. -/
def Options.ofWords (scope getters : Option String) : Except SettingsFault Options := do
  let scope ← (scope.map Scope.ofWord).getD (.ok Options.default.scope)
  let getters ← (getters.map Getters.ofWord).getD (.ok Options.default.getters)
  return ⟨scope, getters⟩

end ToolSwitch
