import ToolSwitch.Options

/-!
The arguments of a command line.  They are read from the left; the first that cannot be understood
ends the reading.
-/

namespace ToolSwitch.CommandLine

open ToolSwitch.Schema

inductive Command where
  | generate (inputs : List String) (output folder : Option String)
  | inspect (input : String)
  | task (source : String)
  deriving DecidableEq, Repr

structure Invocation where
  settings : Option String
  verbose : Bool
  scope : Option Scope
  getters : Option Getters
  command : Command
  deriving DecidableEq, Repr

/-- What arguments ask for. -/
inductive Wish where
  | run (invocation : Invocation)
  | version
  | help
  | misuse
  deriving DecidableEq, Repr

inductive CommandName where
  | generate
  | inspect
  | task
  deriving DecidableEq, Repr

def CommandName.ofWord? : String → Option CommandName
  | "generate" => some .generate
  | "inspect" => some .inspect
  | "task" => some .task
  | _ => none

/-- An option, by what it is about. -/
inductive Switch where
  | settings
  | verbose
  | output
  | folder
  | scope
  | getters
  | version
  | help
  deriving DecidableEq, Repr

namespace Switch

def takesValue : Switch → Bool
  | .settings | .output | .folder | .scope | .getters => true
  | .verbose | .version | .help => false

def long : Switch → String
  | .settings => "config"
  | .verbose => "verbose"
  | .output => "output"
  | .folder => "out-dir"
  | .scope => "scan-scope"
  | .getters => "getters"
  | .version => "version"
  | .help => "help"

def short? : Switch → Option Char
  | .settings => some 'c'
  | .verbose => some 'v'
  | .output => some 'o'
  | .version => some 'V'
  | .help => some 'h'
  | .folder | .scope | .getters => none

/-- The options that are known before the command, or behind one. -/
def known : Option CommandName → List Switch
  | none => [.settings, .verbose, .version, .help]
  | some .generate => [.settings, .verbose, .output, .folder, .scope, .getters, .help]
  | some .inspect | some .task => [.settings, .verbose, .scope, .getters, .help]

/-- Whether a text will do as the value of an option. -/
def accepts : Switch → String → Bool
  | .scope, text => (Scope.ofWord text).isOk
  | .getters, text => (Getters.ofWord text).isOk
  | _, text => text ≠ ""

end Switch

/-- The options given at one place, with their values, and the other arguments. -/
structure Given where
  switches : List (Switch × String)
  others : List String
  deriving DecidableEq, Repr

namespace Given

def none : Given :=
  ⟨[], []⟩

/-- Adds an option, which may be given once and has to have a proper value. -/
def add? (given : Given) (switch : Switch) (value : String) : Option Given :=
  if (given.switches.any (·.1 = switch)) ∨ (switch.takesValue ∧ !switch.accepts value) then .none
  else some { given with switches := (switch, value) :: given.switches }

def value? (given : Given) (switch : Switch) : Option String :=
  given.switches.lookup switch

end Given

/-- One step of reading: options were added, and a value may still be missing to the last; or the
reading is over. -/
inductive Step where
  | on (given : Given) (waiting : Option Switch)
  | over (wish : Wish)

namespace Step

/-- Takes an option that stands by itself, with the value attached to it if there is one. -/
def ofSwitch (given : Given) (switch : Switch) (value : Option String) : Step :=
  match switch, value with
  | .version, .none => .over .version
  | .help, .none => .over .help
  | _, some value =>
    if switch.takesValue then
      match given.add? switch value with
      | some given => .on given .none
      | .none => .over .misuse
    else .over .misuse
  | _, .none =>
    if switch.takesValue then .on given (some switch)
    else
      match given.add? switch "" with
      | some given => .on given .none
      | .none => .over .misuse

/-- Reads an option in words, behind its two dashes. -/
def ofLong (known : List Switch) (given : Given) (text : List Char) : Step :=
  let name := String.ofList (text.takeWhile (· ≠ '='))
  let value :=
    match text.dropWhile (· ≠ '=') with
    | [] => .none
    | _ :: value => some (String.ofList value)
  match known.find? (·.long = name) with
  | some switch => ofSwitch given switch value
  | .none => .over .misuse

/-- Reads options in letters, behind their dash.  The value of one may follow it at once. -/
def ofShort (known : List Switch) (given : Given) : List Char → Step
  | [] => .on given .none
  | letter :: rest =>
    match known.find? (·.short? = some letter) with
    | .none => .over .misuse
    | some switch =>
      if switch.takesValue ∧ !rest.isEmpty then
        let value := if rest.head? = some '=' then rest.tail else rest
        ofSwitch given switch (some (String.ofList value))
      else
        match ofSwitch given switch .none with
        | .on given .none => ofShort known given rest
        | step => step

end Step

/-- Whether an argument reads as an option. -/
def isOption (text : List Char) : Bool :=
  text.head? = some '-' && text.length > 1

/-- What stands behind a command, or in front of one. -/
inductive Part where
  | complete (given : Given)
  /-- The first argument that is no option, where that is a command, and what follows it. -/
  | stopped (given : Given) (word : String) (rest : List String)
  | over (wish : Wish)

/-- Reads options and, with `stop` not set, other arguments. -/
def readPart (known : List Switch) (stop : Bool) (given : Given) (waiting : Option Switch) :
    List String → Part
  | [] =>
    match waiting with
    | some _ => .over .misuse
    | .none => .complete given
  | word :: rest =>
    let text := word.toList
    match waiting with
    | some switch =>
      if isOption text then .over .misuse
      else
        match given.add? switch word with
        | some given => readPart known stop given .none rest
        | .none => .over .misuse
    | .none =>
      if word = "--" then
        if stop ∧ !rest.isEmpty then .over .misuse
        else .complete { given with others := given.others ++ rest }
      else if isOption text then
        let step :=
          if text.take 2 = ['-', '-'] then Step.ofLong known given (text.drop 2)
          else Step.ofShort known given (text.drop 1)
        match step with
        | .on given waiting => readPart known stop given waiting rest
        | .over wish => .over wish
      else if stop then .stopped given word rest
      else readPart known stop { given with others := given.others ++ [word] } .none rest

def Command.of? (name : CommandName) (given : Given) : Option Command :=
  match name with
  | .generate =>
    if (given.value? .output).isSome ∧ (given.value? .folder).isSome then none
    else some (.generate given.others (given.value? .output) (given.value? .folder))
  | .inspect =>
    match given.others with
    | [input] => if input = "" then none else some (.inspect input)
    | _ => none
  | .task =>
    match given.others with
    | [source] => if source = "" then none else some (.task source)
    | _ => none

/-- The invocation made of a command with what is given in front of it and behind it. -/
def Invocation.of (before : Given) (name : CommandName) (given : Given) : Wish :=
  match Command.of? name given with
  | none => .misuse
  | some command =>
    .run {
      settings := (given.value? .settings).or (before.value? .settings)
      verbose := ((given.value? .verbose).or (before.value? .verbose)).isSome
      scope := (given.value? .scope).bind fun word => (Scope.ofWord word).toOption
      getters := (given.value? .getters).bind fun word => (Getters.ofWord word).toOption
      command }

def Wish.ofArguments (arguments : List String) : Wish :=
  match readPart (Switch.known none) true .none none arguments with
  | .over wish => wish
  | .complete _ => .misuse
  | .stopped before word rest =>
    if word = "help" then
      if rest.all fun word => word = "help" ∨ (CommandName.ofWord? word).isSome then .help
      else .misuse
    else
      match CommandName.ofWord? word with
      | none => .misuse
      | some name =>
        match readPart (Switch.known (some name)) false .none none rest with
        | .over wish => wish
        | .stopped _ _ _ => .misuse
        | .complete given => Invocation.of before name given

end ToolSwitch.CommandLine
