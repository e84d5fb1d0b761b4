/-!
# Command line options

The arguments of a command are read from left to right. An option whose value
is an argument of its own is looked at when the next option or file comes, so
that an unknown option is found before a wrong value that stands in front of it.
-/

namespace DatalogPolicy

/-- How results are written. -/
inductive Format
  | text
  | json
deriving DecidableEq, Repr

/-- The format of a name. -/
def Format.ofName? (name : String) : Option Format :=
  if name = "text" then some .text
  else if name = "json" then some .json
  else none

/-- What is asked of a command. -/
structure Options where
  /-- A policy among the arguments. -/
  command : Option String := none
  /-- The files with policies. -/
  files : List String := []
  /-- The file with the configuration. -/
  config : Option String := none
  noModules : Bool := false
  check : Bool := false
  strata : Bool := false
  tree : Bool := false
  format : Option Format := none
deriving DecidableEq, Repr

namespace CommandLine

/-- Why arguments are not carried out. -/
inductive UsageFault
  | unknownOption
  | missingValue
  | wrongValue
  | unexpectedValue
  | repeatedOption
  | helpWanted
  | versionWanted
deriving DecidableEq, Repr

/-- The exit code for arguments that are not carried out. -/
def UsageFault.code : UsageFault → Nat
  | helpWanted | versionWanted => 0
  | _ => 2

/-- The options that are followed by a value. -/
inductive Setting
  | command
  | config
  | format
deriving DecidableEq, Repr

/-- The options without a value. -/
inductive Switch
  | noModules
  | check
  | strata
  | tree
  | help
  | version
deriving DecidableEq, Repr

/-- The option of a name. -/
def named? : String → Option (Setting ⊕ Switch)
  | "command" => some (.inl .command)
  | "config" => some (.inl .config)
  | "format" => some (.inl .format)
  | "no-modules" => some (.inr .noModules)
  | "check" => some (.inr .check)
  | "strata" => some (.inr .strata)
  | "tree" => some (.inr .tree)
  | "help" => some (.inr .help)
  | "version" => some (.inr .version)
  | _ => none

/-- The option of a letter. -/
def lettered? : Char → Option (Setting ⊕ Switch)
  | 'c' => some (.inl .command)
  | 'h' => some (.inr .help)
  | 'V' => some (.inr .version)
  | _ => none

/-- The form of an argument. -/
inductive Shape
  /-- Two dashes, after which there are only files. -/
  | dashes
  /-- Two dashes and a name, and what follows an equals sign after it. -/
  | long (name : String) (value : Option String)
  /-- A dash and a letter, and what follows it. -/
  | short (letter : Char) (rest : String)
  /-- A value or a file. -/
  | plain
deriving DecidableEq, Repr

/-- The form of a text. -/
def Shape.ofText (text : String) : Shape :=
  match text.toList with
  | ['-', '-'] => .dashes
  | '-' :: '-' :: rest =>
      let name := String.ofList (rest.takeWhile (· ≠ '='))
      match rest.dropWhile (· ≠ '=') with
      | _ :: value => .long name (some (String.ofList value))
      | [] => .long name none
  | '-' :: letter :: rest => .short letter (String.ofList rest)
  | _ => .plain

/-- The value that follows a letter at once, in front of which an equals sign may stand. -/
def attached? (rest : String) : Option String :=
  match rest.toList with
  | [] => none
  | '=' :: value => some (String.ofList value)
  | value => some (String.ofList value)

/-- Sets an option to a value. An option is set only once, and paths are not empty. -/
def Setting.apply (value : String) (o : Options) : Setting → Except UsageFault Options
  | command =>
      if o.command.isSome then .error .repeatedOption else .ok { o with command := some value }
  | config =>
      if o.config.isSome then .error .repeatedOption
      else if value.isEmpty then .error .wrongValue
      else .ok { o with config := some value }
  | format =>
      if o.format.isSome then .error .repeatedOption
      else
        match Format.ofName? value with
        | some f => .ok { o with format := some f }
        | none => .error .wrongValue

/-- Turns on an option. An option is turned on only once. -/
def Switch.apply (o : Options) : Switch → Except UsageFault Options
  | noModules => if o.noModules then .error .repeatedOption else .ok { o with noModules := true }
  | check => if o.check then .error .repeatedOption else .ok { o with check := true }
  | strata => if o.strata then .error .repeatedOption else .ok { o with strata := true }
  | tree => if o.tree then .error .repeatedOption else .ok { o with tree := true }
  | help => .error .helpWanted
  | version => .error .versionWanted

/-- The arguments read so far. -/
structure Progress where
  options : Options := {}
  /-- The last option, with the argument after it, when they have not been looked at. -/
  pending : Option (Setting × Option String) := none
  /-- Whether there are only files from here on. -/
  filesOnly : Bool := false
deriving DecidableEq, Repr

namespace Progress

/-- The options with the last one looked at. -/
def settled (p : Progress) : Except UsageFault Options :=
  match p.pending with
  | none => .ok p.options
  | some (_, none) => .error .missingValue
  | some (setting, some value) => setting.apply value p.options

/-- Adds a file. -/
def addFile (p : Progress) (path : String) : Except UsageFault Progress := do
  let options ← p.settled
  return { p with options := { options with files := options.files ++ [path] }, pending := none }

/-- Adds a value or a file. -/
def addPlain (p : Progress) (text : String) : Except UsageFault Progress :=
  match p.pending with
  | some (setting, none) => .ok { p with pending := some (setting, some text) }
  | _ => p.addFile text

/-- Adds an option with the value that is written together with it, if there is one. -/
def addSetting (p : Progress) (setting : Setting) (value : Option String) :
    Except UsageFault Progress := do
  let options ← p.settled
  match value with
  | some value => return { p with options := ← setting.apply value options, pending := none }
  | none => return { p with options, pending := some (setting, none) }

/-- Adds an option without a value. -/
def addSwitch (p : Progress) (switch : Switch) : Except UsageFault Progress := do
  return { p with options := ← switch.apply (← p.settled), pending := none }

/-- Adds an argument. -/
def add (p : Progress) (argument : String) : Except UsageFault Progress :=
  if p.filesOnly then p.addFile argument
  else
    match Shape.ofText argument with
    | .dashes => .ok { p with filesOnly := true }
    | .plain => p.addPlain argument
    | .long name value =>
        match named? name with
        | none => .error .unknownOption
        | some (.inl setting) => p.addSetting setting value
        | some (.inr switch) =>
            if value.isSome then .error .unexpectedValue else p.addSwitch switch
    | .short letter rest =>
        match lettered? letter with
        | none => .error .unknownOption
        | some (.inl setting) => p.addSetting setting (attached? rest)
        | some (.inr switch) => p.addSwitch switch

end Progress

end CommandLine

/-- The options that arguments stand for. -/
def Options.ofArguments (arguments : List String) :
    Except CommandLine.UsageFault Options :=
  (arguments.foldlM CommandLine.Progress.add {}).bind (·.settled)

end DatalogPolicy
