import DatalogPolicy.CommandLine.Options
import DatalogPolicy.Compile.Session
import DatalogPolicy.Config
import DatalogPolicy.Dependency.Graph
import DatalogPolicy.FormulaJson
import DatalogPolicy.Safety.Check

/-!
# Carrying out a command

A command reads its configuration, compiles its policies in order and writes
what its options ask for. It stops at the first error.
-/

namespace DatalogPolicy

/-- What a command writes, and its exit code. -/
structure Report where
  output : String := ""
  /-- The lines that are written as errors. -/
  errors : List String := []
  code : Nat := 0
deriving DecidableEq, Repr

namespace Report

/-- A report of errors only. -/
def failure (errors : List String) : Report := { errors, code := 1 }

/-- The errors as they are written. -/
def errorText (r : Report) : String := String.join (r.errors.map (· ++ "\n"))

end Report

/-- Formulas in a format. -/
def Formula.render (formulas : List Formula) : Format → String
  | .text => String.join (formulas.map (·.text ++ "\n"))
  | .json => (Json.array (formulas.map (·.toJson))).text .indented ++ "\n"

/-- Strata in a format, in the order of their tables. -/
def Strata.render (strata : Strata) : Format → String
  | .text => String.join (strata.toList.map fun (table, n) => table ++ ": " ++ toString n ++ "\n")
  | .json =>
      (Json.object (strata.toList.map fun (table, n) => (table, .int n))).text .indented ++ "\n"

namespace Config

/-- The file of the configuration when no other is given. -/
def defaultPath : String := "datapol.toml"

/-- The path to the configuration: the one among the options, else that of the environment, else
the default if there is such a file. -/
def path? (files : Files) (option environment : Option String) : Option String :=
  (option.or environment).or (if files.contains defaultPath then some defaultPath else none)

/-- The configuration in a file. -/
def readFile (files : Files) (path : String) : Except ConfigError Config :=
  match files.read path with
  | .error fault => .error (.unreadable path fault)
  | .ok text => read text

/-- The configuration of a command, which is the default when there is no path to one. -/
def load (files : Files) (option environment : Option String) : Except ConfigError Config :=
  (path? files option environment).elim (.ok {}) (readFile files)

end Config

namespace Options

/-- The name of a policy among the arguments. -/
def commandName : String := "<command>"

/-- The session after all policies, that among the arguments being the first. -/
def session (o : Options) (settings : Settings) (files : Files) : Except PolicyError Session := do
  let finish := fun (s, result) => Except.map (fun _ => (s : Session)) result
  let s ← o.command.elim (.ok {}) fun text =>
    finish (Session.readSource settings (.ofText commandName text) {})
  o.files.foldlM (fun s path => finish (s.readFile settings files path)) s

/-- What is written of a session. -/
def view (o : Options) (s : Session) : Report :=
  let format := o.format.getD .text
  if o.tree then { output := s.outlineText }
  else if o.strata then
    match DatalogPolicy.stratify? s.theory with
    | some strata => { output := strata.render format }
    | none => .failure ["Policy is not stratified"]
  else { output := Formula.render s.theory format }

/-- The faults of the formulas of a session. -/
def faults (config : Config) (s : Session) : List PolicyError :=
  let checker : Checker := { theories := some config.theories, modals := config.modals }
  s.theory.flatMap checker.formulaErrors

/-- Carries out a command. -/
def run (o : Options) (files : Files) (environment : Option String) : Report :=
  if o.command.isNone && o.files.isEmpty then
    .failure ["No policy given: use -c STRING or FILE"]
  else
    match Config.load files o.config environment with
    | .error e => .failure ["failed to load configuration: " ++ e.message]
    | .ok config =>
        let settings : Settings :=
          { theories := config.theories, modules := config.modules && !o.noModules }
        match o.session settings files with
        | .error e => .failure [e.message]
        | .ok s =>
            let faults := if o.check then faults config s else []
            if faults.isEmpty then o.view s else .failure (faults.map (·.message))

end Options

end DatalogPolicy
