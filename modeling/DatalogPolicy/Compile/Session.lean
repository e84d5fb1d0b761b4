import DatalogPolicy.Compile.Statement
import DatalogPolicy.Files
import DatalogPolicy.Surface.Outline

/-!
# Compilation of several sources

A session collects the formulas, errors and warnings of the sources that it
reads. A source that cannot be parsed leaves no trace in it.
-/

namespace DatalogPolicy

/-- What has been compiled so far. -/
structure Session where
  theory : List Formula := []
  errors : List PolicyError := []
  warnings : List PolicyError := []
  /-- The outline of the last source that was parsed. -/
  outline : Option Outline := none

namespace Session

/-- Fails with all errors if there are any. -/
def raiseErrors (s : Session) : Except PolicyError Unit :=
  if s.errors.isEmpty then .ok () else .error (.compile s.errors)

/-- Adds a source. The result fails with all errors of the session. -/
def readSource (settings : Settings) (source : Source) (s : Session) :
    Session × Except PolicyError Unit :=
  match source.statements with
  | .error e => (s, .error e)
  | .ok statements =>
      let compiled := Compile.formulas settings source statements
      let s := { s with
        theory := s.theory ++ compiled.value
        errors := s.errors ++ compiled.errors
        outline := some (Surface.outline statements) }
      (s, s.raiseErrors)

/-- Adds the source in a file. -/
def readFile (settings : Settings) (files : Files) (path : String) (s : Session) :
    Session × Except PolicyError Unit :=
  match files.read path with
  | .error fault => (s, .error (.file path fault))
  | .ok text => s.readSource settings (.ofText path text)

/-- Adds an error. -/
def signalError (error : PolicyError) (s : Session) : Session :=
  { s with errors := s.errors ++ [error] }

/-- Adds a warning. -/
def signalWarning (warning : PolicyError) (s : Session) : Session :=
  { s with warnings := s.warnings ++ [warning] }

/-- The drawing of the last source that was parsed. -/
def outlineText (s : Session) : String := s.outline.elim "" (·.draw 1)

/-- The formulas, one on a line, under a title. -/
def text (s : Session) : String :=
  "**Theory**\n" ++ String.intercalate "\n" (s.theory.map (·.text))

end Session

/-- The formulas of a text, if there are no errors in it. -/
def compile (settings : Settings) (source : Source) : Except PolicyError (List Formula) :=
  let (session, result) := Session.readSource settings source {}
  result.map fun _ => session.theory

/-- The formulas of a file, if there are no errors in it. -/
def compileFile (settings : Settings) (files : Files) (path : String) :
    Except PolicyError (List Formula) :=
  let (session, result) := Session.readFile settings files path {}
  result.map fun _ => session.theory

/-- The first formula of a text. -/
def compileFirst (settings : Settings) (source : Source) : Except PolicyError Formula :=
  (compile settings source).bind fun formulas =>
    match formulas with
    | f :: _ => .ok f
    | [] => .error (.policy .noFormulas none)

end DatalogPolicy
