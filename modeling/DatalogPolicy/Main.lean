import DatalogPolicy.CommandLine.Report

/-!
# The command

Reads the files that the options name and writes the report.
-/

namespace DatalogPolicy

/-- The environment variable with the path to the configuration. -/
def configVariable : String := "DATAPOL_CONFIG"

/-- How the command is used. -/
def usage : String :=
  "Usage: datapol [--config PATH] [--no-modules] [--check] [--strata] [--tree] " ++
    "[--format text|json] [-c STRING] [FILE]..."

/-- The name and the version of the command. -/
def versionText : String := "datapol 0.1.0"

/-- Reads a file. -/
def readPath (path : String) : IO (Except FileFault String) := do
  try
    let bytes ← IO.FS.readBinFile path
    return (String.fromUTF8? bytes).elim (.error .notText) .ok
  catch
    | .noFileOrDirectory .. => return .error .missing
    | .inappropriateType .. => return .error .directory
    | e => return .error (.stated (toString e))

/-- The files that a command may have to read. -/
def readFiles (paths : List String) : IO Files := do
  return .ofList (← paths.mapM fun path => do return (path, ← readPath path))

/-- Writes a report and gives its exit code. -/
def Report.write (r : Report) : IO UInt32 := do
  (← IO.getStdout).putStr r.output
  (← IO.getStderr).putStr r.errorText
  return r.code.toUInt32

end DatalogPolicy

open DatalogPolicy in
/-- Carries out the command with some arguments. -/
def main (arguments : List String) : IO UInt32 := do
  match Options.ofArguments arguments with
  | .error fault =>
      let stream ← if fault.code = 0 then IO.getStdout else IO.getStderr
      stream.putStrLn (if fault = .versionWanted then versionText else usage)
      return fault.code.toUInt32
  | .ok options =>
      let environment ← IO.getEnv configVariable
      let configs := options.config.toList ++ environment.toList ++ [Config.defaultPath]
      let files ← readFiles (options.files ++ configs)
      (options.run files environment).write
