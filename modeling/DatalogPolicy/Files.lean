import DatalogPolicy.Fault

/-!
# Files

What can be read of the files that a command sees.
-/

namespace DatalogPolicy

/-- The texts of files, or why they cannot be read. -/
structure Files where
  read : String → Except FileFault String

namespace Files

/-- The files whose paths are listed. A path that is listed twice has its first contents. -/
def ofList (files : List (String × Except FileFault String)) : Files :=
  ⟨fun path => (files.lookup path).getD (.error .missing)⟩

/-- Whether a path leads to a file, which need not be a text. -/
def contains (files : Files) (path : String) : Bool :=
  match files.read path with
  | .error .missing | .error .directory => false
  | _ => true

end Files

end DatalogPolicy
