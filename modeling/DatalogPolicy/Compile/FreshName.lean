/-!
# Fresh variables

A column that an atom leaves out is filled with a variable of its own. Its name
begins with more underscores than any variable of the statement.
-/

namespace DatalogPolicy.FreshName

/-- The length of the longest name. -/
def longest (names : List String) : Nat := (names.map String.length).max?.getD 0

/-- A stem, extended by underscores as long as a given name begins with it. -/
def extend (names : List String) (stem : String) : String :=
  if _h : names.any fun name => stem.toList.isPrefixOf name.toList then
    extend names (stem.push '_')
  else stem
termination_by longest names + 1 - stem.length
decreasing_by
  -- a name that begins with the stem is as long, so that the stem has not outgrown all names yet
  obtain ⟨name, hname, hprefix⟩ := List.any_eq_true.1 _h
  have hstem : stem.length ≤ name.length := (List.isPrefixOf_iff_prefix.1 hprefix).length_le
  have hlongest : name.length ≤ longest names :=
    List.le_max?_getD_of_mem (List.mem_map_of_mem hname)
  rw [String.length_push]
  omega

/-- The shortest run of underscores, one at least, with which no given name begins. -/
def stem (names : List String) : String := extend names "_"

/-- The variable for a column of the literal with the given index in its statement. -/
def filler (stem : String) (index column : Nat) : String :=
  stem ++ "x_" ++ toString index ++ "_" ++ toString column

end DatalogPolicy.FreshName
