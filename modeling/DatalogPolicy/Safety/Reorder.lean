import DatalogPolicy.Builtin
import DatalogPolicy.Fault

/-!
# Safe orders of rule bodies

A body is read from left to right, and a literal may only be read once the
variables that it requires are bound. A literal that comes too early waits until
the literals after it have bound the rest of its variables.
-/

namespace DatalogPolicy

/-- The literals of a body that have been placed and those that wait for variables. -/
structure Schedule where
  bound : List String := []
  placed : List Literal := []
  /-- Each waiting literal with the variables that were not bound when it was met. -/
  waiting : List (Literal × List String) := []

namespace Schedule

/-- Whether all of some variables are bound. -/
def binds (bound : List String) (names : List String) : Bool := names.all (· ∈ bound)

/-- Places a literal, whose variables are bound from then on. -/
def place (l : Literal) (s : Schedule) : Schedule :=
  { s with bound := s.bound ++ l.variableNames, placed := s.placed ++ [l] }

/-- The first waiting literal that can be placed, and the others. -/
def takeReady? (bound : List String) :
    List (Literal × List String) → Option (Literal × List (Literal × List String))
  | [] => none
  | entry :: rest =>
      if binds bound entry.2 then some (entry.1, rest)
      else (takeReady? bound rest).map fun (l, others) => (l, entry :: others)

/-- Taking out a literal leaves one fewer. -/
theorem length_takeReady? {bound : List String} {waiting others : List (Literal × List String)}
    {l : Literal} (h : takeReady? bound waiting = some (l, others)) :
    others.length + 1 = waiting.length := by
  induction waiting generalizing l others with
  | nil => simp [takeReady?] at h
  | cons entry rest ih =>
      simp only [takeReady?] at h
      split at h
      · cases h; rfl
      · obtain ⟨⟨m, more⟩, hm, he⟩ := Option.map_eq_some_iff.1 h
        cases he
        simpa using ih hm

/-- Places waiting literals as long as one of them can be placed, the first one each time. -/
def settle (s : Schedule) : Schedule :=
  match _h : takeReady? s.bound s.waiting with
  | none => s
  | some (l, others) => settle (place l { s with waiting := others })
termination_by s.waiting.length
decreasing_by
  have := length_takeReady? _h
  simp only [place]
  omega

/-- Places a literal and all that it sets free, or lets it wait. -/
def add (s : Schedule) (l : Literal) : Schedule :=
  let missing := (l.required?.getD []).filter (· ∉ s.bound)
  if missing.isEmpty then (s.place l).settle
  else { s with waiting := s.waiting ++ [(l, missing)] }

/-- The schedule of a body. -/
def ofBody (body : List Literal) : Schedule := body.foldl add {}

end Schedule

/-- The rule with its body in a safe order, which is the given one if that is safe. -/
def Rule.reorder (r : Rule) : Except PolicyError Rule :=
  let s := Schedule.ofBody r.body
  if s.waiting.isEmpty then .ok { r with body := s.placed }
  else .error (.policy (.unorderable r s.waiting) r.location)

end DatalogPolicy
