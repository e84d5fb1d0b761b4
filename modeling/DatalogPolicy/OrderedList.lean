/-!
# Lists in increasing order

A finite set is kept as a strictly increasing list. An item that is already
there is replaced by `put` and kept by `insert`; the two differ where the order
does not look at every part of an item.
-/

namespace DatalogPolicy.OrderedList

variable {α : Type _}

/-- Adds an item unless the list has an equal one. -/
def insert (cmp : α → α → Ordering) (x : α) : List α → List α
  | [] => [x]
  | y :: rest =>
      match cmp x y with
      | .lt => x :: y :: rest
      | .eq => y :: rest
      | .gt => y :: insert cmp x rest

/-- Adds an item in place of an equal one. -/
def put (cmp : α → α → Ordering) (x : α) : List α → List α
  | [] => [x]
  | y :: rest =>
      match cmp x y with
      | .lt => x :: y :: rest
      | .eq => x :: rest
      | .gt => y :: put cmp x rest

/-- The items in increasing order, the last of equal ones standing for all of them. -/
def ofList (cmp : α → α → Ordering) (xs : List α) : List α :=
  xs.foldl (fun kept x => put cmp x kept) []

/-- The distinct texts in increasing order of their characters. -/
def ofTexts (xs : List String) : List String := ofList compare xs

/-- The items in increasing order, equal ones in the order in which they are given. -/
def sort (cmp : α → α → Ordering) (xs : List α) : List α :=
  xs.mergeSort fun a b => (cmp a b).isLE

end DatalogPolicy.OrderedList
