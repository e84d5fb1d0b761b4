import DatalogPolicy.Number.Decimal

/-!
# TOML numbers and times

Which texts are numbers, and which are dates and times of day.
-/

namespace DatalogPolicy.Toml

/-- Whether a text is digits, with single underscores between digits. -/
def isDigits (isDigit : Char → Bool) : List Char → Bool
  | [] => false
  | [c] => isDigit c
  | c :: '_' :: rest => isDigit c && isDigits isDigit rest
  | c :: rest => isDigit c && isDigits isDigit rest

/-- A digit of base sixteen. -/
def isHexDigit (c : Char) : Bool :=
  c.isDigit || ('a' ≤ c && c ≤ 'f') || ('A' ≤ c && c ≤ 'F')

/-- The value of a digit of base sixteen. -/
def hexValue (c : Char) : Nat :=
  if c.isDigit then c.toNat - '0'.toNat else (c.toLower.toNat - 'a'.toNat) + 10

/-- The number that digits of a base denote, underscores apart. -/
def digitsValue (base : Nat) (cs : List Char) : Nat :=
  (cs.filter (· ≠ '_')).foldl (fun n c => base * n + hexValue c) 0

/-- Whether a text is digits of a base that denote an integer of 64 bits. -/
def isBased (base : Nat) (isDigit : Char → Bool) (cs : List Char) : Bool :=
  isDigits isDigit cs && digitsValue base cs < Nat.pow 2 63

/-- Whether a text is decimal digits that do not begin with a zero, unless they are one. -/
def isPlainDigits (cs : List Char) : Bool :=
  isDigits Char.isDigit cs && (cs.head? ≠ some '0' || cs.length = 1)

/-- Whether a text is an integer of 64 bits. -/
def isInteger (cs : List Char) : Bool :=
  match cs with
  | '0' :: 'x' :: rest => isBased 16 isHexDigit rest
  | '0' :: 'o' :: rest => isBased 8 (fun c => '0' ≤ c && c ≤ '7') rest
  | '0' :: 'b' :: rest => isBased 2 (fun c => c = '0' || c = '1') rest
  | _ =>
      let (negative, ds) := Decimal.splitSign cs
      isPlainDigits ds && digitsValue 10 ds < Nat.pow 2 63 + (if negative then 1 else 0)

/-- Whether a text is a power of ten. -/
def isExponent (cs : List Char) : Bool :=
  match cs with
  | c :: rest =>
      (c = 'e' || c = 'E') && isDigits Char.isDigit (Decimal.splitSign rest).2
  | [] => false

/-- Whether a text is a number with a fraction or a power of ten, or a word for one. Numbers above
the greatest one are refused. -/
def isFloat (cs : List Char) : Bool :=
  let (_, body) := Decimal.splitSign cs
  if body = "inf".toList || body = "nan".toList then true
  else
    let isPart := fun c => c.isDigit || c = '_'
    let whole := body.takeWhile isPart
    let rest := body.dropWhile isPart
    let isTail :=
      match rest with
      | '.' :: more =>
          let exponent := more.dropWhile isPart
          isDigits Char.isDigit (more.takeWhile isPart) &&
            (exponent.isEmpty || isExponent exponent)
      | _ => isExponent rest
    isPlainDigits whole && isTail &&
      Binary64.read? (String.ofList (cs.filter (· ≠ '_'))) ≠ some (.infinite false)

/-- The number that so many digits at the front of a text denote, and the rest. -/
def fixedDigits? (count : Nat) (cs : List Char) : Option (Nat × List Char) :=
  let ds := cs.take count
  if ds.length = count ∧ ds.all Char.isDigit then
    some (Decimal.foldDigits 0 ds, cs.drop count)
  else none

/-- The text after a character. -/
def after? (c : Char) : List Char → Option (List Char)
  | d :: rest => if c = d then some rest else none
  | [] => none

/-- The number of days of a month. -/
def daysOf (year month : Nat) : Nat :=
  if month = 2 then
    if year % 4 = 0 ∧ (year % 100 ≠ 0 ∨ year % 400 = 0) then 29 else 28
  else if month ∈ [4, 6, 9, 11] then 30
  else 31

/-- The text after a date. -/
def afterDate? (cs : List Char) : Option (List Char) := do
  let (year, cs) ← fixedDigits? 4 cs
  let (month, cs) ← fixedDigits? 2 (← after? '-' cs)
  let (day, cs) ← fixedDigits? 2 (← after? '-' cs)
  if 1 ≤ month ∧ month ≤ 12 ∧ 1 ≤ day ∧ day ≤ daysOf year month then some cs else none

/-- The text after an hour and a minute. -/
def afterMinutes? (cs : List Char) : Option (List Char) := do
  let (hour, cs) ← fixedDigits? 2 cs
  let (minute, cs) ← fixedDigits? 2 (← after? ':' cs)
  if hour ≤ 23 ∧ minute ≤ 59 then some cs else none

/-- The text after a time of day. -/
def afterTime? (cs : List Char) : Option (List Char) := do
  let cs ← afterMinutes? cs
  let (second, cs) ← fixedDigits? 2 (← after? ':' cs)
  if 60 < second then none
  match cs with
  | '.' :: rest =>
      if (rest.takeWhile Char.isDigit).isEmpty then none else some (rest.dropWhile Char.isDigit)
  | _ => some cs

/-- Whether a text is nothing or a distance from universal time. -/
def isOffset (cs : List Char) : Bool :=
  match cs with
  | [] => true
  | ['Z'] | ['z'] => true
  | '+' :: rest | '-' :: rest => afterMinutes? rest = some []
  | _ => false

/-- Whether a text is a time of day with an optional distance from universal time. -/
def isOffsetTime (cs : List Char) : Bool := (afterTime? cs).any isOffset

/-- Whether a text is a date. -/
def isDate (cs : List Char) : Bool := afterDate? cs = some []

/-- Whether a text is a date, a time of day, or both with a letter between them. -/
def isTime (cs : List Char) : Bool :=
  match afterDate? cs with
  | some [] => true
  | some (c :: rest) => (c = 'T' || c = 't') && isOffsetTime rest
  | none => afterTime? cs = some []

end DatalogPolicy.Toml
