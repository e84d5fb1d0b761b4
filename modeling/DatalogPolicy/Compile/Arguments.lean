import DatalogPolicy.Compile.FreshName
import DatalogPolicy.Fault
import DatalogPolicy.Number.Decimal
import DatalogPolicy.Schema
import DatalogPolicy.Surface.Tree

/-!
# Arguments of atoms

An atom gives its arguments by position, and for tables whose columns are known
also by the name or the number of a column. All faults of an atom are reported
together, and an atom with a faulty reference keeps no arguments.
-/

namespace DatalogPolicy.Compile

/-- A result with the errors that were found on the way to it. -/
structure Outcome (α : Type) where
  value : α
  errors : List PolicyError := []

/-- The integer of 64 bits that a numeral denotes. -/
def readInteger? (text : String) : Option Int64 :=
  let (negative, ds) := Decimal.splitSign text.toList
  let n : Int := Decimal.foldDigits 0 ds
  let i := if negative then -n else n
  if ds ≠ [] ∧ ds.all Char.isDigit ∧ Int64.minValue.toInt ≤ i ∧ i ≤ Int64.maxValue.toInt then
    some (Int64.ofInt i)
  else none

/-- One more than the greatest number of a column. -/
def columnLimit : Nat := Nat.pow 2 64

/-- The number of a column that a numeral without a sign denotes. -/
def readColumn? (text : String) : Option Nat :=
  let n := Decimal.foldDigits 0 text.toList
  if text ≠ "" ∧ text.toList.all Char.isDigit ∧ n < columnLimit then some n else none

/-- What an atom is compiled with: the line index of its source, the number of its literal in
the statement, and the stem of fresh variables. -/
structure Site where
  lines : LineIndex
  index : Nat
  stem : String

namespace Site

/-- The position of an offset. -/
def locate (s : Site) (span : Span) : Option Position := some (s.lines.position (.ofNat span.start))

/-- The term of a lexeme. Integers out of range become binary numbers. -/
def term (s : Site) (x : Lexeme) : Except PolicyError (Located Term) :=
  let location := s.locate x.span
  let const := fun v => Except.ok ⟨Term.const v, location⟩
  match x.terminal with
  | .integer =>
      match readInteger? x.text, Binary64.read? x.text with
      | some i, _ => const (.int i)
      | none, some f => const (.float f)
      | none, none => .error (.policy (.invalidInteger x.text) location)
  | .float =>
      match Binary64.read? x.text with
      | some f => const (.float f)
      | none => .error (.policy (.invalidFloat x.text) location)
  | .string =>
      match Text.quotedValue x.text with
      | .ok text => const (.str text)
      | .error fault => .error (.policy (.invalidString x.text fault) location)
  | _ => .ok ⟨.var x.text, location⟩

/-- The terms of lexemes, apart from those that have none. -/
def terms (s : Site) (xs : List Lexeme) : Outcome (List (Located Term)) where
  value := xs.filterMap fun x => (s.term x).toOption
  errors := xs.filterMap fun x =>
    match s.term x with
    | .ok _ => none
    | .error e => some e

end Site

/-- The values that an atom gives by the names and by the numbers of columns. -/
structure References where
  names : List (String × Located Term) := []
  numbers : List (Nat × Located Term) := []

/-- The faults of a column name, `filled` columns being given by position. -/
def nameFaults (columns : List String) (filled : Nat) (given : References) (name : String) :
    List ReferenceFault :=
  (if given.names.any (·.1 = name) then [.repeatedName name] else []) ++
    match columns.findIdx? (· = name) with
    | none => [.unknownName name]
    | some column => if column < filled then [.filledName name column] else []

/-- The faults of a column number, `filled` columns being given by position. -/
def numberFaults (columns : List String) (filled : Nat) (given : References) (number : Nat) :
    List ReferenceFault :=
  (if given.numbers.any (·.1 = number) then [.repeatedNumber number] else []) ++
    (if number < filled then [.filledNumber number] else []) ++
    (if columns.length ≤ number then [.numberOutside (toString number) columns.length] else [])

/-- Adds the value of a referenced column, with the faults of the reference. -/
def addReference (columns : List String) (filled : Nat) (given : References) (column : Lexeme)
    (term : Located Term) : References × List ReferenceFault :=
  if column.terminal = .identifier then
    ({ given with names := (column.text, term) :: given.names },
      nameFaults columns filled given column.text)
  else
    match readColumn? column.text with
    | none => (given, [.numberOutside column.text columns.length])
    | some number =>
        ({ given with numbers := (number, term) :: given.numbers },
          numberFaults columns filled given number)

/-- The references among the arguments that follow the positional ones. -/
def collectReferences (site : Site) (fault : ReferenceFault → PolicyError)
    (columns : List String) (filled : Nat) (given : References) :
    List Surface.Param → Outcome References
  | [] => { value := given }
  | .positional _ :: rest =>
      let tail := collectReferences site fault columns filled given rest
      { tail with errors := fault .positionalAfterReference :: tail.errors }
  | .named column x :: rest =>
      match site.term x with
      | .error e =>
          let tail := collectReferences site fault columns filled given rest
          { tail with errors := e :: tail.errors }
      | .ok term =>
          let (given, faults) := addReference columns filled given column term
          let tail := collectReferences site fault columns filled given rest
          { tail with errors := faults.map fault ++ tail.errors }

/-- The arguments of the columns from `number` on. A value given by name goes to the first column
of that name, and columns without a value get fresh variables. -/
def fillColumns (site : Site) (given : References) (number : Nat) :
    List String → List (Except ReferenceFault (Located Term))
  | [] => []
  | column :: rest =>
      let others := { given with names := given.names.filter (·.1 ≠ column) }
      let argument :=
        match given.names.lookup column, given.numbers.lookup number with
        | some _, some _ => .error (.nameAndNumber column number)
        | some term, none => .ok term
        | none, some term => .ok term
        | none, none => .ok ⟨.var (FreshName.filler site.stem site.index number), none⟩
      argument :: fillColumns site others (number + 1) rest

/-- The arguments of an atom whose columns are known. -/
def knownArguments (site : Site) (atom : Surface.Atom) (columns : List String) :
    Outcome (List (Located Term)) :=
  let fault := fun f => PolicyError.policy (.reference atom.text f) (site.locate atom.span)
  let leading := atom.params.takeWhile (!·.isNamed)
  let filled := leading.length
  let positional := site.terms (leading.map (·.term))
  let references :=
    collectReferences site fault columns filled {} (atom.params.drop filled)
  let errors := positional.errors ++ references.errors
  if errors.isEmpty then
    let rest := fillColumns site references.value filled (columns.drop filled)
    let faults := rest.filterMap fun
      | .ok _ => none
      | .error f => some (fault f)
    if faults.isEmpty then { value := positional.value ++ rest.filterMap (·.toOption) }
    else { value := [], errors := faults }
  else { value := [], errors }

/-- The arguments of an atom, whose columns may be unknown. -/
def arguments (site : Site) (atom : Surface.Atom) (table : TableName)
    (columns : Option (List String)) : Outcome (List (Located Term)) :=
  match columns with
  | some columns => knownArguments site atom columns
  | none =>
      if atom.params.any (·.isNamed) then
        let fault := Fault.reference atom.text (.undeclaredTable table)
        { value := [], errors := [.policy fault (site.locate atom.span)] }
      else site.terms (atom.params.map (·.term))

end DatalogPolicy.Compile
