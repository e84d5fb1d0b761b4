import DatalogPolicy.Formula
import DatalogPolicy.Text.Escape
import DatalogPolicy.Token

/-!
# Faults

What can be wrong with a policy, each cause with its wording. A `PolicyError`
is a fault together with where it was found.
-/

namespace DatalogPolicy

/-- A fault in the arguments of an atom that names or numbers columns. -/
inductive ReferenceFault
  | undeclaredTable (table : TableName)
  | positionalAfterReference
  | repeatedName (name : String)
  | unknownName (name : String)
  | filledName (name : String) (column : Nat)
  | numberOutside (number : String) (columns : Nat)
  | repeatedNumber (number : Nat)
  | filledNumber (number : Nat)
  | nameAndNumber (name : String) (number : Nat)
deriving DecidableEq, Repr

/-- The wording of a fault in an atom. -/
def ReferenceFault.message (atom : String) : ReferenceFault → String
  | undeclaredTable table =>
      "Atom " ++ atom ++ " uses named parameters but the columns for table " ++ table.text ++
        " have not been declared."
  | positionalAfterReference =>
      "Atom " ++ atom ++ " has a positional parameter after a reference parameter"
  | repeatedName name =>
      "In atom " ++ atom ++ " two values for column name " ++ name ++ " were provided"
  | unknownName name => "In atom " ++ atom ++ " column name " ++ name ++ " does not exist"
  | filledName name column =>
      "In atom " ++ atom ++ " column name " ++ name ++ " references position " ++
        toString column ++ ", which is already provided by position arguments."
  | numberOutside number columns =>
      "In atom " ++ atom ++ " column number " ++ number ++
        " is too large. The permitted column numbers are 0.." ++ toString (columns - 1) ++ " "
  | repeatedNumber number =>
      "In atom " ++ atom ++ " two values for column number " ++ toString number ++
        " were provided."
  | filledNumber number =>
      "In atom " ++ atom ++ " column number " ++ toString number ++
        " is already provided by position arguments."
  | nameAndNumber name number =>
      "In atom " ++ atom ++ " a column was given two values by reference parameters: " ++
        "one by name " ++ name ++ " and one by number " ++ toString number ++ ". "

/-- A fault of a formula. -/
inductive Fault
  | stated (message : String)
  | noFormulas
  | noHeads
  | reference (atom : String) (fault : ReferenceFault)
  | invalidInteger (text : String)
  | invalidFloat (text : String)
  | invalidString (text : String) (fault : EscapeFault)
  | negatedFact (fact : Literal)
  | openFact (fact : Literal)
  | factOfTheory (fact : Literal) (theory : String)
  | unboundHead (name : String) (rule : Rule)
  | unorderable (rule : Rule) (stuck : List (Literal × List String))
  | forbiddenModal (permitted : List String) (modal : String) (head : Literal)
  | modalAmongHeads (heads : List Literal)
  | modalInBody (modal : String) (literal : Literal)
  | headOfTheory (head : Literal) (rule : Rule)
  | unknownTable (literal : Literal) (theory : String)
  | wrongWidth (literal : Literal) (columns : Nat)
deriving Repr

/-- The wording of a fault. -/
def Fault.message : Fault → String
  | stated message => message
  | noFormulas => "Policy contains no formulas"
  | noHeads => "A rule requires at least one head"
  | reference atom fault => fault.message atom
  | invalidInteger text => "Invalid integer " ++ text ++ ": invalid float literal"
  | invalidFloat text => "Invalid float " ++ text ++ ": invalid float literal"
  | invalidString text fault => "Invalid string " ++ text ++ ": " ++ fault.message
  | negatedFact fact => "Fact may not be negated: " ++ fact.text
  | openFact fact => "Fact not ground: " ++ fact.text
  | factOfTheory fact theory =>
      "Fact " ++ fact.text ++ " should not reference any policy: " ++ theory
  | unboundHead name rule =>
      "Variable " ++ name ++ " found in head but not in body, rule " ++ rule.text
  | unorderable rule stuck =>
      let entry := fun (literal, names) =>
        Literal.text literal ++ " (vars " ++ String.intercalate ", " names ++ ")"
      "Could not reorder rule " ++ rule.text ++ ".  Unsafe lits: " ++
        String.intercalate "; " (stuck.map entry)
  | forbiddenModal permitted modal head =>
      let quoted := permitted.map fun name => "'" ++ name ++ "'"
      "Only " ++ String.intercalate ", " quoted ++ " modal is allowed; found " ++ modal ++
        " in head " ++ head.text
  | modalAmongHeads heads =>
      "May not have multiple rule heads with a modal: " ++ Rule.joinTexts ", " heads
  | modalInBody modal literal =>
      "Modals not allowed in the rule body; found " ++ modal ++ " in body literal " ++
        literal.text
  | headOfTheory head rule =>
      "Non-modal rule head " ++ head.text ++ " should not reference any policy: " ++ rule.text
  | unknownTable literal theory =>
      "Literal " ++ literal.text ++ " uses unknown table " ++ literal.table.table ++
        " from policy " ++ theory
  | wrongWidth literal columns =>
      "Literal " ++ literal.text ++ " contained " ++ toString literal.arguments.length ++
        " arguments but only " ++ toString columns ++ " arguments are permitted"

/-- Why a text cannot be divided into tokens. -/
inductive LexicalFault
  | stated (message : String)
  | unknownText (text : String)
deriving DecidableEq, Repr

/-- The wording of a fault. -/
def LexicalFault.message : LexicalFault → String
  | stated message => message
  | unknownText text => "Unexpected character: " ++ text

/-- Why a sequence of tokens is no policy. -/
inductive GrammarFault
  | stated (message : String)
  | unexpected (text : String) (expected : List Terminal)
  | unfinished (expected : List Terminal)
deriving DecidableEq, Repr

/-- Terminals between quotes, separated by commas. -/
def Terminal.listing (terminals : List Terminal) : String :=
  String.intercalate ", " (terminals.map fun t => "\"" ++ t.name ++ "\"")

/-- The wording of a fault. -/
def GrammarFault.message : GrammarFault → String
  | stated message => message
  | unexpected text expected =>
      "Unexpected token '" ++ text ++ "', expected one of " ++ Terminal.listing expected
  | unfinished expected =>
      "Unexpected end of input, expected one of " ++ Terminal.listing expected

/-- Why a file cannot be read as a text. -/
inductive FileFault
  | stated (message : String)
  | missing
  | directory
  | notText
deriving DecidableEq, Repr

/-- The wording of a fault. -/
def FileFault.message : FileFault → String
  | stated message => message
  | missing => "No such file or directory (os error 2)"
  | directory => "Is a directory (os error 21)"
  | notText => "stream did not contain valid UTF-8"

/-- A place in a source file. -/
structure Site where
  file : String
  span : Span
  position : Position
deriving DecidableEq, Repr

/-- The site of a span in a file whose lines are known. -/
def Site.ofSpan (file : String) (lines : LineIndex) (span : Span) : Site :=
  ⟨file, span, lines.position (.ofNat span.start)⟩

/-- The beginning of a message about a site. -/
def Site.text (s : Site) : String :=
  "datapol:" ++ s.file ++ ":" ++ toString s.position.line ++ ":" ++ toString s.position.column ++
    ": "

/-- An error in a policy or in reading it. -/
inductive PolicyError
  | lexical (fault : LexicalFault) (site : Site)
  | grammar (fault : GrammarFault) (site : Site)
  | policy (fault : Fault) (location : Option Position)
  | compile (errors : List PolicyError)
  | file (path : String) (fault : FileFault)
deriving Repr

namespace PolicyError

mutual

/-- The message of an error. -/
def message : PolicyError → String
  | lexical fault site => site.text ++ "ERR_LEX: " ++ fault.message
  | grammar fault site => site.text ++ "ERR_SYNTAX: " ++ fault.message
  | policy fault _ => fault.message
  | compile errors => "Compiler found errors:\n" ++ String.intercalate "\n" (messages errors)
  | file path fault => "datapol:" ++ path ++ ": ERR_IO: " ++ fault.message

/-- The messages of several errors. -/
def messages : List PolicyError → List String
  | [] => []
  | error :: rest => error.message :: messages rest

end

end PolicyError

end DatalogPolicy
