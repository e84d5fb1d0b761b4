import DatalogPolicy.Compile.Arguments
import DatalogPolicy.Surface.Parser
import DatalogPolicy.Token.Scan

/-!
# From sources to formulas

A source is scanned and parsed as a whole; each of its statements then gives
one formula, with or without errors.
-/

namespace DatalogPolicy

/-- What a policy is compiled with. -/
structure Settings where
  /-- The schemas in which the columns of tables are looked up. -/
  theories : Theories := {}
  /-- Whether the name of a table begins with a service. -/
  modules : Bool := true

/-- The characters of a named text, with the index of its lines. -/
structure Source where
  file : String
  chars : List Char
  lines : LineIndex

namespace Source

/-- What a source without a file is called. -/
def unnamed : String := "<input>"

/-- The source with a text. -/
def ofText (file text : String) : Source := ⟨file, text.toList, LineIndex.ofText text⟩

/-- The site of a span. -/
def site (s : Source) (span : Span) : Site := .ofSpan s.file s.lines span

/-- The text of a span. -/
def excerpt (s : Source) (span : Span) : String :=
  String.ofList (Text.slice span s.chars)

/-- The tokens of a source, or its first unknown token. -/
def tokens (s : Source) : Except PolicyError (List Token) :=
  let tokens := Token.scan s.chars
  match tokens.find? (·.kind = .unknown) with
  | some token => .error (.lexical (.unknownText token.text) (s.site token.span))
  | none => .ok tokens

/-- The error for a failure to parse. -/
def grammarError (s : Source) (failure : Surface.Failure) : PolicyError :=
  match failure.found with
  | some x => .grammar (.unexpected x.text failure.expected) (s.site x.span)
  | none =>
      let stop := Text.byteLength s.chars
      .grammar (.unfinished failure.expected) (s.site ⟨stop, stop⟩)

/-- The statements that some tokens of a source make up. -/
def parseTokens (s : Source) (tokens : List Token) : Except PolicyError (List Surface.Statement) :=
  (Surface.parse (tokens.filterMap (·.lexeme?))).mapError s.grammarError

/-- The statements of a source. -/
def statements (s : Source) : Except PolicyError (List Surface.Statement) :=
  s.tokens.bind s.parseTokens

end Source

namespace Compile

/-- The declared columns of a table, which only the schema of its service knows. -/
def columns? (settings : Settings) (table : TableName) : Option (List String) :=
  table.service.bind fun service =>
    settings.theories[service]?.bind fun schema => schema.columns? table.table

/-- The literal with an index in its statement. -/
def literal (settings : Settings) (site : Site) (l : Surface.Literal) : Outcome Literal :=
  let table :=
    { TableName.ofText settings.modules l.atom.relation.text with
      modal := l.modal.map (·.name.text) }
  let args := arguments site l.atom table (columns? settings table)
  { value := {
      table
      arguments := args.value
      negated := l.negation.isSome
      location := site.locate l.atom.span }
    errors := args.errors }

/-- The literals of a statement from an index on. -/
def literals (settings : Settings) (source : Source) (stem : String) (index : Nat)
    (ls : List Surface.Literal) : List (Outcome Literal) :=
  ls.mapIdx fun i l => literal settings ⟨source.lines, index + i, stem⟩ l

/-- The stem of the fresh variables of a statement. -/
def freshStem (s : Surface.Statement) : String :=
  FreshName.stem (s.literals.flatMap (·.atom.vars))

/-- The formula of a statement. -/
def formula (settings : Settings) (source : Source) (s : Surface.Statement) : Outcome Formula :=
  let stem := freshStem s
  let notes : Annotations := { source := some (source.excerpt s.span) }
  match s with
  | .fact l =>
      let fact := literal settings ⟨source.lines, 0, stem⟩ l
      { value := .literal { fact.value with notes }, errors := fact.errors }
  | .rule head heads first body =>
      let one := literal settings ⟨source.lines, 0, stem⟩ head
      let others := literals settings source stem 1 heads
      let rest := literals settings source stem (heads.length + 1) (first :: body)
      { value := .rule {
          heads := one.value :: others.map (·.value)
          body := rest.map (·.value)
          location := some (source.lines.position (.ofNat s.span.start))
          notes
          heads_ne := List.cons_ne_nil _ _ }
        errors := one.errors ++ (others ++ rest).flatMap (·.errors) }

/-- The formulas of statements, with all errors in order. -/
def formulas (settings : Settings) (source : Source) (statements : List Surface.Statement) :
    Outcome (List Formula) :=
  let outcomes := statements.map (formula settings source)
  { value := outcomes.map (·.value), errors := outcomes.flatMap (·.errors) }

end Compile

end DatalogPolicy
