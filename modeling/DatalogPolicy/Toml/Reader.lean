import DatalogPolicy.Toml.Scalar
import DatalogPolicy.Toml.Value

/-!
# Reading TOML documents

A reader takes something from the front of a text. Readers that repeat a step
get a bound on the number of steps, for which the length of the text will do,
since each step takes at least one character.
-/

namespace DatalogPolicy.Toml

/-- A way to take something from the front of a text, or to fail. -/
abbrev Reader := StateT (List Char) Option

namespace Reader

/-- Arrays and inline tables lie in fewer than so many others, and keys have fewer parts. -/
def nestingLimit : Nat := 80

/-- The next character. -/
def char : Reader Char
  | c :: rest => some (c, rest)
  | [] => none

/-- Takes a given text. -/
def exactly (word : List Char) : Reader Unit := fun cs =>
  if word.isPrefixOf cs then some ((), cs.drop word.length) else none

/-- The longest text of characters that satisfy a condition. -/
def takeWhile (p : Char → Bool) : Reader (List Char) := fun cs =>
  some (cs.takeWhile p, cs.dropWhile p)

/-- A bound on the number of steps over the rest of the text. -/
def bound : Reader Nat := return (← get).length + 1

/-- A blank within a line. -/
def isGap (c : Char) : Bool := c = ' ' || c = '\t'

/-- Takes blanks within a line. -/
def gaps : Reader Unit := discard (takeWhile isGap)

/-- A character that may stand in comments, and in texts unless it has a meaning there. -/
def isPrintable (c : Char) : Bool := c = '\t' || (0x20 ≤ c.toNat && c.toNat ≠ 0x7f)

/-- Takes the end of a line. -/
def newline : Reader Unit := exactly ['\n'] <|> exactly ['\r', '\n']

/-- Takes a comment, if there is one. -/
def comment : Reader Unit := do
  if (← get).head? = some '#' then discard (takeWhile isPrintable)

/-- Takes the rest of a line, which has no contents. -/
def lineRest : Reader Unit := do
  gaps
  comment
  unless (← get).isEmpty do newline

/-- Takes blanks and ends of lines, of which there are at most `steps`, and comments if they are
allowed. -/
def blanks (comments : Bool) : Nat → Reader Unit
  | 0 => gaps
  | steps + 1 => do
      gaps
      (do if comments then comment
          newline
          blanks comments steps) <|> pure ()

/-- The character of so many digits of base sixteen. -/
def codePoint (count : Nat) : Reader Char := do
  let cs ← get
  let ds := cs.take count
  let code := digitsValue 16 ds
  if h : ds.length = count ∧ ds.all isHexDigit ∧ code.isValidChar then
    set (cs.drop count)
    return Char.ofNatAux code h.2.2
  else failure

/-- The character that an escape stands for, read after its backslash. -/
def escape : Reader Char := do
  match ← char with
  | 'b' => return '\x08'
  | 't' => return '\t'
  | 'n' => return '\n'
  | 'f' => return '\x0c'
  | 'r' => return '\r'
  | '"' => return '"'
  | '\\' => return '\\'
  | 'u' => codePoint 4
  | 'U' => codePoint 8
  | _ => failure

/-- The text up to the quote that ends it on the same line. Only between double quotes do
backslashes begin escapes. -/
def lineText (quote : Char) : Nat → Reader (List Char)
  | 0 => failure
  | steps + 1 => do
      let c ← char
      if c = quote then return []
      else if c = '\\' ∧ quote = '"' then return (← escape) :: (← lineText quote steps)
      else if isPrintable c then return c :: (← lineText quote steps)
      else failure

/-- The text up to three quotes that end it. Up to two more quotes there belong to the text. A
backslash at the end of a line takes away the blanks and ends of lines after it. -/
def blockText (quote : Char) : Nat → Reader (List Char)
  | 0 => failure
  | steps + 1 => do
      let quotes := ((← get).takeWhile (· = quote)).length
      if 3 ≤ quotes then
        if 5 < quotes then failure
        modify (·.drop quotes)
        return List.replicate (quotes - 3) quote
      else if (← get).head? = some '\\' ∧ quote = '"' then
        discard char
        (do gaps
            newline
            blanks false (← bound)
            blockText quote steps) <|>
          (do return (← escape) :: (← blockText quote steps))
      else
        let c ← (do newline; return '\n') <|> char
        if c = '\n' ∨ isPrintable c then return c :: (← blockText quote steps)
        else failure

/-- A text between quotes on one line. -/
def lineString (quote : Char) : Reader String := do
  exactly [quote]
  return String.ofList (← lineText quote (← bound))

/-- A text between three quotes and three quotes, without an end of line at its front. -/
def blockString (quote : Char) : Reader String := do
  exactly [quote, quote, quote]
  newline <|> pure ()
  return String.ofList (← blockText quote (← bound))

/-- A text between quotes of any number. -/
def string (quote : Char) : Reader String := do
  if [quote, quote, quote].isPrefixOf (← get) then blockString quote else lineString quote

/-- A character of a key without quotes. -/
def isKeyChar (c : Char) : Bool := c.isAlphanum || c = '_' || c = '-'

/-- One part of a key. -/
def keyPart : Reader String := do
  match (← get).head? with
  | some '"' => lineString '"'
  | some '\x27' => lineString '\x27'
  | _ =>
      let part ← takeWhile isKeyChar
      if part.isEmpty then failure else return String.ofList part

/-- The parts of a key, at most `steps` of them, and the blanks around it. -/
def keyParts : Nat → Reader (List String)
  | 0 => failure
  | steps + 1 => do
      gaps
      let part ← keyPart
      gaps
      if (← get).head? = some '.' then
        discard char
        return part :: (← keyParts steps)
      else return [part]

/-- The names of the tables on the way to an entry, and the name of the entry. -/
structure Key where
  path : List String
  last : String

/-- The key of such parts. -/
def Key.ofParts? (parts : List String) : Option Key :=
  parts.getLast?.map fun last => ⟨parts.dropLast, last⟩

/-- A key. -/
def key : Reader Key := do
  Key.ofParts? (← keyParts (nestingLimit - 1))

/-- A character of words, numbers and times. -/
def isScalarChar (c : Char) : Bool :=
  c.isAlphanum || c = '+' || c = '-' || c = '_' || c = '.' || c = ':'

/-- A boolean, a number or a time. A blank may stand between a date and a time of day. -/
def scalar : Reader Toml := do
  let word ← takeWhile isScalarChar
  if word = "true".toList then return .boolean true
  else if word = "false".toList then return .boolean false
  else if isInteger word || isFloat word then return .number (String.ofList word)
  else if isDate word then
    (do exactly [' ']
        let clock ← takeWhile isScalarChar
        if isOffsetTime clock then return .time (String.ofList (word ++ ' ' :: clock))
        else failure) <|>
      pure (.time (String.ofList word))
  else if isTime word then return .time (String.ofList word)
  else failure

/-- Items with commas between them, at least one and at most `steps`. A comma that no item follows
is left. -/
def separated (item : Reader α) : Nat → Reader (List α)
  | 0 => failure
  | steps + 1 => do
      let first ← item
      let rest ← (do exactly [',']
                     separated item steps) <|> pure []
      return first :: rest

/-- A key, an equals sign and a value. -/
def pair (value : Reader Toml) : Reader (Key × Toml) := do
  let name ← key
  exactly ['=']
  gaps
  let v ← value
  gaps
  return (name, v)

/-- The array after an opening bracket. A comma may follow its last item. -/
def array (value : Reader Toml) : Reader Toml := do
  let skip := do blanks true (← bound)
  let item := do
    skip
    let v ← value
    skip
    return v
  let items ←
    (do let items ← separated item (← bound)
        exactly [','] <|> pure ()
        return items) <|> pure []
  skip
  exactly [']']
  return .array items

/-- The inline table after an opening brace, which lies on one line. -/
def inlineTable (value : Reader Toml) : Reader Toml := do
  let pairs ← separated (pair value) (← bound) <|> pure []
  gaps
  exactly ['\x7d']
  let entries ← pairs.foldlM
    (fun entries (name, v) => setKey v .header entries name.path name.last false) []
  return .table (Node.entryValues entries)

/-- A value with no values in it. -/
def leaf : Reader Toml := do
  match (← get).head? with
  | some '"' => return .string (← string '"')
  | some '\x27' => return .string (← string '\x27')
  | _ => scalar

/-- A value in which arrays and inline tables lie in each other at most to a depth. -/
def value : Nat → Reader Toml
  | 0 => leaf
  | depth + 1 =>
      (do exactly ['[']
          array (value depth)) <|>
        (do exactly ['\x7b']
            inlineTable (value depth)) <|>
          leaf

/-- What has been read of a document, and the path of the header that lines belong to. -/
structure Document where
  root : Entries := []
  current : List String := []

/-- The key of a header between brackets, which takes a whole line. -/
def header (opening closing : List Char) : Reader Key := do
  exactly opening
  let name ← key
  exactly closing
  lineRest
  return name

/-- The document with a table of a header. -/
def Document.withTable? (d : Document) (name : Key)
    (change : String → Origin → Entries → Option Entries) : Option Document :=
  (updateAt (change name.last) .header d.root name.path).map fun root =>
    { root, current := name.path ++ [name.last] }

/-- The document with a value of a key below its last header. -/
def Document.withValue? (d : Document) (name : Key) (v : Toml) : Option Document :=
  let set := fun _ entries => setKey v .header entries name.path name.last false
  (updateAt set .header d.root d.current).map fun root => { d with root }

/-- A line of a document, at which no blanks stand. -/
def line (d : Document) : Reader Document := do
  match ← get with
  | '#' :: _ | '\n' :: _ | '\r' :: _ =>
      lineRest
      return d
  | '[' :: '[' :: _ => d.withTable? (← header ['[', '['] [']', ']']) pushTable
  | '[' :: _ => d.withTable? (← header ['['] [']']) openTable
  | _ =>
      let (name, v) ← pair (value (nestingLimit - 1))
      lineRest
      d.withValue? name v

/-- The lines of a document, fewer than `steps` of them. -/
def lines : Nat → Document → Reader Document
  | 0, _ => failure
  | steps + 1, d => do
      gaps
      if (← get).isEmpty then return d else lines steps (← line d)

/-- A document, at whose front a byte order mark is skipped. -/
def document : Reader Document := do
  exactly ['\ufeff'] <|> pure ()
  lines (← bound) {}

end Reader

/-- The table that a text stands for. -/
def read? (text : String) : Option (List (String × Toml)) :=
  (Reader.document.run text.toList).map fun (d, _) => Node.entryValues d.root

end DatalogPolicy.Toml
