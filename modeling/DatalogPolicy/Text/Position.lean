/-!
# Places in a text

A place in a text is a number of bytes of its UTF-8 encoding. Readers are told
lines and columns instead; `LineIndex.position` computes them from the offsets
at which lines begin. Any machine word may be asked for as an offset, also one
far beyond the end, and columns are machine words again.
-/

namespace DatalogPolicy

/-- A half-open range of byte offsets. -/
structure Span where
  start : Nat
  stop : Nat
deriving DecidableEq, Repr, Inhabited

/-- The smallest span that covers both spans. -/
def Span.merge (a b : Span) : Span := ⟨min a.start b.start, max a.stop b.stop⟩

/-- A line and a column, both counted from one; columns count bytes. A text has fewer lines than
there are machine words, but a column may be asked for far beyond its end. -/
structure Position where
  line : Nat
  column : UInt64
deriving DecidableEq, Repr, Inhabited

/-- The written form of a position. -/
def Position.text (p : Position) : String :=
  "line:" ++ toString p.line ++ ",col:" ++ toString p.column

namespace Text

/-- The number of bytes that encode the characters. -/
def byteLength (cs : List Char) : Nat := cs.foldr (fun c n => c.utf8Size + n) 0

/-- The offsets just after each newline, the first character standing at `offset`. -/
def lineStarts (offset : Nat) : List Char → List Nat
  | [] => []
  | c :: rest =>
      let next := offset + c.utf8Size
      if c = '\n' then next :: lineStarts next rest else lineStarts next rest

/-- The characters from byte `n` on. -/
def dropBytes : Nat → List Char → List Char
  | 0, cs => cs
  | _ + 1, [] => []
  | n + 1, c :: rest => dropBytes (n + 1 - c.utf8Size) rest

/-- The characters that begin before byte `n`. -/
def takeBytes : Nat → List Char → List Char
  | 0, _ => []
  | _ + 1, [] => []
  | n + 1, c :: rest => c :: takeBytes (n + 1 - c.utf8Size) rest

/-- The part of a text that a span covers. -/
def slice (span : Span) (cs : List Char) : List Char :=
  takeBytes (span.stop - span.start) (dropBytes span.start cs)

end Text

/-- The offsets at which the lines of a text after the first begin, in increasing order. -/
structure LineIndex where
  later : List Nat
deriving DecidableEq, Repr

namespace LineIndex

/-- The line index of a text. -/
def ofText (text : String) : LineIndex := ⟨Text.lineStarts 0 text.toList⟩

/-- The position of an offset: its line is the last that begins at or before it. The words wrap
around where the column is greater than all of them. -/
def position (index : LineIndex) (offset : UInt64) : Position :=
  let begun := index.later.takeWhile (· ≤ offset.toNat)
  ⟨begun.length + 1, offset - .ofNat (begun.getLast?.getD 0) + 1⟩

end LineIndex

end DatalogPolicy
