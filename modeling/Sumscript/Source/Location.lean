import Sumscript.Text.Document

/-! # Positions in a source text and the lines around them

Offsets count characters from zero. People read line and column numbers, both
counted from one. A `LineTable` holds the offsets at which lines start and turns
offsets into positions. A line ends after a line feed, after a carriage return
and a line feed together, and after a carriage return that stands alone.
-/

namespace Sumscript

/-- A line and a column, both counted from one. -/
structure Position where
  line : Nat
  column : Nat
deriving DecidableEq, Repr, Inhabited

namespace Position

/-- The first position of every text. -/
def first : Position := ⟨1, 1⟩

/-- Earlier line first, and on one line the smaller column first. -/
def le (p q : Position) : Bool :=
  p.line < q.line || (p.line == q.line && p.column ≤ q.column)

/-- The written form `line:column`. -/
def render (p : Position) : String :=
  toString p.line ++ ":" ++ toString p.column

/-- A position as a document. -/
def toDocument (p : Position) : Document :=
  .fields [("line", .number p.line), ("column", .number p.column)]

end Position

/-- A half-open interval of character offsets. -/
structure Span where
  start : Nat
  stop : Nat
deriving DecidableEq, Repr, Inhabited

/-- A span of a text together with the positions of its two ends. -/
structure Range where
  span : Span
  start : Position
  stop : Position
deriving DecidableEq, Repr, Inhabited

namespace Range

/-- The empty range at the first position. -/
def first : Range := ⟨⟨0, 0⟩, .first, .first⟩

/-- Whether a position lies between the two ends, both included. -/
def contains (r : Range) (p : Position) : Bool :=
  r.start.le p && p.le r.stop

/-- The written form `line:column..line:column`. -/
def render (r : Range) : String :=
  r.start.render ++ ".." ++ r.stop.render

/-- A range as a document. -/
def toDocument (r : Range) : Document :=
  .fields
    [("span", .fields [("start", .number r.span.start), ("end", .number r.span.stop)]),
      ("start", r.start.toDocument), ("end", r.stop.toDocument)]

end Range

/-- The offsets at which the lines of a text start, and the length of the text. -/
structure LineTable where
  starts : List Nat
  length : Nat
deriving DecidableEq, Repr, Inhabited

namespace LineTable

/-- Whether a line ends right after the character `c` that `rest` follows. A carriage return
before a line feed does not end the line, because the line feed does. -/
def endsLine (c : Char) (rest : List Char) : Bool :=
  c == '\n' || (c == '\r' && rest.head? != some '\n')

/-- The starts of the lines that begin inside a text whose first character has the given offset,
its own first line excepted. -/
def startsFrom : Nat → List Char → List Nat
  | _, [] => []
  | offset, c :: rest =>
    if endsLine c rest then (offset + 1) :: startsFrom (offset + 1) rest
    else startsFrom (offset + 1) rest

/-- The line table of a text. -/
def ofChars (chars : List Char) : LineTable :=
  ⟨0 :: startsFrom 0 chars, chars.length⟩

/-- The number of lines; a text that ends with a line end has an empty last line. -/
def lineCount (t : LineTable) : Nat :=
  t.starts.length

/-- The position of an offset; an offset past the end counts as the end. -/
def position (t : LineTable) (offset : Nat) : Position :=
  let offset := min offset t.length
  let passed := t.starts.takeWhile (· ≤ offset)
  ⟨passed.length, offset - passed.getLastD 0 + 1⟩

/-- A span with the positions of its ends. -/
def range (t : LineTable) (span : Span) : Range :=
  ⟨span, t.position span.start, t.position span.stop⟩

end LineTable

/-! ## Excerpts around a line

An excerpt shows the line of a range with up to two lines before it and after it. The line
itself is marked. A line past the last one has no text and is shown as an empty marked line.
-/

namespace Excerpt

/-- The lines of a text without their line ends; an empty last line is not one of them. -/
def lines : List Char → List (List Char)
  | [] => []
  | '\r' :: '\n' :: rest => [] :: lines rest
  | c :: rest =>
    if c == '\n' || c == '\r' then [] :: lines rest
    else match lines rest with
      | [] => [[c]]
      | line :: more => (c :: line) :: more

/-- A number with blanks before it up to the width of three. -/
def lineNumber (n : Nat) : String :=
  let digits := toString n
  String.ofList (List.replicate (3 - digits.length) ' ') ++ digits

/-- How many lines before the marked one, and after it, an excerpt shows at most. -/
def margin : Nat := 2

/-- The excerpt around the line with index `marked`, counted from zero. -/
def around (chars : List Char) (marked : Nat) : String :=
  let all := lines chars
  let first := marked - margin
  let shown := (all.take (marked + margin + 1)).drop first
  let body := shown.zipIdx first |>.map fun (line, index) =>
    (if index == marked then ">>" else "  ") ++ " " ++ lineNumber (index + 1) ++ " | " ++
      String.ofList line ++ "\n"
  String.join body ++
    if all.length ≤ marked then ">> " ++ lineNumber (marked + 1) ++ " |\n" else ""

/-- The excerpt around the line on which a range starts. -/
def ofRange (chars : List Char) (range : Range) : String :=
  around chars (range.start.line - 1)

end Excerpt

end Sumscript
