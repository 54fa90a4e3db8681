import ProjectFile.Text.Basic
import ProjectFile.Source.Span
import ProjectFile.Source.Position

/-!
The line index of a text: the offsets at which its lines start, and with them the conversion
between byte offsets and positions. A carriage return followed by a line feed, a line feed and a
lone carriage return each end exactly one line.
-/

namespace ProjectFile

/-- The offsets of the line starts of a text, first line included, and the length of the text. -/
structure LineIndex where
  starts : List Nat
  length : Nat
  deriving DecidableEq, Repr

namespace LineIndex

/-- The offsets just after the line terminators of a text that stands at `offset`. -/
def breaks (offset : Nat) : Text → List Nat
  | [] => []
  | '\r' :: '\n' :: t => (offset + 2) :: breaks (offset + 2) t
  | '\r' :: t => (offset + 1) :: breaks (offset + 1) t
  | '\n' :: t => (offset + 1) :: breaks (offset + 1) t
  | c :: t => breaks (offset + c.utf8Size) t

def ofText (t : Text) : LineIndex := ⟨0 :: breaks 0 t, t.width⟩

/-- The number of lines; an empty text has one. -/
def lineCount (index : LineIndex) : Nat := index.starts.length

def isEmpty (index : LineIndex) : Bool := index.length == 0

/-- The nearest offset of the text. -/
def clamp (index : LineIndex) (offset : Nat) : Nat := min offset index.length

/-- The place of an offset: the last line that starts at or before it. An offset past the end
has the place of the end. -/
def place (index : LineIndex) (offset : Nat) : Place :=
  let offset := index.clamp offset
  let line := (index.starts.takeWhile (fun start => decide (start ≤ offset))).length - 1
  ⟨line, offset - index.starts.getD line 0⟩

/-- The position of an offset, counted from zero. -/
def position (index : LineIndex) (offset : Nat) : Position := .ofPlace (index.place offset)

/-- The last column of a line that starts at `start`: it may address the line terminator, but never
the next line. -/
def lastColumn (index : LineIndex) (line start : Nat) : Nat :=
  match index.starts[line + 1]? with
  | some next => next - start - 1
  | none => index.length - start

def offset (index : LineIndex) (position : Position) : Except PositionError Nat :=
  let place := position.place
  match index.starts[place.line]? with
  | none => .error (.lineOutOfRange place.line index.lineCount)
  | some start =>
    let max := index.lastColumn place.line start
    if max < place.col then .error (.columnOutOfRange place.line place.col max)
    else .ok (start + place.col)

def region (index : LineIndex) (span : Span) : Region :=
  .between (index.position span.start) (index.position span.stop)

/-- The span of a region, if the text has both of its ends. -/
def span (index : LineIndex) (region : Region) : Except PositionError Span := do
  let start ← index.offset region.start
  let stop ← index.offset region.stop
  return ⟨min start stop, max start stop⟩

/-- Moves the start of a region `count` bytes to the left, but not past the start of the text. A
start that the text does not have counts as its end. -/
def extendLeft (index : LineIndex) (region : Region) (count : Nat) : Region :=
  let start :=
    match index.offset region.start with
    | .ok offset => offset
    | .error _ => index.length
  .between (index.position (start - count)) region.stop

end LineIndex

end ProjectFile
