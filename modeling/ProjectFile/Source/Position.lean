/-!
Positions by line and column. Editors number lines and columns from zero and evaluation engines
usually from one; a `Position` keeps the numbering it was given in, and every comparison goes
through its `place`, which counts from zero.
-/

namespace ProjectFile

/-- A line and a column in bytes, both counted from zero. -/
structure Place where
  line : Nat
  col : Nat
  deriving DecidableEq, Repr

namespace Place

/-- Earlier in the text: on an earlier line, or before on the same line. -/
protected def lt (a b : Place) : Prop := a.line < b.line ∨ (a.line = b.line ∧ a.col < b.col)

instance : LT Place := ⟨Place.lt⟩

instance : LE Place := ⟨fun a b => ¬ b < a⟩

instance (a b : Place) : Decidable (a < b) :=
  inferInstanceAs (Decidable (a.line < b.line ∨ (a.line = b.line ∧ a.col < b.col)))

instance (a b : Place) : Decidable (a ≤ b) := inferInstanceAs (Decidable (¬ b < a))

theorem lt_iff {a b : Place} : a < b ↔ a.line < b.line ∨ (a.line = b.line ∧ a.col < b.col) := Iff.rfl

theorem le_iff {a b : Place} : a ≤ b ↔ ¬ b < a := Iff.rfl

/-- How two places stand in the text. -/
def order (a b : Place) : Ordering := if a < b then .lt else if b < a then .gt else .eq

/-- The text form, in which lines and columns count from one. -/
def text (p : Place) : String := toString (p.line + 1) ++ ":" ++ toString (p.col + 1)

end Place

/-- Where the lines and columns of a position are counted from. -/
inductive Numbering where
  | zeroBased
  | oneBased
  deriving DecidableEq, Repr

/-- A line and a column in the caller's numbering. -/
structure Position where
  line : Nat
  column : Nat
  numbering : Numbering
  deriving DecidableEq, Repr

namespace Position

/-- The position counted from zero; a line or column zero counted from one reads as the first. -/
def place (p : Position) : Place :=
  match p.numbering with
  | .zeroBased => ⟨p.line, p.column⟩
  | .oneBased => ⟨p.line - 1, p.column - 1⟩

/-- The position of a place, counted from zero. -/
def ofPlace (p : Place) : Position := ⟨p.line, p.col, .zeroBased⟩

/-- The same position counted from zero. -/
def toZeroBased (p : Position) : Position := ofPlace p.place

/-- The same position counted from one. -/
def toOneBased (p : Position) : Position := ⟨p.place.line + 1, p.place.col + 1, .oneBased⟩

/-- Whether two positions are the same place. -/
def same (a b : Position) : Bool := decide (a.place = b.place)

/-- The text form, in which lines and columns count from one. -/
def text (p : Position) : String := p.place.text

end Position

/-- A half-open range of positions. -/
structure Region where
  start : Position
  stop : Position
  deriving DecidableEq, Repr

namespace Region

/-- The region between two positions, given in either order. -/
def between (a b : Position) : Region :=
  if b.place < a.place then ⟨b, a⟩ else ⟨a, b⟩

def empty (p : Position) : Region := ⟨p, p⟩

def contains (r : Region) (p : Position) : Bool :=
  decide (r.start.place ≤ p.place) && decide (p.place < r.stop.place)

def isEmpty (r : Region) : Bool := r.start.same r.stop

/-- The text form: both ends, joined by a dash. -/
def text (r : Region) : String := r.start.text ++ "-" ++ r.stop.text

theorem between_ordered (a b : Position) : (between a b).start.place ≤ (between a b).stop.place := by
  unfold between
  split
  · next h =>
    show b.place ≤ a.place
    rw [Place.le_iff, Place.lt_iff]
    rw [Place.lt_iff] at h
    omega
  · next h => exact h

end Region

/-- Why a position addresses no character of a text. -/
inductive PositionError where
  | lineOutOfRange (line count : Nat)
  | columnOutOfRange (line col max : Nat)
  deriving DecidableEq, Repr

def PositionError.message : PositionError → String
  | .lineOutOfRange line count =>
    "line " ++ toString line ++ " is out of range (document has " ++ toString count ++ " lines)"
  | .columnOutOfRange line col max =>
    "column " ++ toString col ++ " is out of range for line " ++ toString line ++
      " (max " ++ toString max ++ ")"

end ProjectFile
