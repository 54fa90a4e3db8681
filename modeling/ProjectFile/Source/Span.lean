/-!
Half-open byte ranges of a text.
-/

namespace ProjectFile

/-- The bytes from `start` up to, not including, `stop`. -/
structure Span where
  start : Nat
  stop : Nat
  deriving DecidableEq, Repr, Inhabited

namespace Span

def ofSize (start size : Nat) : Span := ⟨start, start + size⟩

def empty (offset : Nat) : Span := ⟨offset, offset⟩

def size (s : Span) : Nat := s.stop - s.start

/-- Whether the span holds no byte. -/
def isEmpty (s : Span) : Bool := s.start == s.stop

/-- Whether an offset lies in the span or at one of its ends. -/
def touches (s : Span) (offset : Nat) : Bool := decide (s.start ≤ offset) && decide (offset ≤ s.stop)

theorem touches_iff {s : Span} {offset : Nat} :
    s.touches offset = true ↔ s.start ≤ offset ∧ offset ≤ s.stop := by
  simp [touches]

/-- Whether the byte at an offset belongs to the span. -/
def contains (s : Span) (offset : Nat) : Bool := decide (s.start ≤ offset) && decide (offset < s.stop)

theorem contains_iff {s : Span} {offset : Nat} :
    s.contains offset = true ↔ s.start ≤ offset ∧ offset < s.stop := by
  simp [contains]

/-- The least span that holds both. -/
def join (s t : Span) : Span := ⟨min s.start t.start, max s.stop t.stop⟩

/-- The span moved right by `distance` bytes. -/
def shift (s : Span) (distance : Nat) : Span := ⟨s.start + distance, s.stop + distance⟩

end Span

end ProjectFile
