import ProjectFile.Text.Basic

/-!
Classes of characters. *Blank* is the Unicode property `White_Space`, which decides what trimming
removes; *markup space* is the four characters that separate things in a tag; *control* is the
Unicode category `Cc`.
-/

namespace ProjectFile.Text

/-- Whether `n` lies in one of the closed ranges. -/
def inRanges (ranges : List (Nat × Nat)) (n : Nat) : Bool :=
  ranges.any fun r => decide (r.1 ≤ n) && decide (n ≤ r.2)

theorem inRanges_iff {ranges : List (Nat × Nat)} {n : Nat} :
    inRanges ranges n = true ↔ ∃ r ∈ ranges, r.1 ≤ n ∧ n ≤ r.2 := by
  simp [inRanges]

/-- The ranges of the property `White_Space`. -/
def blankRanges : List (Nat × Nat) :=
  [(0x9, 0xd), (0x20, 0x20), (0x85, 0x85), (0xa0, 0xa0), (0x1680, 0x1680), (0x2000, 0x200a),
   (0x2028, 0x2029), (0x202f, 0x202f), (0x205f, 0x205f), (0x3000, 0x3000)]

/-- The ranges of the category `Cc`. -/
def controlRanges : List (Nat × Nat) := [(0x0, 0x1f), (0x7f, 0x9f)]

/-- Whether `c` has the property `White_Space`. -/
def isBlank (c : Char) : Bool := inRanges blankRanges c.toNat

/-- Whether `c` is a control character. -/
def isControl (c : Char) : Bool := inRanges controlRanges c.toNat

/-- Whether `c` separates things in markup: a space, a tab, a carriage return or a line feed. -/
def isMarkupSpace (c : Char) : Bool := c == ' ' || c == '\t' || c == '\r' || c == '\n'

/-- Whether `t` holds nothing but markup space. -/
def isMarkupBlank (t : Text) : Bool := t.all isMarkupSpace

/-- The text without the blanks in front. -/
def trimStart (t : Text) : Text := t.dropWhile isBlank

/-- The text without the blanks at its end. -/
def trimEnd (t : Text) : Text := (t.reverse.dropWhile isBlank).reverse

/-- The text without the blanks at both ends. -/
def trim (t : Text) : Text := trimEnd (trimStart t)

end ProjectFile.Text
