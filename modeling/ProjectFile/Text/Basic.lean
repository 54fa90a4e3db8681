/-!
Text as a list of characters, measured in UTF-8 bytes. Offsets everywhere in this library count
bytes, so `width` is the length that matters; names are compared without regard to the case of
ASCII letters, through `fold`.
-/

namespace ProjectFile

/-- A piece of text. -/
abbrev Text := List Char

namespace Text

/-- The number of UTF-8 bytes of a text. -/
def width : Text → Nat
  | [] => 0
  | c :: t => c.utf8Size + width t

@[simp] theorem width_nil : width [] = 0 := rfl

@[simp] theorem width_cons (c : Char) (t : Text) : width (c :: t) = c.utf8Size + width t := rfl

@[simp] theorem width_append (s t : Text) : width (s ++ t) = width s + width t := by
  induction s with
  | nil => simp
  | cons c s ih => simp [ih, Nat.add_assoc]

theorem width_eq_zero {t : Text} : width t = 0 ↔ t = [] := by
  cases t with
  | nil => simp
  | cons c t => simp [Nat.pos_iff_ne_zero.1 c.utf8Size_pos]

/-- The text with ASCII capitals written small. -/
def fold (t : Text) : Text := t.map Char.toLower

/-- Equality of names, which ignores the case of ASCII letters. -/
def sameName (s t : Text) : Bool := fold s == fold t

theorem sameName_iff {s t : Text} : sameName s t = true ↔ fold s = fold t := by
  simp [sameName]

/-- Whether a text comes before another or is the same, character by character. -/
def atMost : Text → Text → Bool
  | [], _ => true
  | _ :: _, [] => false
  | c :: s, d :: t => decide (c < d) || (c == d && atMost s t)

/-- The pieces of a text between occurrences of `sep`; never empty. -/
def splitOn (sep : Char) : Text → List Text
  | [] => [[]]
  | c :: t =>
    if c = sep then [] :: splitOn sep t
    else match splitOn sep t with
      | [] => [[c]]
      | p :: ps => (c :: p) :: ps

/-- The number of characters up to and including the first occurrence of `stop`; all of them if
there is none. -/
def lengthThrough (stop : Text) : Text → Nat
  | [] => 0
  | c :: t => if stop.isPrefixOf (c :: t) then stop.length else lengthThrough stop t + 1

/-- The number of characters in front that satisfy `p`. -/
def lengthWhile (p : Char → Bool) : Text → Nat
  | [] => 0
  | c :: t => if p c then lengthWhile p t + 1 else 0

/-- The text before the first occurrence of `stop` and the text after it, if it occurs. -/
def cutAt (stop : Char) : Text → Option (Text × Text)
  | [] => none
  | c :: t =>
    if c = stop then some ([], t)
    else (cutAt stop t).map fun parts => (c :: parts.1, parts.2)

/-- The characters that lie wholly between the byte offsets `start` and `stop`. -/
def slice (t : Text) (start stop : Nat) : Text :=
  go 0 t
where
  /-- Walks the text with the offset of its next character. -/
  go (offset : Nat) : Text → Text
    | [] => []
    | c :: t =>
      if start ≤ offset ∧ offset + c.utf8Size ≤ stop then c :: go (offset + c.utf8Size) t
      else go (offset + c.utf8Size) t

/-- Reads a text of characters back into a string. -/
def toString (t : Text) : String := String.ofList t

end Text

end ProjectFile
