import ProjectFile.Proofs.Source.Positions

/-!
Regions whose start is moved to the left.

A start that the text has is moved by so many bytes, and the region keeps its end. A start that the
text does not have counts as the end of the text. That is no move to the left if the start has a line,
but a column behind the end of the line, and the end of the text is moved to behind that: then the
start comes to stand further right, and if the region has ended by there, its ends change places. So
the region extends to the left exactly if the text has its start or the end of the text is moved to a
place that is not behind it (`LineIndex.extension_ofText`), and always if the start is not in front of
the last line.
-/

namespace ProjectFile

theorem Place.le_trans {a b c : Place} (hab : a ≤ b) (hbc : b ≤ c) : a ≤ c := by
  rw [Place.le_iff, Place.lt_iff] at *
  omega

namespace Region

/-- Two positions that are in order are the ends of their region. -/
theorem between_of_le {a b : Position} (h : a.place ≤ b.place) : between a b = ⟨a, b⟩ := if_neg h

/-- Whether a region is another one with the start moved to the left, or not moved. -/
structure Extends (wide region : Region) : Prop where
  stop : wide.stop.same region.stop = true
  start : wide.start.place ≤ region.start.place

/-- A new start extends a region exactly if it is not behind the old one. If it is behind the end too,
the two change places, and the region does not end where it did. -/
theorem extends_between_iff {region : Region} (hregion : region.start.place ≤ region.stop.place)
    (start : Position) :
    (between start region.stop).Extends region ↔ start.place ≤ region.start.place := by
  constructor
  · intro h
    by_cases horder : start.place ≤ region.stop.place
    · have hstart := h.start
      rwa [between_of_le horder] at hstart
    · have hswap : region.stop.place < start.place := Classical.not_not.1 horder
      have hstop := h.stop
      rw [between, if_pos hswap] at hstop
      have hsame : start.place = region.stop.place := of_decide_eq_true hstop
      rw [Place.lt_iff, hsame] at hswap
      omega
  · intro hstart
    rw [between_of_le (Place.le_trans hstart hregion)]
    exact ⟨decide_eq_true rfl, hstart⟩

end Region

namespace LineIndex

/-- What becomes of a region when its start is moved to the left by some bytes. -/
structure Extension (index : LineIndex) (region : Region) (count : Nat) : Prop where
  /-- The start that is at an offset goes as many bytes before it, or to the start of the text. -/
  of_offset : ∀ offset, index.offset region.start = .ok offset →
    index.extendLeft region count = ⟨index.position (offset - count), region.stop⟩
  /-- The region extends to the left exactly if the text has its start, or the place that the end of the
  text is moved to is not behind it. -/
  extends_iff : (index.extendLeft region count).Extends region ↔
    (∃ offset, index.offset region.start = .ok offset) ∨
      (index.position (index.length - count)).place ≤ region.start.place
  /-- That is so if the start is on the last line or further down, in whatever column. -/
  of_lastLine : index.lineCount ≤ region.start.place.line + 1 →
    (index.extendLeft region count).Extends region

variable {index : LineIndex}

/-- What is found at a position is not in front of what is so many bytes before it. -/
theorem Ordered.position_sub_le (h : index.Ordered) {position : Position} {offset : Nat}
    (hoffset : index.offset position = .ok offset) (count : Nat) :
    (index.position (offset - count)).place ≤ position.place := by
  obtain ⟨hle, hsame⟩ := h.corresponds.position_offset position offset hoffset
  have hplace : index.place offset = position.place := of_decide_eq_true hsame
  rw [← hplace]
  exact place_le_place h (Nat.sub_le offset count) hle

/-- No offset is behind a position that the text does not have on its last line or further down. -/
theorem Ordered.place_le_of_lastLine (h : index.Ordered) {position : Position} {error : PositionError}
    (herror : index.offset position = .error error)
    (hline : index.lineCount ≤ position.place.line + 1) {offset : Nat} (hle : offset ≤ index.length) :
    index.place offset ≤ position.place := by
  have haddresses := addresses_place h hle
  have hbound := haddresses.line_lt
  rw [Place.le_iff, Place.lt_iff]
  rintro (hbehind | ⟨hsame, hcol⟩)
  · omega
  · -- The line has the column of the offset, so it would have the lower one of the position.
    obtain ⟨start, next, hstart, hnext, hat, hlt⟩ := haddresses
    rw [← hsame] at hstart hnext
    have hthere : index.Addresses position.place (start + position.place.col) :=
      ⟨start, next, hstart, hnext, rfl, by omega⟩
    rw [hthere.offset_eq_ok] at herror
    cases herror

theorem Ordered.extends_iff (h : index.Ordered) {region : Region}
    (hregion : region.start.place ≤ region.stop.place) (count : Nat) :
    (index.extendLeft region count).Extends region ↔
      (∃ offset, index.offset region.start = .ok offset) ∨
        (index.position (index.length - count)).place ≤ region.start.place := by
  rw [extendLeft, Region.extends_between_iff hregion]
  cases hfound : index.offset region.start with
  | ok offset =>
    have hle := h.position_sub_le hfound count
    exact ⟨fun _ => .inl ⟨offset, rfl⟩, fun _ => hle⟩
  | error error =>
    constructor
    · exact .inr
    · rintro (⟨offset, hnone⟩ | hle)
      · cases hnone
      · exact hle

/-- **A region extends to the left exactly if the text has its start, or the end of the text is moved to
a place that is not behind the start.** -/
theorem extension_ofText (t : Text) (a b : Position) (count : Nat) :
    (ofText t).Extension (.between a b) count := by
  have h := ordered_ofText t
  have hregion := Region.between_ordered a b
  refine ⟨fun offset hoffset => ?_, h.extends_iff hregion count, fun hline => ?_⟩
  · have hle := h.position_sub_le hoffset count
    rw [extendLeft, hoffset]
    exact Region.between_of_le (Place.le_trans hle hregion)
  · refine (h.extends_iff hregion count).2 ?_
    cases hfound : (ofText t).offset (Region.between a b).start with
    | ok offset => exact .inl ⟨offset, rfl⟩
    | error error => exact .inr (h.place_le_of_lastLine hfound hline (Nat.sub_le _ _))

/-- Moved by four bytes, the end of a text of five is in front of a column that the first line does not
have. -/
example : (ofText "ab\ncd".toList).extendLeft ⟨⟨0, 5, .zeroBased⟩, ⟨0, 7, .zeroBased⟩⟩ 4 =
    ⟨⟨0, 1, .zeroBased⟩, ⟨0, 7, .zeroBased⟩⟩ := by decide

/-- **The end of a region can be moved, and to the right.** The start is in a column that the first line
does not have, so it goes to the end of the text, which is behind the region. -/
theorem extendLeft_moves_stop : ¬ ∀ (t : Text) (a b : Position) (count : Nat),
    ((ofText t).extendLeft (.between a b) count).Extends (.between a b) := by
  intro hall
  have hextends := hall "ab\ncd".toList ⟨0, 5, .zeroBased⟩ ⟨0, 7, .zeroBased⟩ 0
  have hmoved : ((ofText "ab\ncd".toList).extendLeft
      (.between ⟨0, 5, .zeroBased⟩ ⟨0, 7, .zeroBased⟩) 0).stop.same
        (Region.between ⟨0, 5, .zeroBased⟩ ⟨0, 7, .zeroBased⟩).stop = false := by decide
  rw [hextends.stop] at hmoved
  cases hmoved

end LineIndex

end ProjectFile
