import ProjectFile.Proofs.Source.LineIndex

/-!
Offsets and positions correspond one to one.

A position is refused for its line, or refused for its column, or it addresses an offset; which of
the three it is can be read off the fences (`LineIndex.finds_offset`). An offset has one place
that addresses it (`LineIndex.Addresses.unique`), so the two conversions undo each other
(`LineIndex.corresponds_ofText`).
-/

namespace ProjectFile.LineIndex

variable {index : LineIndex}

/-! ## One place for each offset -/

/-- No fence is behind the one after the end of the text. -/
theorem Ordered.fence_le (h : index.Ordered) {line fence : Nat}
    (hfence : index.fences[line]? = some fence) : fence ≤ index.length + 1 := by
  have hlast : index.fences[index.starts.length]? = some (index.length + 1) := by
    simp [fences]
  obtain ⟨hline, -⟩ := List.getElem?_eq_some_iff.1 hfence
  refine h.le_of_le ?_ hfence hlast
  simp [fences] at hline
  omega

theorem Addresses.le_length (h : index.Ordered) {p : Place} {offset : Nat}
    (hp : index.Addresses p offset) : offset ≤ index.length := by
  obtain ⟨start, next, -, hnext, -, hlt⟩ := hp
  have hle := h.fence_le hnext
  omega

theorem Addresses.line_lt {p : Place} {offset : Nat} (hp : index.Addresses p offset) :
    p.line < index.lineCount := by
  obtain ⟨start, -, hstart, -⟩ := hp
  obtain ⟨hline, -⟩ := List.getElem?_eq_some_iff.1 hstart
  exact hline

/-- **One place addresses an offset.** The line of another one ends before this line starts, or
starts behind its end. -/
theorem Addresses.unique (h : index.Ordered) {p q : Place} {offset : Nat}
    (hp : index.Addresses p offset) (hq : index.Addresses q offset) : p = q := by
  obtain ⟨start, next, hstart, hnext, hoffset, hlt⟩ := hp
  obtain ⟨start', next', hstart', hnext', hoffset', hlt'⟩ := hq
  have hline : p.line = q.line := by
    rcases Nat.lt_trichotomy p.line q.line with hbefore | hsame | hbehind
    · have hle := h.le_of_le hbefore hnext (getElem?_fences_of_starts hstart')
      omega
    · exact hsame
    · have hle := h.le_of_le hbehind hnext' (getElem?_fences_of_starts hstart)
      omega
  have hcol : p.col = q.col := by
    rw [hline, hstart'] at hstart
    cases hstart
    omega
  rw [Place.mk.injEq]
  exact ⟨hline, hcol⟩

theorem Addresses.eq_place (h : index.Ordered) {p : Place} {offset : Nat}
    (hp : index.Addresses p offset) : index.place offset = p :=
  (addresses_place h (hp.le_length h)).unique h hp

/-! ## What becomes of a position -/

/-- What is found at a position: no such line, no such column in its line, or an offset. -/
inductive Finds (index : LineIndex) (position : Position) : Except PositionError Nat → Prop
  | noLine (h : index.lineCount ≤ position.place.line) :
    Finds index position (.error (.lineOutOfRange position.place.line index.lineCount))
  | noColumn {max : Nat} (hline : position.place.line < index.lineCount)
    (hcol : ∀ offset, ¬ index.Addresses position.place offset) :
    Finds index position (.error (.columnOutOfRange position.place.line position.place.col max))
  | offset {offset : Nat} (h : index.Addresses position.place offset) :
    Finds index position (.ok offset)

/-- The last column of a line is the one in front of the fence behind the line. -/
theorem Ordered.exists_next (h : index.Ordered) {line start : Nat}
    (hstart : index.starts[line]? = some start) :
    ∃ next, index.fences[line + 1]? = some next ∧ start + index.lastColumn line start + 1 = next := by
  obtain ⟨hline, -⟩ := List.getElem?_eq_some_iff.1 hstart
  have hbound : line + 1 < index.fences.length := by
    simp [fences]
    omega
  have hfence : index.fences[line + 1]? = some index.fences[line + 1] :=
    List.getElem?_eq_getElem hbound
  have hlt : start < index.fences[line + 1] := by
    obtain ⟨hline', heq⟩ := List.getElem?_eq_some_iff.1 (getElem?_fences_of_starts hstart)
    have hincreasing := List.pairwise_iff_getElem.1 h.increasing line (line + 1) hline' hbound
    rw [← heq]
    exact hincreasing (Nat.lt_succ_self line)
  refine ⟨_, hfence, ?_⟩
  rw [lastColumn]
  split
  · next next hnext =>
    have hsame := getElem?_fences_of_starts hnext
    rw [hfence, Option.some.injEq] at hsame
    omega
  · next hnone =>
    have hlast : line + 1 = index.starts.length := by
      have hge := List.getElem?_eq_none_iff.1 hnone
      omega
    have hend : index.fences[line + 1] = index.length + 1 := by
      simp [fences, hlast]
    omega

/-- **A position is refused for its line or for its column, or it addresses an offset.** -/
theorem finds_offset (h : index.Ordered) (position : Position) :
    index.Finds position (index.offset position) := by
  rw [LineIndex.offset]
  split
  · next hnone => exact .noLine (List.getElem?_eq_none_iff.1 hnone)
  · next start hstart =>
    obtain ⟨hline, -⟩ := List.getElem?_eq_some_iff.1 hstart
    obtain ⟨next, hnext, hmax⟩ := h.exists_next hstart
    dsimp only
    split
    · next hover =>
      refine .noColumn hline ?_
      intro offset haddresses
      obtain ⟨start', next', hstart', hnext', hoffset, hlt⟩ := haddresses
      rw [hstart, Option.some.injEq] at hstart'
      rw [hnext, Option.some.injEq] at hnext'
      omega
    · next hin => exact .offset ⟨start, next, hstart, hnext, rfl, by omega⟩

/-! ## The correspondence -/

/-- Whether the offsets of a text of some length and the positions that its index accepts correspond
one to one, in order. -/
structure Corresponds (index : LineIndex) (length : Nat) : Prop where
  /-- The offset at the position of an offset is that offset, or the end if it is past the end. -/
  offset_position : ∀ offset, index.offset (index.position offset) = .ok (min offset length)
  /-- A position that is accepted is the position of its offset, however it is numbered. -/
  position_offset : ∀ position offset, index.offset position = .ok offset →
    offset ≤ length ∧ (index.position offset).same position = true
  increasing : ∀ a b, a < b → b ≤ length → (index.position a).place < (index.position b).place
  lineOutOfRange : ∀ position,
    (∃ line count, index.offset position = .error (.lineOutOfRange line count)) ↔
      index.lineCount ≤ position.place.line
  /-- A column is refused if the line is there and no offset of the line has the column. -/
  columnOutOfRange : ∀ position,
    (∃ line col max, index.offset position = .error (.columnOutOfRange line col max)) ↔
      position.place.line < index.lineCount ∧ ¬ ∃ offset ≤ length,
        (index.position offset).place.line = position.place.line ∧
          (index.position offset).place.col = position.place.col
  /-- A span of the text comes back from its region. -/
  span_region : ∀ s : Span, s.start ≤ s.stop → s.stop ≤ length →
    index.span (index.region s) = .ok s

theorem offset_position_eq_ok (h : index.Ordered) (offset : Nat) :
    index.offset (index.position offset) = .ok (min offset index.length) := by
  apply offset_eq_ok h (Nat.min_le_right _ _)
  have hclamp : index.clamp (index.clamp offset) = index.clamp offset :=
    Nat.min_eq_left (Nat.min_le_right _ _)
  show index.place offset = index.place (index.clamp offset)
  simp only [place, hclamp]

theorem Ordered.span_region (h : index.Ordered) {s : Span} (hle : s.start ≤ s.stop)
    (hstop : s.stop ≤ index.length) : index.span (index.region s) = .ok s := by
  have hstart : s.start ≤ index.length := Nat.le_trans hle hstop
  have hregion : index.region s = ⟨index.position s.start, index.position s.stop⟩ := by
    apply if_neg
    rw [← Place.le_iff]
    exact place_le_place h hle hstop
  rw [hregion, span, offset_position_eq_ok h, offset_position_eq_ok h, Nat.min_eq_left hstart,
    Nat.min_eq_left hstop]
  show Except.ok (Span.mk (min s.start s.stop) (max s.start s.stop)) = .ok s
  rw [Nat.min_eq_left hle, Nat.max_eq_right hle]

/-- An offset of the text at the place of a position is what the position addresses. -/
theorem Ordered.addresses_of_place (h : index.Ordered) {position : Position} {offset : Nat}
    (hle : offset ≤ index.length) (hline : (index.position offset).place.line = position.place.line)
    (hcol : (index.position offset).place.col = position.place.col) :
    index.Addresses position.place offset := by
  have hplace : index.place offset = position.place := by
    rw [Place.mk.injEq]
    exact ⟨hline, hcol⟩
  rw [← hplace]
  exact addresses_place h hle

theorem Ordered.corresponds (h : index.Ordered) : index.Corresponds index.length where
  offset_position := offset_position_eq_ok h
  position_offset := by
    intro position offset hoffset
    have hfinds := finds_offset h position
    rw [hoffset] at hfinds
    cases hfinds with
    | offset haddresses =>
      refine ⟨haddresses.le_length h, ?_⟩
      rw [Position.same, decide_eq_true_eq]
      exact haddresses.eq_place h
  increasing := fun a b hab hb => place_lt_place h hab hb
  lineOutOfRange := by
    intro position
    have hfinds := finds_offset h position
    generalize index.offset position = found at hfinds
    cases hfinds with
    | noLine hline => exact ⟨fun _ => hline, fun _ => ⟨_, _, rfl⟩⟩
    | noColumn hline hcol => simpa using hline
    | offset haddresses => simpa using haddresses.line_lt
  columnOutOfRange := by
    intro position
    have hfinds := finds_offset h position
    generalize index.offset position = found at hfinds
    cases hfinds with
    | noLine hline =>
      have hnot : ¬ position.place.line < index.lineCount := Nat.not_lt.2 hline
      simp [hnot]
    | noColumn hline hcol =>
      refine ⟨fun _ => ⟨hline, ?_⟩, fun _ => ⟨_, _, _, rfl⟩⟩
      intro hthere
      obtain ⟨offset, hle, hsame, hcolumn⟩ := hthere
      exact hcol offset (h.addresses_of_place hle hsame hcolumn)
    | @offset offset haddresses =>
      have hplace := haddresses.eq_place h
      have hthere : ∃ offset ≤ index.length,
          (index.position offset).place.line = position.place.line ∧
            (index.position offset).place.col = position.place.col :=
        ⟨offset, haddresses.le_length h, congrArg Place.line hplace, congrArg Place.col hplace⟩
      simp [hthere]
  span_region := fun s => h.span_region

/-- **The offsets of a text and the positions that it has correspond one to one.** -/
theorem corresponds_ofText (t : Text) : (ofText t).Corresponds t.width :=
  (ordered_ofText t).corresponds

/-- A column may address either byte of a terminator, and no further one. -/
example : (ofText "a\r\nb".toList).position 2 = ⟨0, 2, .zeroBased⟩ ∧
    (ofText "a\r\nb".toList).offset ⟨1, 4, .oneBased⟩ = .error (.columnOutOfRange 0 3 2) := by decide

end ProjectFile.LineIndex
