import ProjectFile.Proofs.Source.Positions
import ProjectFile.Proofs.Text.Cuts

/-!
Lines that end in a part of a text.

The line index finds the ends of lines in one scan (`breaks`). A line ends wherever a line feed stands
in front, or a carriage return that no line feed follows (`mem_breaks_iff`). So a part of a text goes on
to another line exactly if it has a line feed or a carriage return in it (`line_lt_line_iff_hasBreak`),
unless it stops between the carriage return and the line feed of one terminator.
-/

namespace ProjectFile

/-- Whether a text has a line feed or a carriage return in it. -/
def Text.hasBreak (t : Text) : Bool := t.any fun c => c == '\r' || c == '\n'

/-- Whether a line ends between two parts of a text. -/
def Text.BreaksBetween (front back : Text) : Prop :=
  front.getLast? = some '\n' ∨ front.getLast? = some '\r' ∧ back.head? ≠ some '\n'

/-- Whether two parts of a text divide a terminator. -/
def Text.Divides (front back : Text) : Prop :=
  front.getLast? = some '\r' ∧ back.head? = some '\n'

namespace Text

theorem not_breaksBetween_nil (back : Text) : ¬ BreaksBetween [] back := by
  simp [BreaksBetween]

/-- What is in front of the last character does not matter. -/
theorem breaksBetween_append {front : Text} (h : front ≠ []) (before back : Text) :
    BreaksBetween (before ++ front) back ↔ BreaksBetween front back := by
  rw [BreaksBetween, BreaksBetween, List.getLast?_append_of_ne_nil _ h]

/-- A line that ends behind a part of a text ends it with a line feed or a carriage return. -/
theorem BreaksBetween.exists_last {front back : Text} (h : BreaksBetween front back) :
    ∃ c ∈ front.getLast?, c = '\r' ∨ c = '\n' := by
  rcases h with h | ⟨h, -⟩
  · exact ⟨'\n', h, .inr rfl⟩
  · exact ⟨'\r', h, .inl rfl⟩

end Text

namespace LineIndex

open Text

/-- Whether a line of a text that stands at `offset` ends in front of another offset. -/
def BreakAt (offset : Nat) (t : Text) (s : Nat) : Prop :=
  ∃ front back, t = front ++ back ∧ s = offset + front.width ∧ BreaksBetween front back

theorem not_breakAt_nil (offset s : Nat) : ¬ BreakAt offset [] s := by
  rintro ⟨front, back, h, -, hbreaks⟩
  rw [(List.append_eq_nil_iff.1 h.symm).1] at hbreaks
  exact not_breaksBetween_nil back hbreaks

/-- A line ends behind the first character, or further on. -/
theorem breakAt_cons {offset : Nat} {c : Char} {t : Text} {s : Nat} :
    BreakAt offset (c :: t) s ↔
      s = offset + c.utf8Size ∧ BreaksBetween [c] t ∨ BreakAt (offset + c.utf8Size) t s := by
  constructor
  · rintro ⟨front, back, h, hs, hbreaks⟩
    cases front with
    | nil => exact absurd hbreaks (not_breaksBetween_nil back)
    | cons d front =>
      rw [List.cons_append, List.cons.injEq] at h
      obtain ⟨rfl, rfl⟩ := h
      rw [Text.width_cons, ← Nat.add_assoc] at hs
      by_cases hfront : front = []
      · subst hfront
        exact .inl ⟨hs, hbreaks⟩
      · exact .inr ⟨front, back, rfl, hs, (breaksBetween_append hfront [c] back).1 hbreaks⟩
  · rintro (⟨rfl, hbreaks⟩ | ⟨front, back, rfl, rfl, hbreaks⟩)
    · exact ⟨[c], t, rfl, rfl, hbreaks⟩
    · have hfront : front ≠ [] := fun h => not_breaksBetween_nil back (h ▸ hbreaks)
      refine ⟨c :: front, back, rfl, ?_, (breaksBetween_append hfront [c] back).2 hbreaks⟩
      rw [Text.width_cons, Nat.add_assoc]

/-- **The scan finds every end of a line, and nothing else.** -/
theorem mem_breaks_iff {offset : Nat} {t : Text} {s : Nat} :
    s ∈ breaks offset t ↔ BreakAt offset t s := by
  have hr : ('\r').utf8Size = 1 := rfl
  have hn : ('\n').utf8Size = 1 := rfl
  induction offset, t using breaks.induct with
  | case1 offset => simp [breaks, not_breakAt_nil]
  | case2 offset t ih =>
    simp only [breaks, breakAt_cons, List.mem_cons, ih, hr, hn]
    simp [BreaksBetween]
  | case3 offset t hnot ih =>
    have hhead : t.head? ≠ some '\n' := by
      intro h
      obtain ⟨rest, hrest⟩ := List.head?_eq_some_iff.1 h
      exact hnot rest hrest
    simp only [breaks.eq_3 _ _ hnot, breakAt_cons, List.mem_cons, ih, hr]
    simp [BreaksBetween, hhead]
  | case4 offset t ih =>
    simp only [breaks, breakAt_cons, List.mem_cons, ih, hn]
    simp [BreaksBetween]
  | case5 offset c t hcrlf hcr hlf ih =>
    have hlast : ¬ BreaksBetween [c] t := by
      rintro (h | ⟨h, -⟩)
      · exact hlf (Option.some.inj h)
      · exact hcr (Option.some.inj h)
    simp only [breaks.eq_5 _ _ _ hcrlf hcr hlf, breakAt_cons, ih, hlast, and_false, false_or]

/-! ## Lines -/

variable {index : LineIndex}

/-- **An offset is on a later line than another one exactly if a line starts between them**, at the
latest at that offset. -/
theorem line_lt_line_iff (h : index.Ordered) {a b : Nat} (hab : a ≤ b) (hb : b ≤ index.length) :
    (index.place a).line < (index.place b).line ↔ ∃ s ∈ index.starts, a < s ∧ s ≤ b := by
  obtain ⟨start, next, hstart, hnext, hcol, hlt⟩ := addresses_place h (Nat.le_trans hab hb)
  obtain ⟨start', next', hstart', hnext', hcol', hlt'⟩ := addresses_place h hb
  constructor
  · intro hline
    refine ⟨start', List.mem_of_getElem? hstart', ?_, by omega⟩
    have hle := h.le_of_le hline hnext (getElem?_fences_of_starts hstart')
    omega
  · rintro ⟨s, hs, has, hsb⟩
    obtain ⟨i, hi, rfl⟩ := List.mem_iff_getElem.1 hs
    have hfence := getElem?_fences_of_starts (List.getElem?_eq_getElem hi)
    have hbefore : (index.place a).line < i := by
      by_contra hnot
      have hle := h.le_of_le (Nat.le_of_not_lt hnot) hfence (getElem?_fences_of_starts hstart)
      omega
    have hbehind : i < (index.place b).line + 1 := by
      by_contra hnot
      have hle := h.le_of_le (Nat.le_of_not_lt hnot) hnext' hfence
      omega
    omega

/-- The first line starts where the text does, and every other one where one has ended. -/
theorem mem_starts_ofText {t : Text} {s : Nat} :
    s ∈ (ofText t).starts ↔ s = 0 ∨ BreakAt 0 t s := by
  rw [ofText, List.mem_cons, mem_breaks_iff]

/-- Two ways to cut a text: where the first front is the shorter one, the second goes on behind it. -/
theorem exists_of_width_le {a b c d : Text} (h : a ++ b = c ++ d) (hwidth : a.width ≤ c.width) :
    ∃ part, c = a ++ part ∧ b = part ++ d := by
  rcases List.append_eq_append_iff.1 h with hcut | ⟨part, rfl, rfl⟩
  · exact hcut
  · have hzero : Text.width part = 0 := by
      rw [Text.width_append] at hwidth
      omega
    obtain rfl := Text.width_eq_zero.1 hzero
    exact ⟨[], by simp, by simp⟩

/-- **A line ends in a part of a text, or at its end, exactly if there is a line feed or a carriage
return in it.** -/
theorem exists_breakAt_iff {before w behind : Text} (hwhole : ¬ Divides w behind) :
    (∃ s, BreakAt 0 (before ++ (w ++ behind)) s ∧ before.width < s ∧ s ≤ before.width + w.width) ↔
      w.hasBreak = true := by
  rw [hasBreak, List.any_eq_true]
  constructor
  · rintro ⟨s, ⟨front, back, hsplit, rfl, hbreaks⟩, hlt, hle⟩
    rw [Nat.zero_add] at hlt hle
    -- The line ends behind a front of the part, and that front is not empty.
    obtain ⟨part, rfl, hpart⟩ := exists_of_width_le hsplit (Nat.le_of_lt hlt)
    rw [Text.width_append] at hlt hle
    have hne : part ≠ [] := fun h => by simp [h] at hlt
    obtain ⟨rest, rfl, -⟩ := exists_of_width_le hpart.symm (by omega)
    obtain ⟨c, hc, hbreak⟩ := ((breaksBetween_append hne before back).1 hbreaks).exists_last
    refine ⟨c, List.mem_append_left _ (List.mem_of_getLast? hc), ?_⟩
    rcases hbreak with rfl | rfl <;> rfl
  · rintro ⟨c, hc, hbreak⟩
    obtain ⟨front, rest, rfl⟩ := List.append_of_mem hc
    have hpos := c.utf8Size_pos
    -- Behind a carriage return the line ends at once, or behind the line feed that follows.
    by_cases hlf : c = '\r' ∧ (rest ++ behind).head? = some '\n'
    · obtain ⟨rfl, hhead⟩ := hlf
      cases rest with
      | nil => exact absurd ⟨by simp, hhead⟩ hwhole
      | cons d rest =>
        obtain rfl : d = '\n' := Option.some.inj hhead
        refine ⟨_, ⟨before ++ front ++ ['\r', '\n'], rest ++ behind, by simp, rfl, ?_⟩, ?_, ?_⟩
        · exact (breaksBetween_append (by simp) _ _).2 (.inl rfl)
        · simp only [Text.width_append, Text.width_cons]
          omega
        · simp only [Text.width_append, Text.width_cons, Text.width_nil]
          omega
    · refine ⟨_, ⟨before ++ front ++ [c], rest ++ behind, by simp, rfl, ?_⟩, ?_, ?_⟩
      · refine (breaksBetween_append (by simp) _ _).2 ?_
        rw [Bool.or_eq_true, beq_iff_eq, beq_iff_eq] at hbreak
        rcases hbreak with rfl | rfl
        · exact .inr ⟨rfl, fun h => hlf ⟨rfl, h⟩⟩
        · exact .inl rfl
      · simp only [Text.width_append, Text.width_cons]
        omega
      · simp only [Text.width_append, Text.width_cons, Text.width_nil]
        omega

/-- **A part of a text goes on to another line exactly if it has a line feed or a carriage return in
it**, as long as its end divides no terminator. -/
theorem line_lt_line_iff_hasBreak {before w behind : Text} (hwhole : ¬ Divides w behind) :
    let index := ofText (before ++ (w ++ behind))
    (index.place before.width).line < (index.place (before.width + w.width)).line ↔
      w.hasBreak = true := by
  intro index
  have hlength : before.width + w.width ≤ index.length := by
    show _ ≤ Text.width _
    rw [Text.width_append, Text.width_append]
    omega
  rw [line_lt_line_iff (ordered_ofText _) (Nat.le_add_right _ _) hlength, ← exists_breakAt_iff hwhole]
  refine exists_congr fun s => ?_
  rw [mem_starts_ofText]
  constructor
  · rintro ⟨rfl | hbreak, hlt, hle⟩
    · omega
    · exact ⟨hbreak, hlt, hle⟩
  · exact fun ⟨hbreak, hlt, hle⟩ => ⟨.inr hbreak, hlt, hle⟩

/-- The end of the middle line divides its terminator, and the next line is not reached. -/
example : Text.hasBreak "b\r".toList = true ∧
    ((ofText "a\nb\r\nc".toList).place 2).line = ((ofText "a\nb\r\nc".toList).place 4).line := by decide

end LineIndex

end ProjectFile
