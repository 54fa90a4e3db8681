import ProjectFile.Proofs.Text.Offset
import ProjectFile.Source.Span

/-!
Spans of a text.

A span may lie in another (`Span.Within`). A span that starts and stops between whole characters of a text cuts a part out of it (`Span.Cuts`),
and covers the part that stands there (`Span.Covers`); spans side by side cover one part behind the
other (`Span.Covers.append`).
-/

namespace ProjectFile

/-- Whether an offset has only whole characters of the text before it. -/
def Text.IsBoundary (t : Text) (offset : Nat) : Prop := ∃ front, front <+: t ∧ width front = offset

/-- Whether spans follow one another and together are the span `s`. -/
def Span.TiledBy (s : Span) : List Span → Prop
  | [] => s.start = s.stop
  | c :: cs => c.start = s.start ∧ c.start ≤ c.stop ∧ TiledBy ⟨c.stop, s.stop⟩ cs

/-- Whether a span covers a part of a text that starts at `offset`. -/
def Span.Cuts (t : Text) (offset : Nat) (s : Span) : Prop :=
  ∃ front part back, t = front ++ (part ++ back) ∧ s.start = offset + front.width ∧
    s.stop = offset + front.width + part.width

namespace Span

/-! ## Spans in one another -/

/-- Whether a span lies in another. -/
def Within (s around : Span) : Prop := around.start ≤ s.start ∧ s.stop ≤ around.stop

instance (s around : Span) : Decidable (s.Within around) := inferInstanceAs (Decidable (_ ∧ _))

theorem Within.refl (s : Span) : s.Within s := ⟨Nat.le_refl _, Nat.le_refl _⟩

theorem Within.trans {s t u : Span} (h : s.Within t) (h' : t.Within u) : s.Within u :=
  ⟨Nat.le_trans h'.1 h.1, Nat.le_trans h.2 h'.2⟩

theorem Within.antisymm {s t : Span} (h : s.Within t) (h' : t.Within s) : s = t := by
  obtain ⟨start, stop⟩ := s
  obtain ⟨start', stop'⟩ := t
  have hstart : start = start' := Nat.le_antisymm h'.1 h.1
  have hstop : stop = stop' := Nat.le_antisymm h.2 h'.2
  rw [hstart, hstop]

/-! ## Spans of a text -/

/-- Of spans in order the first starts and the last stops where their union does. -/
theorem join_eq {s r : Span} (hstart : s.start ≤ r.start) (hstop : s.stop ≤ r.stop) :
    s.join r = ⟨s.start, r.stop⟩ := by
  rw [join, Nat.min_eq_left hstart, Nat.max_eq_right hstop]

/-- The last of the spans that tile one stops where it stops, and starts behind its start. -/
theorem TiledBy.getLast {s c : Span} {cs : List Span} (h : s.TiledBy (c :: cs)) :
    s.start ≤ (cs.getLast?.getD c).start ∧ c.stop ≤ (cs.getLast?.getD c).stop ∧
      (cs.getLast?.getD c).stop = s.stop := by
  induction cs generalizing s c with
  | nil =>
    obtain ⟨hstart, -, hstop⟩ := h
    exact ⟨Nat.le_of_eq hstart.symm, Nat.le_refl _, hstop⟩
  | cons d ds ih =>
    obtain ⟨hstart, hle, hrest⟩ := h
    obtain ⟨hlast, hd, hstop⟩ := ih hrest
    obtain ⟨hdstart, hdle, -⟩ := hrest
    rw [List.getLast?_cons, Option.getD_some]
    dsimp only at hlast hstop hdstart
    exact ⟨by omega, by omega, hstop⟩

/-- The first and the last of the spans that tile one span it. -/
theorem TiledBy.join_getLast {s c : Span} {cs : List Span} (h : s.TiledBy (c :: cs)) :
    c.join (cs.getLast?.getD c) = s := by
  obtain ⟨hstart, hle, hstop⟩ := h.getLast
  rw [← h.1] at hstart
  rw [join_eq hstart hle, h.1, hstop]

theorem Cuts.append_left {s : Span} {t : Text} {offset : Nat} (front : Text)
    (h : s.Cuts t (offset + front.width)) : s.Cuts (front ++ t) offset := by
  obtain ⟨a, b, c, rfl, hstart, hstop⟩ := h
  refine ⟨front ++ a, b, c, by simp, ?_, ?_⟩
  · rw [hstart, Text.width_append, Nat.add_assoc]
  · rw [hstop, Text.width_append, ← Nat.add_assoc]

theorem Cuts.append_right {s : Span} {t : Text} {offset : Nat} (h : s.Cuts t offset) (back : Text) :
    s.Cuts (t ++ back) offset := by
  obtain ⟨a, b, c, rfl, hstart, hstop⟩ := h
  exact ⟨a, b, c ++ back, by simp, hstart, hstop⟩

theorem cuts_ofSize (t : Text) (offset : Nat) : (ofSize offset t.width).Cuts t offset :=
  ⟨[], t, [], by simp, by simp [ofSize], by simp [ofSize]⟩

theorem cuts_empty (t : Text) (offset : Nat) : (empty offset).Cuts t offset :=
  ⟨[], [], t, rfl, by simp [empty], by simp [empty]⟩

theorem cuts_empty_stop (t : Text) (offset : Nat) : (empty (offset + t.width)).Cuts t offset :=
  ⟨t, [], [], by simp, by simp [empty], by simp [empty]⟩

/-- A part of a text starts before it stops, inside the text, between whole characters. -/
theorem Cuts.isBoundary {s : Span} {t : Text} (h : s.Cuts t 0) :
    s.start ≤ s.stop ∧ s.stop ≤ t.width ∧ t.IsBoundary s.start ∧ t.IsBoundary s.stop := by
  obtain ⟨a, b, c, rfl, hstart, hstop⟩ := h
  rw [Nat.zero_add] at hstart hstop
  refine ⟨by omega, ?_, ⟨a, List.prefix_append _ _, hstart.symm⟩, a ++ b, ?_, ?_⟩
  · rw [hstop, Text.width_append, Text.width_append]
    omega
  · rw [← List.append_assoc]
    exact List.prefix_append _ _
  · rw [hstop, Text.width_append]

/-- Between two offsets that have whole characters before them there is a part of the text. -/
theorem cuts_of_isBoundary {t : Text} {start stop : Nat} (hstart : t.IsBoundary start)
    (hstop : t.IsBoundary stop) (hle : start ≤ stop) : Span.Cuts t 0 ⟨start, stop⟩ := by
  obtain ⟨a, ha, rfl⟩ := hstart
  obtain ⟨b, hb, rfl⟩ := hstop
  have hab : a <+: b := by
    rcases List.prefix_or_prefix_of_prefix ha hb with h | ⟨c, rfl⟩
    · exact h
    · rw [Text.width_append] at hle
      have hc : c = [] := Text.width_eq_zero.1 (by omega)
      simp [hc]
  obtain ⟨c, rfl⟩ := hab
  obtain ⟨d, rfl⟩ := hb
  exact ⟨a, c, d, List.append_assoc _ _ _, (Nat.zero_add _).symm, by rw [Text.width_append, Nat.zero_add]⟩

/-- Whether a span of a text covers the part `w`. -/
def Covers (s : Span) (t w : Text) : Prop :=
  ∃ front back, t = front ++ (w ++ back) ∧ s.start = front.width ∧ s.stop = front.width + w.width

theorem covers_whole (t : Text) : Covers ⟨0, t.width⟩ t t :=
  ⟨[], [], by simp, rfl, by simp⟩

theorem covers_empty {t : Text} {offset : Nat} (h : t.IsBoundary offset) : (empty offset).Covers t [] := by
  obtain ⟨front, ⟨back, rfl⟩, rfl⟩ := h
  exact ⟨front, back, rfl, rfl, rfl⟩

namespace Covers

variable {s : Span} {t v w : Text}

theorem cuts (h : s.Covers t w) : s.Cuts t 0 := by
  obtain ⟨a, b, rfl, hstart, hstop⟩ := h
  exact ⟨a, w, b, rfl, by rw [hstart, Nat.zero_add], by rw [hstop, Nat.zero_add]⟩

/-- The part that a span covers is what stands between its ends. -/
theorem slice_eq (h : s.Covers t w) : t.slice s.start s.stop = w := by
  obtain ⟨a, b, rfl, hstart, hstop⟩ := h
  rw [hstart, hstop]
  exact Text.slice_append a w b

theorem stop_eq (h : s.Covers t w) : s.stop = s.start + w.width := by
  obtain ⟨a, b, -, hstart, hstop⟩ := h
  rw [hstart, hstop]

/-- Spans side by side cover one part behind the other. -/
theorem append {a b c : Nat} (hv : Covers ⟨a, b⟩ t v) (hw : Covers ⟨b, c⟩ t w) :
    Covers ⟨a, c⟩ t (v ++ w) := by
  obtain ⟨front, back, rfl, hstart, hstop⟩ := hv
  obtain ⟨front', back', htext, hstart', hstop'⟩ := hw
  dsimp only at hstart hstop hstart' hstop'
  have hwidth : Text.width (front ++ v) = front'.width := by
    rw [Text.width_append, ← hstop, hstart']
  rw [← List.append_assoc] at htext
  obtain ⟨rfl, rfl⟩ := Text.append_inj_of_width htext hwidth
  refine ⟨front, back', by simp, hstart, ?_⟩
  rw [hstop', Text.width_append, Text.width_append, Nat.add_assoc]

/-- A part falls into parts side by side. -/
theorem split (h : s.Covers t (v ++ w)) :
    Covers ⟨s.start, s.start + v.width⟩ t v ∧ Covers ⟨s.start + v.width, s.stop⟩ t w := by
  obtain ⟨front, back, rfl, hstart, hstop⟩ := h
  refine ⟨⟨front, w ++ back, by simp, hstart, by rw [hstart]⟩, front ++ v, back, by simp, ?_, ?_⟩
  · rw [hstart, Text.width_append]
  · rw [hstop, Text.width_append, Text.width_append, Nat.add_assoc]

end Covers

end Span

end ProjectFile
