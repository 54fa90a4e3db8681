import ProjectFile.Text.Basic

/-!
Parts of a text by byte offsets. A text that is cut between whole characters gives back the part
that was there, and one into which something is inserted has it between the two parts.
-/

namespace ProjectFile.Text

/-! ## Slices -/

theorem slice_go_before {start stop : Nat} {a : Text} (t : Text) {offset : Nat}
    (h : offset + width a ≤ start) :
    slice.go start stop offset (a ++ t) = slice.go start stop (offset + width a) t := by
  induction a generalizing offset with
  | nil => rfl
  | cons c a ih =>
    have hc := c.utf8Size_pos
    rw [width_cons] at h ⊢
    have hout : ¬ (start ≤ offset ∧ offset + c.utf8Size ≤ stop) := by omega
    rw [List.cons_append, slice.go, if_neg hout, ih (by omega), Nat.add_assoc]

theorem slice_go_inside {start stop : Nat} {b : Text} (t : Text) {offset : Nat}
    (hstart : start ≤ offset) (hstop : offset + width b ≤ stop) :
    slice.go start stop offset (b ++ t) = b ++ slice.go start stop (offset + width b) t := by
  induction b generalizing offset with
  | nil => rfl
  | cons c b ih =>
    rw [width_cons] at hstop ⊢
    have hin : start ≤ offset ∧ offset + c.utf8Size ≤ stop := by omega
    rw [List.cons_append, slice.go, if_pos hin, ih (by omega) (by omega), Nat.add_assoc,
      List.cons_append]

theorem slice_go_after {start stop : Nat} (t : Text) {offset : Nat} (h : stop ≤ offset) :
    slice.go start stop offset t = [] := by
  induction t generalizing offset with
  | nil => rfl
  | cons c t ih =>
    have hc := c.utf8Size_pos
    have hout : ¬ (start ≤ offset ∧ offset + c.utf8Size ≤ stop) := by omega
    rw [slice.go, if_neg hout, ih (by omega)]

/-- The part between two offsets is what stands there. -/
theorem slice_append (a b c : Text) :
    slice (a ++ (b ++ c)) (width a) (width a + width b) = b := by
  have hbefore : 0 + width a ≤ width a := by omega
  rw [slice, slice_go_before _ hbefore, Nat.zero_add,
    slice_go_inside _ (Nat.le_refl _) (Nat.le_refl _), slice_go_after _ (Nat.le_refl _),
    List.append_nil]

/-! ## Insertions -/

/-- The text with `s` put in at a byte offset; at its end, if it is shorter. -/
def insertAt (t : Text) (offset : Nat) (s : Text) : Text :=
  match t with
  | [] => s
  | c :: t => if offset = 0 then s ++ c :: t else c :: insertAt t (offset - c.utf8Size) s

/-- What is inserted between two parts of a text stands between them. -/
theorem insertAt_append (a s b : Text) : insertAt (a ++ b) (width a) s = a ++ (s ++ b) := by
  induction a with
  | nil =>
    cases b with
    | nil => simp [insertAt]
    | cons c b => simp [insertAt]
  | cons c a ih =>
    have hc := c.utf8Size_pos
    have hne : ¬ c.utf8Size + width a = 0 := by omega
    have hsub : c.utf8Size + width a - c.utf8Size = width a := by omega
    rw [width_cons, List.cons_append, insertAt, if_neg hne, hsub, ih, List.cons_append]

/-- What is in a text after an insertion was in it before, or was inserted. -/
theorem mem_insertAt {t s : Text} {offset : Nat} {c : Char} (h : c ∈ insertAt t offset s) :
    c ∈ t ∨ c ∈ s := by
  induction t generalizing offset with
  | nil => exact .inr h
  | cons d t ih =>
    rw [insertAt] at h
    split at h
    · exact (List.mem_append.1 h).symm
    · rcases List.mem_cons.1 h with rfl | h
      · exact .inl List.mem_cons_self
      · exact (ih h).imp_left (List.mem_cons_of_mem d)

theorem width_pos {t : Text} (h : t ≠ []) : 0 < width t :=
  Nat.pos_of_ne_zero fun hzero => h (width_eq_zero.1 hzero)

/-- A text is cut in one way at an offset. -/
theorem append_inj_of_width {a b c d : Text} (h : a ++ b = c ++ d) (hwidth : width a = width c) :
    a = c ∧ b = d := by
  induction a generalizing c with
  | nil =>
    have hc : c = [] := width_eq_zero.1 hwidth.symm
    subst hc
    exact ⟨rfl, h⟩
  | cons x a ih =>
    cases c with
    | nil =>
      have hx := x.utf8Size_pos
      rw [width_cons, width_nil] at hwidth
      omega
    | cons y c =>
      rw [List.cons_append, List.cons_append, List.cons.injEq] at h
      obtain ⟨rfl, h⟩ := h
      rw [width_cons, width_cons] at hwidth
      obtain ⟨rfl, hbd⟩ := ih h (by omega)
      exact ⟨rfl, hbd⟩

/-- Where an offset comes to stand when `size` bytes are inserted at `gap`. -/
def moved (gap size offset : Nat) : Nat := if offset < gap then offset else offset + size

theorem moved_of_lt {gap offset : Nat} (h : offset < gap) (size : Nat) :
    moved gap size offset = offset := if_pos h

theorem moved_of_le {gap offset : Nat} (h : gap ≤ offset) (size : Nat) :
    moved gap size offset = offset + size := if_neg (Nat.not_lt.2 h)

end ProjectFile.Text
