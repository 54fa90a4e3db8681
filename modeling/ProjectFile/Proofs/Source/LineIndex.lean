import Mathlib.Data.List.TakeWhile
import Mathlib.Data.List.Chain
import ProjectFile.Source.LineIndex

/-!
Offsets and places.

The line starts of a text and the offset behind its end fence in the lines: they increase strictly,
from zero on (`LineIndex.isChain_breaks`). The place of an offset is on the line whose fences it lies
between (`LineIndex.addresses_place`). So the offset is found again from its place
(`LineIndex.offset_eq_ok`), and places come in the order of the offsets
(`LineIndex.place_lt_place`).
-/

namespace ProjectFile.LineIndex

/-! ## Fences -/

/-- The offsets at which the lines start, and the first one that is on no line. -/
def fences (index : LineIndex) : List Nat := index.starts ++ [index.length + 1]

/-- Whether the first line starts at zero and every line behind the one before it. -/
structure Ordered (index : LineIndex) : Prop where
  first : index.starts.head? = some 0
  increasing : index.fences.Pairwise (· < ·)

/-- The line terminators of a text end one behind the other, and none behind the text. -/
theorem isChain_breaks (offset : Nat) (t : Text) :
    (offset :: (breaks offset t ++ [offset + t.width + 1])).IsChain (· < ·) := by
  have hr : ('\r').utf8Size = 1 := rfl
  have hn : ('\n').utf8Size = 1 := rfl
  induction offset, t using breaks.induct with
  | case1 offset => simp [breaks]
  | case2 offset t ih =>
    rw [breaks, List.cons_append, Text.width_cons, Text.width_cons, hr, hn]
    rw [show offset + (1 + (1 + Text.width t)) = offset + 2 + Text.width t by omega]
    exact .cons_cons (by omega) ih
  | case3 offset t hnot ih =>
    rw [breaks.eq_3 _ _ hnot, List.cons_append, Text.width_cons, hr, ← Nat.add_assoc]
    exact .cons_cons (by omega) ih
  | case4 offset t ih =>
    rw [breaks, List.cons_append, Text.width_cons, hn, ← Nat.add_assoc]
    exact .cons_cons (by omega) ih
  | case5 offset c t hcrlf hcr hlf ih =>
    rw [breaks.eq_5 _ _ _ hcrlf hcr hlf, Text.width_cons, ← Nat.add_assoc]
    exact ih.imp_head fun hlt => by omega

theorem ordered_ofText (t : Text) : (ofText t).Ordered where
  first := rfl
  increasing := by
    have hchain := isChain_breaks 0 t
    rw [Nat.zero_add] at hchain
    exact List.isChain_iff_pairwise.1 hchain

variable {index : LineIndex}

/-! ## Places -/

/-- Whether a place is where an offset is: on the line that holds it, as far from the start of the
line. -/
def Addresses (index : LineIndex) (p : Place) (offset : Nat) : Prop :=
  ∃ start next, index.starts[p.line]? = some start ∧ index.fences[p.line + 1]? = some next ∧
    start + p.col = offset ∧ offset < next

/-- A later fence is not lower. -/
theorem Ordered.le_of_le (h : index.Ordered) {i j a b : Nat} (hij : i ≤ j)
    (ha : index.fences[i]? = some a) (hb : index.fences[j]? = some b) : a ≤ b := by
  obtain ⟨hi, rfl⟩ := List.getElem?_eq_some_iff.1 ha
  obtain ⟨hj, rfl⟩ := List.getElem?_eq_some_iff.1 hb
  rcases Nat.lt_or_eq_of_le hij with hlt | rfl
  · exact Nat.le_of_lt (List.pairwise_iff_getElem.1 h.increasing i j hi hj hlt)
  · exact Nat.le_refl _

theorem getElem?_fences_of_starts {line start : Nat} (h : index.starts[line]? = some start) :
    index.fences[line]? = some start := by
  obtain ⟨hline, -⟩ := List.getElem?_eq_some_iff.1 h
  rw [fences, List.getElem?_append_left hline, h]

/-- **The place of an offset is where the offset is.** -/
theorem addresses_place (h : index.Ordered) {offset : Nat} (hoffset : offset ≤ index.length) :
    index.Addresses (index.place offset) offset := by
  let front := index.starts.takeWhile fun start => decide (start ≤ offset)
  let back := index.starts.dropWhile fun start => decide (start ≤ offset)
  have hstarts : index.starts = front ++ back := List.takeWhile_append_dropWhile.symm
  have hpos : 0 < front.length := by
    obtain ⟨rest, hrest⟩ := List.head?_eq_some_iff.1 h.first
    simp [front, hrest]
  have hlast : front.length - 1 < front.length := by omega
  have hstart : index.starts[front.length - 1]? = some front[front.length - 1] := by
    rw [hstarts, List.getElem?_append_left hlast, List.getElem?_eq_getElem hlast]
  have hle : front[front.length - 1] ≤ offset := by
    have hmem : front[front.length - 1] ∈ front := List.getElem_mem hlast
    simpa using List.mem_takeWhile_imp hmem
  have hnext : ∃ next, index.fences[front.length - 1 + 1]? = some next ∧ offset < next := by
    rw [Nat.sub_add_cancel hpos, fences, hstarts, List.append_assoc,
      List.getElem?_append_right (Nat.le_refl _), Nat.sub_self]
    cases hback : back with
    | nil => exact ⟨index.length + 1, rfl, by omega⟩
    | cons next rest =>
      have hnot := List.head?_dropWhile_not (fun start => decide (start ≤ offset)) index.starts
      rw [show index.starts.dropWhile _ = next :: rest from hback] at hnot
      exact ⟨next, rfl, by simpa using hnot⟩
  obtain ⟨next, hnext, hlt⟩ := hnext
  have hplace : index.place offset = ⟨front.length - 1, offset - front[front.length - 1]⟩ := by
    have hclamp : index.clamp offset = offset := Nat.min_eq_left hoffset
    have hgetD := congrArg (Option.getD · 0) hstart
    simp only [← List.getD_eq_getElem?_getD, Option.getD_some] at hgetD
    simp only [place, hclamp]
    rw [← hgetD]
  rw [hplace]
  exact ⟨_, next, hstart, hnext, Nat.add_sub_cancel' hle, hlt⟩

/-- The offset at a place is found. -/
theorem Addresses.offset_eq_ok {position : Position} {offset : Nat}
    (h : index.Addresses position.place offset) : index.offset position = .ok offset := by
  obtain ⟨start, next, hstart, hnext, rfl, hlt⟩ := h
  have hmax : position.place.col ≤ index.lastColumn position.place.line start := by
    rw [lastColumn]
    rw [fences] at hnext
    split
    · next found hfound =>
      obtain ⟨hline, -⟩ := List.getElem?_eq_some_iff.1 hfound
      rw [List.getElem?_append_left hline, hfound] at hnext
      cases hnext
      omega
    · next hnone =>
      have hline := List.getElem?_eq_none_iff.1 hnone
      obtain ⟨hlast, hget⟩ := List.getElem?_eq_some_iff.1 hnext
      rw [List.getElem_append_right hline, List.getElem_singleton] at hget
      omega
  rw [LineIndex.offset, hstart]
  simp only [Nat.not_lt.2 hmax, if_false]

/-- Places come in the order of the offsets that are there. -/
theorem Addresses.lt_of_lt (hordered : index.Ordered) {p q : Place} {a b : Nat}
    (ha : index.Addresses p a) (hb : index.Addresses q b) (hab : a < b) : p < q := by
  obtain ⟨start, -, hstart, -, rfl, -⟩ := ha
  obtain ⟨start', next', hstart', hnext', rfl, hlt⟩ := hb
  rw [Place.lt_iff]
  rcases Nat.lt_trichotomy p.line q.line with hline | hline | hline
  · exact .inl hline
  · rw [hline, hstart'] at hstart
    cases hstart
    exact .inr ⟨hline, by omega⟩
  · -- The line of `q` ends before the line of `p` starts.
    have hfence := hordered.le_of_le hline hnext' (getElem?_fences_of_starts hstart)
    omega

theorem place_lt_place (h : index.Ordered) {a b : Nat} (hab : a < b) (hb : b ≤ index.length) :
    index.place a < index.place b :=
  (addresses_place h (Nat.le_of_lt (Nat.lt_of_lt_of_le hab hb))).lt_of_lt h (addresses_place h hb) hab

theorem place_le_place (h : index.Ordered) {a b : Nat} (hab : a ≤ b) (hb : b ≤ index.length) :
    index.place a ≤ index.place b := by
  rw [Place.le_iff, Place.lt_iff]
  rcases Nat.lt_or_eq_of_le hab with hlt | rfl
  · have hplace := place_lt_place h hlt hb
    rw [Place.lt_iff] at hplace
    omega
  · omega

/-- An offset is found from its place, however the place is written. -/
theorem offset_eq_ok (h : index.Ordered) {position : Position} {offset : Nat}
    (hoffset : offset ≤ index.length) (hplace : position.place = index.place offset) :
    index.offset position = .ok offset :=
  Addresses.offset_eq_ok (hplace ▸ addresses_place h hoffset)

end ProjectFile.LineIndex
