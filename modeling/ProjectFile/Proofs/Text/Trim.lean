import Mathlib.Data.List.TakeWhile
import ProjectFile.Text.Class

/-!
Trimmed text, and the pieces of a text.

A text is what is left when it is trimmed with blanks on both sides (`exists_trim`). Nothing is left
of blanks alone (`trim_eq_nil_iff`), what is left neither begins nor ends with a blank
(`isBlank_head?_trim`, `isBlank_getLast?_trim`), and a text without blanks at its ends is left as it
is (`trim_eq_self`).

The pieces between the occurrences of a character are those of the splitting of lists (`splitOn_eq`), and
the character is in none of them (`not_mem_of_mem_splitOn`).
-/

namespace ProjectFile.Text

/-- A text is what is left when it is trimmed, with blanks on both sides. -/
theorem exists_trim (t : Text) : ∃ trailing, (∀ c ∈ trailing, isBlank c = true) ∧
    t = t.takeWhile isBlank ++ (trim t ++ trailing) := by
  refine ⟨((trimStart t).reverse.takeWhile isBlank).reverse, ?_, ?_⟩
  · intro c hc
    exact List.mem_takeWhile_imp (List.mem_reverse.1 hc)
  have hend : trimStart t = trim t ++ ((trimStart t).reverse.takeWhile isBlank).reverse := by
    rw [trim, trimEnd, ← List.reverse_append, List.takeWhile_append_dropWhile, List.reverse_reverse]
  rw [← hend, trimStart, List.takeWhile_append_dropWhile]

theorem trim_eq_nil_iff {t : Text} : trim t = [] ↔ ∀ c ∈ t, isBlank c = true := by
  constructor
  · intro h c hc
    obtain ⟨trailing, htrailing, ht⟩ := exists_trim t
    rw [h, List.nil_append] at ht
    rw [ht, List.mem_append] at hc
    rcases hc with hc | hc
    · exact List.mem_takeWhile_imp hc
    · exact htrailing c hc
  · intro h
    have hstart : trimStart t = [] := List.dropWhile_eq_nil_iff.2 h
    rw [trim, hstart]
    rfl

/-- What is left does not end with a blank. -/
theorem isBlank_getLast?_trim {t : Text} {c : Char} (h : (trim t).getLast? = some c) :
    isBlank c = false := by
  have hhead := List.head?_dropWhile_not isBlank (trimStart t).reverse
  rw [trim, trimEnd, List.getLast?_reverse] at h
  rw [h] at hhead
  simpa using hhead

/-- What is left does not begin with a blank. -/
theorem isBlank_head?_trim {t : Text} {c : Char} (h : (trim t).head? = some c) :
    isBlank c = false := by
  have hhead := List.head?_dropWhile_not isBlank t
  have hstart : trimStart t = trim t ++ ((trimStart t).reverse.takeWhile isBlank).reverse := by
    rw [trim, trimEnd, ← List.reverse_append, List.takeWhile_append_dropWhile, List.reverse_reverse]
  have hfirst : (t.dropWhile isBlank).head? = some c := by
    rw [← trimStart, hstart, List.head?_append, h]
    rfl
  rw [hfirst] at hhead
  simpa using hhead

/-- Trimming leaves a text as it is that neither begins nor ends with a blank. -/
theorem trim_eq_self {t : Text} (hhead : ∀ c ∈ t.head?, isBlank c = false)
    (hlast : ∀ c ∈ t.getLast?, isBlank c = false) : trim t = t := by
  have hkeep {s : Text} (hs : ∀ c ∈ s.head?, isBlank c = false) : s.dropWhile isBlank = s := by
    cases s with
    | nil => rfl
    | cons c s => exact List.dropWhile_cons_of_neg (by simpa using hs c rfl)
  have hreverse : ∀ c ∈ t.reverse.head?, isBlank c = false := by
    intro c hc
    rw [List.head?_reverse] at hc
    exact hlast c hc
  rw [trim, trimStart, hkeep hhead, trimEnd, hkeep hreverse, List.reverse_reverse]

/-- Trimming leaves something of a text that begins with no blank. -/
theorem trim_cons_ne_nil {c : Char} (hc : isBlank c = false) (t : Text) : trim (c :: t) ≠ [] := by
  intro htrim
  have hblank := trim_eq_nil_iff.1 htrim c List.mem_cons_self
  rw [hc] at hblank
  cases hblank

/-- What is no blank is not trimmed away. -/
theorem mem_trim_iff {c : Char} (hc : isBlank c = false) {t : Text} : c ∈ trim t ↔ c ∈ t := by
  obtain ⟨trailing, htrailing, ht⟩ := exists_trim t
  have hleading : c ∉ t.takeWhile isBlank := by
    intro hmem
    rw [List.mem_takeWhile_imp hmem] at hc
    cases hc
  have hbehind : c ∉ trailing := by
    intro hmem
    rw [htrailing c hmem] at hc
    cases hc
  constructor
  · intro h
    rw [ht]
    exact List.mem_append_right _ (List.mem_append_left _ h)
  · intro h
    rw [ht, List.mem_append, List.mem_append] at h
    exact (h.resolve_left hleading).resolve_right hbehind

/-! ## Pieces -/

variable {sep : Char}

/-- Splitting at a character is the splitting of lists. -/
theorem splitOn_eq (t : Text) : splitOn sep t = List.splitOn sep t := by
  induction t with
  | nil => rfl
  | cons c t ih =>
    rw [splitOn, List.splitOn_cons_eq_if_modifyHead, ih]
    by_cases hc : c = sep
    · rw [if_pos hc, if_pos (beq_iff_eq.2 hc)]
    · rw [if_neg hc, if_neg (mt beq_iff_eq.1 hc)]
      cases hpieces : List.splitOn sep t with
      | nil => exact absurd hpieces (List.splitOn_ne_nil sep t)
      | cons piece pieces => rfl

/-- No piece has the character at which a text is split. -/
theorem not_mem_of_mem_splitOn {t s : Text} (h : s ∈ splitOn sep t) : sep ∉ s := by
  induction t generalizing s with
  | nil =>
    rw [List.mem_singleton.1 h]
    exact List.not_mem_nil
  | cons c t ih =>
    rw [splitOn] at h
    split at h
    · rcases List.mem_cons.1 h with rfl | h
      · exact List.not_mem_nil
      · exact ih h
    next hc =>
    cases hpieces : splitOn sep t with
    | nil =>
      rw [splitOn_eq] at hpieces
      exact absurd hpieces (List.splitOn_ne_nil sep t)
    | cons piece pieces =>
      rw [hpieces] at h ih
      rcases List.mem_cons.1 h with rfl | h
      · rw [List.mem_cons, not_or]
        exact ⟨Ne.symm hc, ih List.mem_cons_self⟩
      · exact ih (List.mem_cons_of_mem _ h)

end ProjectFile.Text
