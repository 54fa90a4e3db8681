import Mathlib.Data.List.TakeWhile
import ProjectFile.Text.Basic

/-!
The characters in front of a text that satisfy a test.

There are as many of them as `Text.lengthWhile` counts. They are exactly `s` in a text `s ++ rest` if
all of `s` satisfy the test and what comes next does not (`Text.lengthWhile_append_iff`), so of what is
behind them the first character alone decides where they end (`Text.lengthWhile_stable`).
-/

namespace ProjectFile.Text

variable {p : Char → Bool} {s rest : Text}

theorem lengthWhile_eq (p : Char → Bool) (t : Text) : lengthWhile p t = (t.takeWhile p).length := by
  induction t with
  | nil => rfl
  | cons c t ih => cases h : p c <;> simp [lengthWhile, h, ih]

theorem take_lengthWhile (p : Char → Bool) (t : Text) : t.take (lengthWhile p t) = t.takeWhile p := by
  rw [lengthWhile_eq]
  exact (List.prefix_iff_eq_take.1 (List.takeWhile_prefix p)).symm

theorem drop_lengthWhile (p : Char → Bool) (t : Text) : t.drop (lengthWhile p t) = t.dropWhile p := by
  induction t with
  | nil => rfl
  | cons c t ih => cases h : p c <;> simp [lengthWhile, h, ih]

theorem forall_take_lengthWhile (t : Text) : ∀ c ∈ t.take (lengthWhile p t), p c = true := by
  intro c hc
  rw [take_lengthWhile] at hc
  exact List.mem_takeWhile_imp hc

theorem lengthWhile_le (p : Char → Bool) (t : Text) : lengthWhile p t ≤ t.length := by
  rw [lengthWhile_eq]
  exact (List.takeWhile_prefix p).length_le

/-- A character that does not satisfy the test ends them, whatever comes behind. -/
theorem lengthWhile_before {c : Char} (hc : p c = false) (s rest : Text) :
    lengthWhile p (s ++ c :: rest) = lengthWhile p s := by
  induction s with
  | nil => simp [lengthWhile, hc]
  | cons d s ih => rw [List.cons_append, lengthWhile, lengthWhile, ih]

/-- What is behind them may be cut off. -/
theorem lengthWhile_append_of_le (h : lengthWhile p (s ++ rest) ≤ s.length) :
    lengthWhile p (s ++ rest) = lengthWhile p s := by
  induction s with
  | nil => exact Nat.le_zero.1 h
  | cons c s ih =>
    rw [List.cons_append, lengthWhile, lengthWhile] at *
    split
    · next hc =>
      rw [if_pos hc, List.length_cons] at h
      rw [ih (Nat.le_of_succ_le_succ h)]
    · rfl

theorem lengthWhile_append (hs : ∀ c ∈ s, p c = true) (hrest : ∀ c ∈ rest.head?, p c = false) :
    lengthWhile p (s ++ rest) = s.length := by
  induction s with
  | nil =>
    cases rest with
    | nil => rfl
    | cons c rest => simp [lengthWhile, hrest c rfl]
  | cons c s ih =>
    rw [List.forall_mem_cons] at hs
    simp [lengthWhile, hs.1, ih hs.2]

/-- The characters in front that satisfy a test are exactly `s` if all of `s` do and the next does
not. -/
theorem lengthWhile_append_iff :
    lengthWhile p (s ++ rest) = s.length ↔
      (∀ c ∈ s, p c = true) ∧ ∀ c ∈ rest.head?, p c = false := by
  constructor
  · intro h
    induction s with
    | nil =>
      refine ⟨nofun, fun c hc => ?_⟩
      cases rest with
      | nil => cases hc
      | cons d rest =>
        cases hc
        cases hp : p c with
        | false => rfl
        | true => simp [lengthWhile, hp] at h
    | cons c s ih =>
      cases hp : p c with
      | false => simp [lengthWhile, hp] at h
      | true =>
        have hs : lengthWhile p (s ++ rest) = s.length := by simpa [lengthWhile, hp] using h
        exact ⟨List.forall_mem_cons.2 ⟨hp, (ih hs).1⟩, (ih hs).2⟩
  · intro h
    exact lengthWhile_append h.1 h.2

/-- Where the characters that satisfy a test end is decided by the one after them. -/
theorem lengthWhile_stable {rest' : Text}
    (h : lengthWhile p (s ++ rest) = s.length) (hhead : rest'.head? = rest.head?) :
    lengthWhile p (s ++ rest') = s.length := by
  rw [lengthWhile_append_iff, hhead]
  exact lengthWhile_append_iff.1 h

end ProjectFile.Text
