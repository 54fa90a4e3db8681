import ProjectFile.Text.Identifier

/-!
What names are made of. Whichever characters identifiers are made of, no name holds a character
that means something in a tag: `isName_spec` says what a name begins with and what is in it. It
holds no blank either, so trimming takes nothing off a name (`isBlank_of_mem_name`). Both are proved
of an arbitrary `IdentifierClass`, from what its fields say.
-/

namespace ProjectFile.Text

/-- Whether `n` is the code of a letter, a digit, a sign of names, or a character from U+00A0 on. -/
def IsNameCode (n : Nat) : Prop :=
  (0x2d ≤ n ∧ n ≤ 0x2e) ∨ (0x30 ≤ n ∧ n ≤ 0x3a) ∨ (0x41 ≤ n ∧ n ≤ 0x5a) ∨ n = 0x5f ∨
    (0x61 ≤ n ∧ n ≤ 0x7a) ∨ 0xa0 ≤ n

instance (n : Nat) : Decidable (IsNameCode n) := inferInstanceAs (Decidable (_ ∨ _))

theorem isControl_eq_false {c : Char} (h : IsNameCode c.toNat) : isControl c = false := by
  rw [← Bool.not_eq_true, isControl, inRanges_iff]
  intro hcontrol
  obtain ⟨r, hr, hlow, hhigh⟩ := hcontrol
  unfold IsNameCode at h
  simp only [controlRanges, List.mem_cons, List.not_mem_nil, or_false] at hr
  rcases hr with rfl | rfl <;> omega

namespace IdentifierClass

variable (k : IdentifierClass)

theorem isNameCode_of_isContinue {c : Char} (h : k.isContinue c = true) : IsNameCode c.toNat := by
  have hcode := k.code_of_isContinue h
  unfold IsLetterCode at hcode
  unfold IsNameCode
  omega

/-- What holds of the signs of names and of the characters of identifiers holds of all characters of
a name. -/
theorem forall_mem_of_isName {P : Char → Prop} (hsigns : P '_' ∧ P ':' ∧ P '-' ∧ P '.')
    (hidentifier : ∀ c, k.isContinue c = true → P c) {t : Text} (h : k.isName t = true) :
    ∀ c ∈ t, P c := by
  obtain ⟨hunderscore, hcolon, hdash, hdot⟩ := hsigns
  cases t with
  | nil => cases h
  | cons c rest =>
    simp only [isName, Bool.and_eq_true, Bool.or_eq_true, beq_iff_eq, List.all_eq_true] at h
    obtain ⟨hfirst, hrest⟩ := h
    intro d hd
    rcases List.mem_cons.1 hd with rfl | hd
    · rcases hfirst with (rfl | rfl) | hstart
      · exact hunderscore
      · exact hcolon
      · exact hidentifier d (k.isContinue_of_isStart hstart)
    · rcases hrest d hd with (((rfl | rfl) | rfl) | rfl) | hcontinue
      · exact hdash
      · exact hdot
      · exact hcolon
      · exact hunderscore
      · exact hidentifier d hcontinue

theorem exists_cons_of_isName {t : Text} (h : k.isName t = true) :
    ∃ c rest, t = c :: rest ∧ (c = '_' ∨ c = ':' ∨ IsLetterCode c.toNat) := by
  cases t with
  | nil => cases h
  | cons c rest =>
    simp only [isName, Bool.and_eq_true, Bool.or_eq_true, beq_iff_eq] at h
    obtain ⟨(hunderscore | hcolon) | hstart, -⟩ := h
    · exact ⟨c, rest, rfl, .inl hunderscore⟩
    · exact ⟨c, rest, rfl, .inr (.inl hcolon)⟩
    · exact ⟨c, rest, rfl, .inr (.inr (k.code_of_isStart hstart))⟩

theorem isNameCode_of_mem_name {t : Text} (h : k.isName t = true) :
    ∀ c ∈ t, IsNameCode c.toNat := by
  apply k.forall_mem_of_isName (P := fun c => IsNameCode c.toNat) _ _ h
  · decide
  · exact fun c => k.isNameCode_of_isContinue

theorem isBlank_of_mem_name {t : Text} (h : k.isName t = true) : ∀ c ∈ t, isBlank c = false := by
  apply k.forall_mem_of_isName (P := fun c => isBlank c = false) _ _ h
  · decide
  · exact fun c => k.isBlank_of_isContinue

end IdentifierClass

/-- A name is not empty, begins with a letter, `_` or `:`, and has only characters of names. -/
theorem isName_spec {t : Text} (h : isName t = true) :
    (∃ c rest, t = c :: rest ∧ (c = '_' ∨ c = ':' ∨ IsLetterCode c.toNat)) ∧
      ∀ c ∈ t, IsNameCode c.toNat :=
  ⟨unicode.exists_cons_of_isName h, unicode.isNameCode_of_mem_name h⟩

/-- A name has no blanks in it. -/
theorem isBlank_of_mem_name {t : Text} (h : isName t = true) : ∀ c ∈ t, isBlank c = false :=
  unicode.isBlank_of_mem_name h

end ProjectFile.Text
