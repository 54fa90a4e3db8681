import ProjectFile.Proofs.Json.Grammar
import ProjectFile.Proofs.Text.Front

/-!
Strings and numbers are read as the grammar has them.

For each of their readers there are two lemmas: it reads what the grammar spells, in front of a text that
does not go on with it (`readPieces_append`, `numberLength?_append`), and what it reads is spelled so
(`exists_of_readPieces`, `isNumber_take`). A string ends with its quote, so any text may be behind it; a
number ends where a character comes that cannot belong to it.
-/

namespace ProjectFile.Json

/-! ## Strings -/

theorem readPieces_piece {p : Piece} {s : Text} (h : SpellsPiece p s) (t : Text) :
    readPieces (s ++ t) = (readPieces t).map fun r => (p :: r.1, r.2) := by
  cases h with
  | char hquote hescape hcontrol =>
    have hcode := Nat.not_lt.2 hcontrol
    simp [readPieces, hescape, hcode]
  | escape he =>
    unfold escaped? at he
    split at he <;> cases he <;> rfl
  | unit hn => simp [readPieces, hn]

/-- **A string is read up to its quote.** -/
theorem readPieces_append {pieces : List Piece} {body : Text} (h : SpellsPieces pieces body)
    (rest : Text) : readPieces (body ++ '"' :: rest) = some (pieces, rest) := by
  induction h with
  | nil => rfl
  | cons hp _ ih => rw [List.append_assoc, readPieces_piece hp, ih]; rfl

theorem exists_of_readPieces {t rest : Text} {pieces : List Piece}
    (h : readPieces t = some (pieces, rest)) :
    ∃ body, SpellsPieces pieces body ∧ t = body ++ '"' :: rest := by
  fun_induction readPieces t generalizing pieces rest with
  | case1 => cases h
  | case2 t =>
    cases h
    exact ⟨[], .nil, rfl⟩
  | case3 a b c d t n hn ih =>
    obtain ⟨r, hr, hmap⟩ := Option.map_eq_some_iff.1 h
    cases hmap
    obtain ⟨body, hbody, rfl⟩ := ih hr
    exact ⟨_, .cons (.unit hn) hbody, rfl⟩
  | case4 => cases h
  | case5 e t hunit c hc ih =>
    obtain ⟨r, hr, hmap⟩ := Option.map_eq_some_iff.1 h
    cases hmap
    obtain ⟨body, hbody, rfl⟩ := ih hr
    exact ⟨_, .cons (.escape hc) hbody, rfl⟩
  | case6 => cases h
  | case7 => cases h
  | case8 c t hquote hunit hescape hplain ih =>
    obtain ⟨r, hr, hmap⟩ := Option.map_eq_some_iff.1 h
    cases hmap
    obtain ⟨body, hbody, rfl⟩ := ih hr
    obtain ⟨hback, hcode⟩ := not_or.1 hplain
    exact ⟨_, .cons (.char hquote hback (Nat.not_lt.1 hcode)) hbody, rfl⟩

/-! ## Numbers -/

/-- Whether a text does not go on with a number. -/
def EndsNumber (rest : Text) : Prop :=
  ∀ c ∈ rest.head?, c.isDigit = false ∧ c ≠ '.' ∧ c ≠ 'e' ∧ c ≠ 'E'

theorem digitsLength?_append {t rest : Text} (h : IsDigits t)
    (hrest : ∀ c ∈ rest.head?, c.isDigit = false) : digitsLength? (t ++ rest) = some t.length := by
  have hlength : Text.lengthWhile Char.isDigit (t ++ rest) = t.length :=
    Text.lengthWhile_append h.digits hrest
  have hne : t.length ≠ 0 := fun hzero => h.ne_nil (List.length_eq_zero_iff.1 hzero)
  rw [digitsLength?, hlength]
  exact if_neg hne

theorem isDigits_take {t : Text} {n : Nat} (h : digitsLength? t = some n) : IsDigits (t.take n) := by
  rw [digitsLength?] at h
  split at h
  · cases h
  · next hne =>
    cases h
    refine ⟨fun hnil => hne ?_, Text.forall_take_lengthWhile t⟩
    rw [Text.lengthWhile_eq, ← Text.take_lengthWhile, hnil, List.length_nil]

/-- The digits of a number begin with a digit. -/
theorem IsDigits.exists_head {t : Text} (h : IsDigits t) : ∃ c rest, t = c :: rest ∧ c.isDigit = true := by
  obtain ⟨c, rest, rfl⟩ := List.exists_cons_of_ne_nil h.ne_nil
  exact ⟨c, rest, rfl, h.digits c List.mem_cons_self⟩

theorem IsWhole.exists_head {t : Text} (h : IsWhole t) : ∃ c rest, t = c :: rest ∧ c.isDigit = true := by
  cases h with
  | zero => exact ⟨'0', [], rfl, rfl⟩
  | digits h _ => exact h.exists_head

theorem wholeLength?_append {t rest : Text} (h : IsWhole t)
    (hrest : ∀ c ∈ rest.head?, c.isDigit = false) : wholeLength? (t ++ rest) = some t.length := by
  cases h with
  | zero => rfl
  | digits h hzero =>
    have hhead : (t ++ rest).head? ≠ some '0' := by
      obtain ⟨c, u, rfl, -⟩ := h.exists_head
      exact hzero
    rw [wholeLength?, if_neg hhead]
    exact digitsLength?_append h hrest

theorem isWhole_take {t : Text} {n : Nat} (h : wholeLength? t = some n) : IsWhole (t.take n) := by
  rw [wholeLength?] at h
  split at h
  · next hzero =>
    cases h
    obtain ⟨u, rfl⟩ := List.head?_eq_some_iff.1 hzero
    exact .zero
  · next hzero =>
    have hdigits := isDigits_take h
    refine .digits hdigits fun hhead => hzero ?_
    obtain ⟨u, hu⟩ := List.head?_eq_some_iff.1 hhead
    obtain ⟨v, hv⟩ := List.take_prefix n t
    rw [← hv, hu]
    rfl

theorem fractionLength?_append {t rest : Text} (h : IsFraction t)
    (hrest : ∀ c ∈ rest.head?, c.isDigit = false ∧ c ≠ '.') :
    fractionLength? (t ++ rest) = some t.length := by
  cases h with
  | none =>
    refine fractionLength?.eq_2 rest ?_
    rintro t rfl
    exact (hrest '.' rfl).2 rfl
  | digits h =>
    rw [List.cons_append, fractionLength?, digitsLength?_append h fun c hc => (hrest c hc).1]
    rfl

theorem isFraction_take {t : Text} {n : Nat} (h : fractionLength? t = some n) :
    IsFraction (t.take n) := by
  unfold fractionLength? at h
  split at h
  · obtain ⟨k, hk, rfl⟩ := Option.map_eq_some_iff.1 h
    exact .digits (isDigits_take hk)
  · cases h
    exact .none

theorem exponentLength?_append {t rest : Text} (h : IsExponent t) (hrest : EndsNumber rest) :
    exponentLength? (t ++ rest) = some t.length := by
  cases h with
  | none =>
    cases rest with
    | nil => rfl
    | cons c rest =>
      obtain ⟨-, -, hsmall, hcapital⟩ := hrest c rfl
      exact if_neg (not_or.2 ⟨hsmall, hcapital⟩)
  | @digits e sign t he hsign h =>
    have hdigits := digitsLength?_append h fun c hc => (hrest c hc).1
    rw [List.cons_append, List.append_assoc]
    rcases hsign with rfl | rfl | rfl
    · -- The first of the digits is no sign.
      obtain ⟨c, u, rfl, hc⟩ := h.exists_head
      have hplus : c ≠ '+' := by rintro rfl; cases hc
      have hminus : c ≠ '-' := by rintro rfl; cases hc
      have hplain := exponentLength?.eq_4 e (c :: (u ++ rest))
        (fun _ heq => hplus (List.cons.inj heq).1) (fun _ heq => hminus (List.cons.inj heq).1)
      rw [List.cons_append] at hdigits
      rw [List.nil_append, List.cons_append, hplain, if_pos he, hdigits]
      rfl
    · rw [List.singleton_append, exponentLength?, if_pos he, hdigits]
      rfl
    · rw [List.singleton_append, exponentLength?, if_pos he, hdigits]
      rfl

theorem isExponent_take {t : Text} {n : Nat} (h : exponentLength? t = some n) :
    IsExponent (t.take n) := by
  unfold exponentLength? at h
  split at h
  · cases h
    exact .none
  · next e t =>
    split at h
    · next he =>
      split at h
      all_goals
        obtain ⟨k, hk, rfl⟩ := Option.map_eq_some_iff.1 h
        have hdigits := isDigits_take hk
      · exact .digits he (.inr (.inl rfl)) hdigits
      · exact .digits he (.inr (.inr rfl)) hdigits
      · exact .digits he (.inl rfl) hdigits
    · cases h
      exact .none

/-- **A number is read up to what cannot belong to it.** -/
theorem numberLength?_append {t rest : Text} (h : IsNumber t) (hrest : EndsNumber rest) :
    numberLength? (t ++ rest) = some t.length := by
  cases h with
  | @parts sign whole fraction exponent hsign hwhole hfraction hexponent =>
    have hbehind : ∀ c ∈ (exponent ++ rest).head?, c.isDigit = false ∧ c ≠ '.' := by
      intro c hc
      cases hexponent with
      | none => exact ⟨(hrest c hc).1, (hrest c hc).2.1⟩
      | digits he _ _ =>
        cases hc
        rcases he with rfl | rfl <;> decide
    have hmiddle : ∀ c ∈ (fraction ++ (exponent ++ rest)).head?, c.isDigit = false := by
      intro c hc
      cases hfraction with
      | none => exact (hbehind c hc).1
      | digits _ =>
        cases hc
        rfl
    have hminus : (if (sign ++ (whole ++ (fraction ++ (exponent ++ rest)))).head? = some '-' then 1
        else 0) = sign.length := by
      rcases hsign with rfl | rfl
      · obtain ⟨c, u, rfl, hc⟩ := hwhole.exists_head
        refine if_neg fun hhead => ?_
        cases hhead
        cases hc
      · rfl
    simp only [List.append_assoc, numberLength?, hminus, ← List.drop_drop, List.drop_left,
      wholeLength?_append hwhole hmiddle, fractionLength?_append hfraction hbehind,
      exponentLength?_append hexponent hrest, Option.bind_eq_bind, Option.bind_some,
      List.length_append, Nat.add_assoc]
    rfl

theorem isNumber_take {t : Text} {n : Nat} (h : numberLength? t = some n) : IsNumber (t.take n) := by
  simp only [numberLength?, Option.bind_eq_bind, Option.bind_eq_some_iff] at h
  obtain ⟨whole, hwhole, fraction, hfraction, exponent, hexponent, hn⟩ := h
  cases hn
  rw [List.take_add, List.take_add, List.take_add, List.append_assoc, List.append_assoc]
  refine .parts ?_ (isWhole_take hwhole) (isFraction_take hfraction) (isExponent_take hexponent)
  split
  · next hminus =>
    obtain ⟨u, rfl⟩ := List.head?_eq_some_iff.1 hminus
    exact .inr rfl
  · exact .inl rfl

end ProjectFile.Json
