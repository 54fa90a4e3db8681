import ProjectFile.Proofs.Json.Scalars

/-!
The reader accepts exactly the texts of the grammar, each as the value that it spells
(`parse_eq_some_iff`).

One way is an induction on the grammar (`Spells.read`): a value is read in front of anything that may
stand behind a value, if the depth is no less than its length. The other way is an induction on the
depth (`sound`).
-/

namespace ProjectFile.Json

/-! ## Space -/

theorem skipSpace_append {gap : Text} (h : IsGap gap) (t : Text) : skipSpace (gap ++ t) = skipSpace t :=
  List.dropWhile_append_of_pos h

theorem skipSpace_cons {c : Char} (h : isSpace c = false) (t : Text) : skipSpace (c :: t) = c :: t := by
  simp [skipSpace, h]

theorem isSpace_iff {c : Char} : isSpace c = true ↔ c = ' ' ∨ c = '\t' ∨ c = '\n' ∨ c = '\r' := by
  simp [isSpace, or_assoc]

/-- What is skipped is a gap. -/
theorem exists_gap (t : Text) : ∃ gap, IsGap gap ∧ t = gap ++ skipSpace t :=
  ⟨t.takeWhile isSpace, fun _ hc => List.mem_takeWhile_imp hc, List.takeWhile_append_dropWhile.symm⟩

/-- Space in front of a value is skipped. -/
theorem readValue_gap {gap : Text} (h : IsGap gap) (depth : Nat) (t : Text) :
    readValue depth (gap ++ t) = readValue depth t := by
  cases depth with
  | zero => rfl
  | succ depth => rw [readValue, readValue, skipSpace_append h]

/-! ## The forms of a value -/

variable {depth : Nat} {t rest : Text} {value : Json}

/-- Whether a text begins, if with anything, with something that may stand behind a value. -/
def Closes (rest : Text) : Prop :=
  ∀ c ∈ rest.head?, isSpace c = true ∨ c = ',' ∨ c = ']' ∨ c = '}'

theorem Closes.endsNumber (h : Closes rest) : EndsNumber rest := by
  intro c hc
  rcases h c hc with hspace | rfl | rfl | rfl
  · rcases isSpace_iff.1 hspace with rfl | rfl | rfl | rfl <;> decide
  all_goals decide

theorem IsNumber.exists_head (h : IsNumber t) : ∃ c u, t = c :: u ∧ (c.isDigit = true ∨ c = '-') := by
  cases h with
  | parts hsign hwhole _ _ =>
    obtain ⟨c, u, rfl, hc⟩ := hwhole.exists_head
    rcases hsign with rfl | rfl
    · exact ⟨c, _, rfl, .inl hc⟩
    · exact ⟨'-', _, rfl, .inr rfl⟩

theorem isSpace_of_isDigit {c : Char} (h : c.isDigit = true) : isSpace c = false := by
  rw [Bool.eq_false_iff]
  intro hspace
  rcases isSpace_iff.1 hspace with rfl | rfl | rfl | rfl <;> cases h

/-- A value begins with no space, and with no bracket that closes an array. -/
theorem Spells.exists_head (h : Spells value t) :
    ∃ c u, t = c :: u ∧ isSpace c = false ∧ c ≠ ']' := by
  cases h with
  | number h =>
    obtain ⟨c, u, rfl, hc | rfl⟩ := h.exists_head
    · refine ⟨c, u, rfl, isSpace_of_isDigit hc, ?_⟩
      rintro rfl
      cases hc
    · exact ⟨'-', u, rfl, rfl, by decide⟩
  | string h =>
    cases h
    exact ⟨_, _, rfl, rfl, by decide⟩
  | broken h =>
    cases h
    exact ⟨_, _, rfl, rfl, by decide⟩
  | _ => exact ⟨_, _, rfl, rfl, by decide⟩

theorem readValue_number (h : IsNumber t) (hrest : Closes rest) (depth : Nat) :
    readValue (depth + 1) (t ++ rest) = some (.number t, rest) := by
  obtain ⟨c, u, rfl, hc⟩ := h.exists_head
  have hlength := numberLength?_append h hrest.endsNumber
  have hspace : isSpace c = false := by
    rcases hc with hc | rfl
    · exact isSpace_of_isDigit hc
    · rfl
  rw [List.cons_append] at hlength ⊢
  rw [readValue, skipSpace_cons hspace]
  split
  -- No other form of a value begins with a digit or a `-`.
  case h_7 => rw [hlength, Option.map_some, ← List.cons_append, List.take_left, List.drop_left]
  all_goals
    next heq =>
      obtain ⟨rfl, -⟩ := List.cons.inj heq
      rcases hc with hc | hc <;> cases hc

/-- A string that is no text is broken. -/
theorem readValue_string {content : Option Text} (h : SpellsString content t) (rest : Text)
    (depth : Nat) :
    readValue (depth + 1) (t ++ rest) = some (content.elim .broken .string, rest) := by
  obtain ⟨hpieces, rfl⟩ := h
  have hquote := readPieces_append hpieces rest
  simp only [List.cons_append, List.append_assoc, List.nil_append, readValue,
    skipSpace_cons (show isSpace '"' = false from rfl), hquote, Option.map_some]
  split <;> next heq => rw [heq]; rfl

/-- An array that is not closed at once has elements. -/
theorem readValue_array {c : Char} {u : Text} (hskip : skipSpace t = c :: u) (hc : c ≠ ']')
    (depth : Nat) :
    readValue (depth + 1) ('[' :: t) = (readElements depth t).map fun r => (.array r.1, r.2) := by
  simp only [readValue, skipSpace_cons (show isSpace '[' = false from rfl)]
  rw [hskip]
  split
  · next heq => exact absurd (List.cons.inj heq).1 hc
  · rfl

theorem readValue_object {c : Char} {u : Text} (hskip : skipSpace t = c :: u) (hc : c ≠ '}')
    (depth : Nat) :
    readValue (depth + 1) ('{' :: t) = (readMembers depth t).map fun r => (ofMembers r.1, r.2) := by
  simp only [readValue, skipSpace_cons (show isSpace '{' = false from rfl)]
  rw [hskip]
  split
  · next heq => exact absurd (List.cons.inj heq).1 hc
  · rfl

theorem readValue_emptyArray {gap : Text} (h : IsGap gap) (rest : Text) (depth : Nat) :
    readValue (depth + 1) ('[' :: (gap ++ ']' :: rest)) = some (.array [], rest) := by
  have hclose : skipSpace (gap ++ ']' :: rest) = ']' :: rest := skipSpace_append h _
  simp only [readValue, skipSpace_cons (show isSpace '[' = false from rfl), hclose]

theorem readValue_emptyObject {gap : Text} (h : IsGap gap) (rest : Text) (depth : Nat) :
    readValue (depth + 1) ('{' :: (gap ++ '}' :: rest)) = some (.object [], rest) := by
  have hclose : skipSpace (gap ++ '}' :: rest) = '}' :: rest := skipSpace_append h _
  simp only [readValue, skipSpace_cons (show isSpace '{' = false from rfl), hclose]

/-! ## What is spelled is read -/

theorem SpellsSpaced.exists_head (h : SpellsSpaced value t) (rest : Text) :
    ∃ c u, skipSpace (t ++ rest) = c :: u ∧ c ≠ ']' := by
  cases h with
  | @around _ front t back hfront h hback =>
    obtain ⟨c, u, rfl, hspace, hc⟩ := h.exists_head
    refine ⟨c, u ++ (back ++ rest), ?_, hc⟩
    rw [List.append_assoc, skipSpace_append hfront, List.append_assoc]
    exact skipSpace_cons hspace _

theorem SpellsElements.exists_head {values : List Json} (h : SpellsElements values t) (rest : Text) :
    ∃ c u, skipSpace (t ++ rest) = c :: u ∧ c ≠ ']' := by
  cases h with
  | last h => exact h.exists_head rest
  | more h _ =>
    rw [List.append_assoc]
    exact h.exists_head _

theorem SpellsMember.exists_head {member : Option Text × Json} (h : SpellsMember member t)
    (rest : Text) : ∃ u, skipSpace (t ++ rest) = '"' :: u := by
  cases h with
  | @named _ _ front key back t hfront hkey hback h =>
    cases hkey with
    | @quoted _ _ body hpieces hname =>
      refine ⟨body ++ ('"' :: (back ++ ':' :: (t ++ rest))), ?_⟩
      rw [List.append_assoc, skipSpace_append hfront]
      simp [skipSpace_cons (show isSpace '"' = false from rfl)]

theorem SpellsMembers.exists_head {members : List (Option Text × Json)} (h : SpellsMembers members t)
    (rest : Text) : ∃ u, skipSpace (t ++ rest) = '"' :: u := by
  cases h with
  | last h => exact h.exists_head rest
  | more h _ =>
    rw [List.append_assoc]
    exact h.exists_head _

/-- What stands behind the space that closes a value closes it too. -/
theorem Closes.gap_append {gap : Text} (h : IsGap gap) (hrest : Closes rest) : Closes (gap ++ rest) := by
  cases gap with
  | nil => exact hrest
  | cons c gap =>
    intro d hd
    cases hd
    exact .inl (h c List.mem_cons_self)

mutual

/-- **A value is read as what it spells**, whatever closes it. -/
theorem Spells.read {value : Json} {t : Text} (h : Spells value t) (depth : Nat) (rest : Text)
    (hdepth : t.length ≤ depth) (hrest : Closes rest) :
    readValue depth (t ++ rest) = some (value, rest) := by
  obtain ⟨depth, rfl⟩ : ∃ n, depth = n + 1 := by
    obtain ⟨c, u, rfl, -⟩ := h.exists_head
    exact ⟨depth - 1, by rw [List.length_cons] at hdepth; omega⟩
  match h with
  | .nullWord => rfl
  | .trueWord => rfl
  | .falseWord => rfl
  | .number h => exact readValue_number h hrest depth
  | .string h => exact readValue_string h rest depth
  | .broken h => exact readValue_string h rest depth
  | .emptyArray h =>
    rw [List.cons_append, List.append_assoc]
    exact readValue_emptyArray h rest depth
  | .emptyObject h =>
    rw [List.cons_append, List.append_assoc]
    exact readValue_emptyObject h rest depth
  | .array h =>
    rw [List.length_cons, List.length_append, List.length_singleton] at hdepth
    obtain ⟨c, u, hskip, hc⟩ := h.exists_head (']' :: rest)
    rw [List.cons_append, List.append_assoc, List.singleton_append, readValue_array hskip hc,
      h.read depth rest (by omega)]
    rfl
  | .object h =>
    rw [List.length_cons, List.length_append, List.length_singleton] at hdepth
    obtain ⟨u, hskip⟩ := h.exists_head ('}' :: rest)
    rw [List.cons_append, List.append_assoc, List.singleton_append,
      readValue_object hskip (by decide), h.read depth rest (by omega)]
    rfl

/-- Of the space around a value what is in front is skipped, and what is behind is left. -/
theorem SpellsSpaced.read {value : Json} {t : Text} (h : SpellsSpaced value t) (depth : Nat)
    (rest : Text) (hdepth : t.length ≤ depth) (hrest : Closes rest) :
    ∃ left, readValue depth (t ++ rest) = some (value, left) ∧ skipSpace left = skipSpace rest := by
  match h with
  | @SpellsSpaced.around value front t back hfront h hback =>
    rw [List.length_append, List.length_append] at hdepth
    refine ⟨back ++ rest, ?_, skipSpace_append hback rest⟩
    rw [List.append_assoc, List.append_assoc, readValue_gap hfront]
    exact h.read depth (back ++ rest) (by omega) (hrest.gap_append hback)

theorem SpellsElements.read {values : List Json} {t : Text} (h : SpellsElements values t)
    (depth : Nat) (rest : Text) (hdepth : t.length < depth) :
    readElements depth (t ++ ']' :: rest) = some (values, rest) := by
  obtain ⟨depth, rfl⟩ : ∃ n, depth = n + 1 := ⟨depth - 1, by omega⟩
  match h with
  | .last h =>
    obtain ⟨left, hread, hskip⟩ := h.read depth (']' :: rest) (by omega) (by simp [Closes])
    have hclose : skipSpace left = ']' :: rest := hskip
    simp only [readElements, hread, hclose]
  | @SpellsElements.more value values t s h hmore =>
    rw [List.length_append, List.length_cons] at hdepth
    obtain ⟨left, hread, hskip⟩ := h.read depth (',' :: (s ++ ']' :: rest)) (by omega)
      (by simp [Closes])
    have hcomma : skipSpace left = ',' :: (s ++ ']' :: rest) := hskip
    have hothers := hmore.read depth rest (by omega)
    rw [List.append_assoc, List.cons_append]
    simp only [readElements, hread, hcomma, hothers, Option.map_some]

/-- A member is read in front of a comma and in front of the end of the object. -/
theorem SpellsMember.read {member : Option Text × Json} {t : Text} (h : SpellsMember member t)
    (depth : Nat) (rest : Text) (hdepth : t.length ≤ depth) :
    readMembers (depth + 1) (t ++ ',' :: rest) =
        (readMembers depth rest).map (fun r => (member :: r.1, r.2)) ∧
      readMembers (depth + 1) (t ++ '}' :: rest) = some ([member], rest) := by
  match h with
  | @SpellsMember.named name value front key back t hfront hkey hback h =>
    obtain @⟨pieces, _, body, hpieces, hname⟩ := hkey
    have hlength : t.length ≤ depth := by
      simp only [List.length_append, List.length_cons] at hdepth
      omega
    have hopen : ∀ u : Text, skipSpace (front ++ ('"' :: (body ++ '"' :: (back ++ ':' :: u)))) =
        '"' :: (body ++ '"' :: (back ++ ':' :: u)) := fun u => skipSpace_append hfront _
    have hcolon : ∀ u : Text, skipSpace (back ++ ':' :: u) = ':' :: u := fun u =>
      skipSpace_append hback _
    simp only [List.append_assoc, List.cons_append, List.nil_append]
    constructor
    · obtain ⟨left, hread, hskip⟩ := h.read depth (',' :: rest) hlength (by simp [Closes])
      have hcomma : skipSpace left = ',' :: rest := hskip
      simp only [readMembers, hopen, readPieces_append hpieces, hcolon, hread, hcomma, hname]
    · obtain ⟨left, hread, hskip⟩ := h.read depth ('}' :: rest) hlength (by simp [Closes])
      have hclose : skipSpace left = '}' :: rest := hskip
      simp only [readMembers, hopen, readPieces_append hpieces, hcolon, hread, hclose, hname]

theorem SpellsMembers.read {members : List (Option Text × Json)} {t : Text}
    (h : SpellsMembers members t) (depth : Nat) (rest : Text) (hdepth : t.length < depth) :
    readMembers depth (t ++ '}' :: rest) = some (members, rest) := by
  obtain ⟨depth, rfl⟩ : ∃ n, depth = n + 1 := ⟨depth - 1, by omega⟩
  match h with
  | .last h => exact (h.read depth rest (by omega)).2
  | .more h hmore =>
    rw [List.length_append, List.length_cons] at hdepth
    rw [List.append_assoc, List.cons_append, (h.read depth _ (by omega)).1,
      hmore.read depth rest (by omega)]
    rfl

end

/-! ## What is read is spelled -/

/-- What the readers of some depth accept is spelled as they read it. -/
structure Sound (depth : Nat) : Prop where
  value : ∀ {t rest : Text} {value : Json}, readValue depth t = some (value, rest) →
    ∃ gap s, IsGap gap ∧ Spells value s ∧ t = gap ++ (s ++ rest)
  elements : ∀ {t rest : Text} {values : List Json}, readElements depth t = some (values, rest) →
    ∃ s, SpellsElements values s ∧ t = s ++ ']' :: rest
  members : ∀ {t rest : Text} {members : List (Option Text × Json)},
    readMembers depth t = some (members, rest) → ∃ s, SpellsMembers members s ∧ t = s ++ '}' :: rest

/-- A value with the space behind it. -/
theorem Sound.spaced (h : Sound depth) {t left rest : Text} {value : Json}
    (hread : readValue depth t = some (value, left)) (hskip : skipSpace left = rest) :
    ∃ s, SpellsSpaced value s ∧ t = s ++ rest := by
  obtain ⟨front, s, hfront, hs, rfl⟩ := h.value hread
  obtain ⟨back, hback, hleft⟩ := exists_gap left
  refine ⟨front ++ (s ++ back), .around hfront hs hback, ?_⟩
  rw [hleft, hskip, List.append_assoc, List.append_assoc]

theorem Sound.value_succ (h : Sound depth) {t rest : Text} {value : Json}
    (hread : readValue (depth + 1) t = some (value, rest)) :
    ∃ gap s, IsGap gap ∧ Spells value s ∧ t = gap ++ (s ++ rest) := by
  obtain ⟨gap, hgap, ht⟩ := exists_gap t
  suffices hspells : ∃ s, Spells value s ∧ skipSpace t = s ++ rest by
    obtain ⟨s, hs, hskip⟩ := hspells
    exact ⟨gap, s, hgap, hs, by rw [← hskip]; exact ht⟩
  rw [readValue] at hread
  split at hread
  case h_1 heq => cases hread; exact ⟨_, .nullWord, heq⟩
  case h_2 heq => cases hread; exact ⟨_, .trueWord, heq⟩
  case h_3 heq => cases hread; exact ⟨_, .falseWord, heq⟩
  case h_4 body heq =>
    obtain ⟨⟨pieces, left⟩, hpieces, hresult⟩ := Option.map_eq_some_iff.1 hread
    obtain ⟨body, hbody, rfl⟩ := exists_of_readPieces hpieces
    rw [heq]
    dsimp only at hresult
    split at hresult
    · next content hcontent =>
      cases hresult
      exact ⟨_, .string (.quoted hbody hcontent), by simp⟩
    · next hcontent =>
      cases hresult
      exact ⟨_, .broken (.quoted hbody hcontent), by simp⟩
  case h_5 inside heq =>
    rw [heq]
    split at hread
    · next hclose =>
      cases hread
      obtain ⟨inner, hinner, hinside⟩ := exists_gap inside
      rw [hclose] at hinside
      exact ⟨_, .emptyArray hinner, by simp [hinside]⟩
    · obtain ⟨⟨values, left⟩, helements, hresult⟩ := Option.map_eq_some_iff.1 hread
      obtain ⟨s, hs, rfl⟩ := h.elements helements
      cases hresult
      exact ⟨_, .array hs, by simp⟩
  case h_6 inside heq =>
    rw [heq]
    split at hread
    · next hclose =>
      cases hread
      obtain ⟨inner, hinner, hinside⟩ := exists_gap inside
      rw [hclose] at hinside
      exact ⟨_, .emptyObject hinner, by simp [hinside]⟩
    · obtain ⟨⟨members, left⟩, hmembers, hresult⟩ := Option.map_eq_some_iff.1 hread
      obtain ⟨s, hs, rfl⟩ := h.members hmembers
      cases hresult
      exact ⟨_, .object hs, by simp⟩
  case h_7 =>
    obtain ⟨n, hlength, hresult⟩ := Option.map_eq_some_iff.1 hread
    cases hresult
    exact ⟨_, .number (isNumber_take hlength), (List.take_append_drop n _).symm⟩

theorem Sound.elements_succ (h : Sound depth) {t rest : Text} {values : List Json}
    (hread : readElements (depth + 1) t = some (values, rest)) :
    ∃ s, SpellsElements values s ∧ t = s ++ ']' :: rest := by
  rw [readElements] at hread
  split at hread
  · cases hread
  · next value left hvalue =>
    split at hread
    · next hskip =>
      obtain ⟨⟨others, left⟩, hothers, hresult⟩ := Option.map_eq_some_iff.1 hread
      cases hresult
      obtain ⟨s, hs, rfl⟩ := h.spaced hvalue hskip
      obtain ⟨s', hs', rfl⟩ := h.elements hothers
      exact ⟨_, .more hs hs', by simp⟩
    · next hskip =>
      cases hread
      obtain ⟨s, hs, rfl⟩ := h.spaced hvalue hskip
      exact ⟨_, .last hs, rfl⟩
    · cases hread

theorem Sound.members_succ (h : Sound depth) {t rest : Text} {members : List (Option Text × Json)}
    (hread : readMembers (depth + 1) t = some (members, rest)) :
    ∃ s, SpellsMembers members s ∧ t = s ++ '}' :: rest := by
  rw [readMembers] at hread
  split at hread
  case h_2 => cases hread
  case h_1 hopen =>
    split at hread
    · cases hread
    · next pieces left hpieces =>
      split at hread
      case h_2 => cases hread
      case h_1 hcolon =>
        split at hread
        · cases hread
        · next value left' hvalue =>
          obtain ⟨front, hfront, ht⟩ := exists_gap t
          obtain ⟨body, hbody, hbodyText⟩ := exists_of_readPieces hpieces
          obtain ⟨back, hback, hleft⟩ := exists_gap left
          rw [hopen, hbodyText, hleft, hcolon] at ht
          -- A member with what is behind it, be it a comma or the end of the object.
          have hmember : ∀ behind, skipSpace left' = behind →
              ∃ s, SpellsMember (assemble pieces, value) s ∧ t = s ++ behind := by
            intro behind hskip
            obtain ⟨s, hs, hspaced⟩ := h.spaced hvalue hskip
            refine ⟨_, .named hfront (.quoted hbody rfl) hback hs, ?_⟩
            rw [ht, hspaced]
            simp
          dsimp only at hread
          split at hread
          · next hskip =>
            obtain ⟨⟨others, left⟩, hothers, hresult⟩ := Option.map_eq_some_iff.1 hread
            cases hresult
            obtain ⟨s, hs, rfl⟩ := hmember _ hskip
            obtain ⟨s', hs', rfl⟩ := h.members hothers
            exact ⟨_, .more hs hs', by simp⟩
          · next hskip =>
            cases hread
            obtain ⟨s, hs, rfl⟩ := hmember _ hskip
            exact ⟨_, .last hs, rfl⟩
          · cases hread

/-- What the readers accept is spelled as they read it, at every depth. -/
theorem sound (depth : Nat) : Sound depth := by
  induction depth with
  | zero =>
    refine ⟨fun h => ?_, fun h => ?_, fun h => ?_⟩
    · cases h
    · cases h
    · cases h
  | succ depth ih => exact ⟨ih.value_succ, ih.elements_succ, ih.members_succ⟩

/-! ## Texts -/

/-- **A text is read as a value exactly if it spells the value.** -/
theorem parse_eq_some_iff : parse t = some value ↔ SpellsSpaced value t := by
  rw [parse]
  constructor
  · intro h
    split at h
    · next left hread =>
      split at h
      · next hempty =>
        cases h
        obtain ⟨s, hs, ht⟩ := (sound _).spaced hread (List.isEmpty_iff.1 hempty)
        rw [List.append_nil] at ht
        exact ht ▸ hs
      · cases h
    · cases h
  · intro h
    obtain ⟨left, hread, hskip⟩ := h.read (t.length + 1) [] (by omega) (by simp [Closes])
    have hempty : skipSpace left = [] := hskip
    rw [List.append_nil] at hread
    rw [hread]
    simp only [hempty, List.isEmpty_nil, if_true]

end ProjectFile.Json
