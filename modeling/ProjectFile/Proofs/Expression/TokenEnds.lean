import Mathlib.Data.List.Find
import ProjectFile.Expression.Token
import ProjectFile.Proofs.Text.Front

/-!
Where tokens end.

Some signs belong to no word: a token that begins in front of one of them ends there, whatever comes
behind (`readToken_before`), unless the two are an arrow. So the tokens of a text do not depend on
what such a sign is followed by, nor on which of them it is.

Of what is behind it a token depends on nothing that it does not reach: it is the same where that is
cut off (`readToken_append`).
-/

namespace ProjectFile.Expression

/-! ## Words -/

/-- What ends an identifier and is no `-` ends it whatever comes behind. -/
theorem identifierLength_before {c : Char} (hc : isWordChar c = false) (hdash : c ≠ '-')
    (w rest : Text) : identifierLength (w ++ c :: rest) = identifierLength w := by
  have hnone : identifierLength (c :: rest) = 0 := by
    cases rest <;> simp [identifierLength, hc, hdash]
  fun_induction identifierLength w with
  | case1 => exact hnone
  | case2 d hd => simp [identifierLength, hd, hnone]
  | case3 d hd => simp [identifierLength, hd, hc]
  | case4 d e w hd ih =>
    have hrest : identifierLength (e :: (w ++ c :: rest)) = identifierLength (e :: w) := ih
    simp [identifierLength, hd, hrest]
  | case5 d e w hd hjoins ih => simp [identifierLength, hd, hjoins, ih]
  | case6 d e w hd hjoins => simp [identifierLength, hd, hjoins]

theorem identifierLength_le (w : Text) : identifierLength w ≤ w.length := by
  fun_induction identifierLength w with
  | case1 => exact Nat.le_refl 0
  | case2 d hd => exact Nat.le_refl 1
  | case3 d hd => exact Nat.zero_le _
  | case4 d e w hd ih => exact Nat.succ_le_succ ih
  | case5 d e w hd hjoins ih => exact Nat.add_le_add_right ih 2
  | case6 d e w hd hjoins => exact Nat.zero_le _

/-! ## Signs -/

/-- The signs that belong to no word: what begins a reference, angle brackets and the apostrophe. -/
def boundarySigns : Text := ['&', '<', '>', '\'']

theorem forall_boundarySigns {p : Char → Prop} :
    (∀ d ∈ boundarySigns, p d) ↔ p '&' ∧ p '<' ∧ p '>' ∧ p '\'' := by
  simp [boundarySigns]

/-! ## Entities -/

theorem entityLength_hex (v : Text) : entityLength ('#' :: 'x' :: v) =
    if Text.lengthWhile isHexDigit v = 0 then 1
    else closedLength (Text.lengthWhile isHexDigit v + 2) (v.drop (Text.lengthWhile isHexDigit v)) :=
  rfl

theorem entityLength_decimal {v : Text} (h : v.head? ≠ some 'x') : entityLength ('#' :: v) =
    if Text.lengthWhile Char.isDigit v = 0 then 1
    else closedLength (Text.lengthWhile Char.isDigit v + 1)
      (v.drop (Text.lengthWhile Char.isDigit v)) := by
  rw [entityLength]
  rintro t rfl
  exact h rfl

theorem entityLength_named {c : Char} (hc : c ≠ '#') (v : Text) : entityLength (c :: v) =
    if isLetter c then
      closedLength (Text.lengthWhile isEntityChar v + 1) (v.drop (Text.lengthWhile isEntityChar v))
    else 0 := by
  rw [entityLength]
  · exact fun t heq => absurd heq hc
  · exact hc

section

variable {d : Char} (hd : d ∈ boundarySigns) (w rest : Text)

include hd

/-- What follows the digits or the name of an entity is a `;` or no part of it. -/
theorem closedLength_before (body : Nat) {n : Nat} (hn : n ≤ w.length) :
    closedLength (n + body) ((w ++ d :: rest).drop n) = closedLength (n + body) (w.drop n) ∧
      closedLength (n + body) (w.drop n) ≤ w.length + body := by
  have hsemicolon : ∀ d ∈ boundarySigns, d ≠ ';' := forall_boundarySigns.2 (by decide)
  have hlength : (w.drop n).length = w.length - n := List.length_drop
  rw [List.drop_append_of_le_length hn]
  cases hdrop : w.drop n with
  | nil =>
    refine ⟨?_, ?_⟩
    · simp [closedLength, hsemicolon d hd]
    · simp only [closedLength, List.head?_nil, reduceCtorEq, if_false]
      omega
  | cons c u =>
    rw [hdrop, List.length_cons] at hlength
    refine ⟨rfl, ?_⟩
    unfold closedLength
    split <;> omega

/-- An entity ends before such a sign, whatever comes behind. -/
theorem entityLength_before :
    entityLength (w ++ d :: rest) = entityLength w ∧ entityLength w ≤ w.length := by
  have hhex : ∀ d ∈ boundarySigns, isHexDigit d = false := forall_boundarySigns.2 (by decide)
  have hdigit : ∀ d ∈ boundarySigns, Char.isDigit d = false := forall_boundarySigns.2 (by decide)
  have hentity : ∀ d ∈ boundarySigns, isEntityChar d = false := forall_boundarySigns.2 (by decide)
  have hletter : ∀ d ∈ boundarySigns, isLetter d = false := forall_boundarySigns.2 (by decide)
  have hhash : ∀ d ∈ boundarySigns, d ≠ '#' := forall_boundarySigns.2 (by decide)
  have hx : ∀ d ∈ boundarySigns, d ≠ 'x' := forall_boundarySigns.2 (by decide)
  cases w with
  | nil =>
    rw [List.nil_append, entityLength_named (hhash d hd), hletter d hd]
    exact ⟨rfl, Nat.zero_le _⟩
  | cons c v =>
    rw [List.cons_append]
    by_cases hc : c = '#'
    · subst hc
      by_cases hv : v.head? = some 'x'
      · obtain ⟨v, rfl⟩ := List.head?_eq_some_iff.1 hv
        have hend := closedLength_before hd v rest 2 (Text.lengthWhile_le isHexDigit v)
        rw [List.cons_append, entityLength_hex, entityLength_hex, Text.lengthWhile_before (hhex d hd)]
        split
        · exact ⟨rfl, Nat.le_add_left 1 _⟩
        · exact hend
      · have hv' : (v ++ d :: rest).head? ≠ some 'x' := by
          cases v with
          | nil => simpa using hx d hd
          | cons e v => exact hv
        have hend := closedLength_before hd v rest 1 (Text.lengthWhile_le Char.isDigit v)
        rw [entityLength_decimal hv, entityLength_decimal hv', Text.lengthWhile_before (hdigit d hd)]
        split
        · exact ⟨rfl, Nat.le_add_left 1 _⟩
        · exact hend
    · have hend := closedLength_before hd v rest 1 (Text.lengthWhile_le isEntityChar v)
      rw [entityLength_named hc, entityLength_named hc, Text.lengthWhile_before (hentity d hd)]
      split
      · exact hend
      · exact ⟨rfl, Nat.zero_le _⟩

omit hd in
/-- A text is in front of both or of neither if it does not hold the sign. -/
theorem isPrefixOf_before {v : Text} (hv : d ∉ v) :
    v.isPrefixOf (w ++ d :: rest) = v.isPrefixOf w := by
  induction v generalizing w with
  | nil => simp
  | cons e v ih =>
    rw [List.mem_cons, not_or] at hv
    cases w with
    | nil =>
      rw [List.nil_append, List.isPrefixOf_cons_cons, beq_false_of_ne (Ne.symm hv.1)]
      rfl
    | cons c w =>
      rw [List.cons_append, List.isPrefixOf_cons_cons, List.isPrefixOf_cons_cons, ih w hv.2]

theorem readEntity_before :
    readEntity ('&' :: (w ++ d :: rest)) = readEntity ('&' :: w) ∧
      (readEntity ('&' :: w)).2 ≤ w.length + 1 := by
  have hentities : ∀ entity ∈ operatorEntities, entity.1 = '&' :: entity.1.tail ∧
      ∀ d ∈ boundarySigns, d ∉ entity.1.tail := by
    simp only [forall_boundarySigns]
    decide +kernel
  have hfind : operatorEntities.find? (fun entity => entity.1.isPrefixOf ('&' :: (w ++ d :: rest))) =
      operatorEntities.find? fun entity => entity.1.isPrefixOf ('&' :: w) := by
    refine List.find?_congr fun entity hentity => ?_
    obtain ⟨hamp, hsign⟩ := hentities entity hentity
    rw [hamp, List.isPrefixOf_cons_cons, List.isPrefixOf_cons_cons,
      isPrefixOf_before w rest (hsign d hd)]
  obtain ⟨heq, hle⟩ := entityLength_before hd w rest
  rw [readEntity, readEntity, hfind]
  split
  · next entity hfound =>
    refine ⟨rfl, ?_⟩
    have hprefix := List.find?_some hfound
    exact (List.isPrefixOf_iff_prefix.1 hprefix).length_le
  · refine ⟨?_, Nat.succ_le_succ hle⟩
    rw [List.drop_one, List.tail_cons, List.drop_one, List.tail_cons, heq]

/-- **A token ends before such a sign**, whatever comes behind, unless the two are an arrow. -/
theorem readToken_before (c : Char) (harrow : c = '-' → w = [] → d ≠ '>') :
    readToken c (w ++ d :: rest) = readToken c w ∧ (readToken c w).2 ≤ w.length + 1 := by
  -- Where one character decides, it is not the sign.
  have hpair (e : Char) (he : w = [] → d ≠ e) (k l : TokenKind) :
      let read (t : Text) : TokenKind × Nat := if t.head? == some e then (k, 2) else (l, 1)
      read (w ++ d :: rest) = read w ∧ (read w).2 ≤ w.length + 1 := by
    intro read
    cases w with
    | nil => exact ⟨if_neg (by simpa using he rfl), Nat.le_refl 1⟩
    | cons c w =>
      refine ⟨rfl, ?_⟩
      dsimp only [read]
      rw [List.length_cons]
      split <;> omega
  have hno (e : Char) (he : '&' ≠ e ∧ '<' ≠ e ∧ '>' ≠ e ∧ '\'' ≠ e) : w = [] → d ≠ e := by
    have hne : ∀ d ∈ boundarySigns, d ≠ e := forall_boundarySigns.2 he
    exact fun _ => hne d hd
  unfold readToken
  split
  case h_1 => exact hpair '(' (hno '(' (by decide)) _ _
  case h_2 => exact hpair '(' (hno '(' (by decide)) _ _
  case h_3 => exact hpair '(' (hno '(' (by decide)) _ _
  case h_7 => exact hpair '=' (hno '=' (by decide)) _ _
  case h_8 => exact hpair '=' (hno '=' (by decide)) _ _
  case h_9 => exact hpair '=' (hno '=' (by decide)) _ _
  case h_10 => exact hpair '=' (hno '=' (by decide)) _ _
  case h_11 => exact hpair '>' (harrow rfl) _ _
  case h_15 => exact readEntity_before hd w rest
  case h_16 =>
    have hspace : ∀ d ∈ boundarySigns, Text.isMarkupSpace d = false :=
      forall_boundarySigns.2 (by decide)
    have hdigit : ∀ d ∈ boundarySigns, Char.isDigit d = false := forall_boundarySigns.2 (by decide)
    have hword : ∀ d ∈ boundarySigns, isWordChar d = false := forall_boundarySigns.2 (by decide)
    have hdash : ∀ d ∈ boundarySigns, d ≠ '-' := forall_boundarySigns.2 (by decide)
    have hspaceLength := Text.lengthWhile_le Text.isMarkupSpace w
    have hdigitLength := Text.lengthWhile_le Char.isDigit w
    have hwordLength := identifierLength_le w
    dsimp only
    rw [Text.lengthWhile_before (hspace d hd), Text.lengthWhile_before (hdigit d hd),
      identifierLength_before (hword d hd) (hdash d hd)]
    refine ⟨rfl, ?_⟩
    split
    · exact Nat.succ_le_succ hspaceLength
    split
    · exact Nat.succ_le_succ hwordLength
    split
    · exact Nat.succ_le_succ hdigitLength
    · exact Nat.succ_le_succ (Nat.zero_le _)
  all_goals exact ⟨rfl, Nat.succ_le_succ (Nat.zero_le _)⟩

end

/-! ## Text that is cut off -/

section

variable {w v : Text}

theorem identifierLength_append (h : identifierLength (w ++ v) ≤ w.length) :
    identifierLength (w ++ v) = identifierLength w := by
  fun_induction identifierLength w with
  | case1 => exact Nat.le_zero.1 h
  | case2 c hc =>
    cases v with
    | nil => simp [identifierLength, hc]
    | cons d v => simpa [identifierLength, hc] using h
  | case3 c hc =>
    -- A `-` at the end joins nothing that is cut off.
    cases v with
    | nil => simp [identifierLength, hc]
    | cons d v =>
      cases hjoins : c == '-' && isWordChar d with
      | false => simp [identifierLength, hc, hjoins]
      | true => simp [identifierLength, hc, hjoins] at h
  | case4 c d w hc ih =>
    have hrest : identifierLength (c :: d :: w ++ v) = identifierLength (d :: w ++ v) + 1 := by
      simp [identifierLength, hc]
    rw [hrest] at h ⊢
    rw [ih (Nat.le_of_succ_le_succ h)]
  | case5 c d w hc hjoins ih =>
    have hrest : identifierLength (c :: d :: w ++ v) = identifierLength (w ++ v) + 2 := by
      simp [identifierLength, hc, hjoins]
    rw [hrest] at h ⊢
    rw [ih (Nat.le_of_succ_le_succ (Nat.le_of_succ_le_succ h))]
  | case6 c d w hc hjoins => simp [identifierLength, hc, hjoins]

/-- What follows the digits or the name of an entity is not cut off if it is the `;`. -/
theorem closedLength_append {body n : Nat}
    (h : closedLength (n + body) ((w ++ v).drop n) ≤ w.length + body) :
    n ≤ w.length ∧
      closedLength (n + body) ((w ++ v).drop n) = closedLength (n + body) (w.drop n) := by
  have hn : n ≤ w.length := by
    unfold closedLength at h
    split at h <;> omega
  have hlength : (w.drop n).length = w.length - n := List.length_drop
  refine ⟨hn, ?_⟩
  rw [List.drop_append_of_le_length hn] at h ⊢
  cases hdrop : w.drop n with
  | cons c u => rfl
  | nil =>
    rw [hdrop, List.length_nil] at hlength
    rw [hdrop, List.nil_append] at h
    unfold closedLength at h ⊢
    split at h
    · omega
    · next hv => rw [List.nil_append, if_neg hv, if_neg nofun]

/-- Neither are the digits or the name. -/
theorem closedWhile_append {p : Char → Bool} {body : Nat}
    (h : closedLength (Text.lengthWhile p (w ++ v) + body)
      ((w ++ v).drop (Text.lengthWhile p (w ++ v))) ≤ w.length + body) :
    Text.lengthWhile p (w ++ v) = Text.lengthWhile p w ∧
      closedLength (Text.lengthWhile p (w ++ v) + body)
          ((w ++ v).drop (Text.lengthWhile p (w ++ v))) =
        closedLength (Text.lengthWhile p w + body) (w.drop (Text.lengthWhile p w)) := by
  obtain ⟨hle, hclosed⟩ := closedLength_append h
  have hsame := Text.lengthWhile_append_of_le hle
  rw [hsame] at hclosed ⊢
  exact ⟨rfl, hclosed⟩

/-- A number that is read in front of what is cut off, or the sign that announces it. -/
theorem digitsLength_append (p : Char → Bool) (body : Nat) :
    let read (t : Text) : Nat :=
      if Text.lengthWhile p t = 0 then 1
      else closedLength (Text.lengthWhile p t + body) (t.drop (Text.lengthWhile p t))
    read (w ++ v) ≤ w.length + body → read (w ++ v) = read w := by
  intro read h
  dsimp only [read] at h ⊢
  by_cases hnone : Text.lengthWhile p (w ++ v) = 0
  · have hle : Text.lengthWhile p (w ++ v) ≤ w.length := by omega
    have hsame := Text.lengthWhile_append_of_le hle
    rw [if_pos hnone, if_pos (by rwa [← hsame])]
  · rw [if_neg hnone] at h ⊢
    obtain ⟨hsame, hclosed⟩ := closedWhile_append h
    rw [hclosed, if_neg (by rwa [← hsame])]

theorem le_closedLength (body : Nat) (rest : Text) : body ≤ closedLength body rest := by
  unfold closedLength
  split
  · exact Nat.le_succ body
  · exact Nat.le_refl body

theorem entityLength_number_pos (v : Text) : 0 < entityLength ('#' :: v) := by
  by_cases hx : v.head? = some 'x'
  · obtain ⟨v, rfl⟩ := List.head?_eq_some_iff.1 hx
    rw [entityLength_hex]
    split
    · exact Nat.one_pos
    · exact Nat.lt_of_lt_of_le (Nat.succ_pos _) (le_closedLength _ _)
  · rw [entityLength_decimal hx]
    split
    · exact Nat.one_pos
    · exact Nat.lt_of_lt_of_le (Nat.succ_pos _) (le_closedLength _ _)

theorem entityLength_append (h : entityLength (w ++ v) ≤ w.length) :
    entityLength (w ++ v) = entityLength w := by
  cases w with
  | nil => exact Nat.le_zero.1 h
  | cons c w =>
    rw [List.cons_append] at h ⊢
    by_cases hc : c = '#'
    · subst hc
      cases w with
      | nil =>
        -- The number is cut off whole, and the `#` is left.
        exact Nat.le_antisymm h (entityLength_number_pos v)
      | cons d w =>
        by_cases hd : d = 'x'
        · subst hd
          exact digitsLength_append isHexDigit 2 h
        · have hw (u : Text) : (d :: u).head? ≠ some 'x' := by simpa using hd
          rw [List.cons_append, entityLength_decimal (hw _)] at h ⊢
          rw [entityLength_decimal (hw _)]
          exact digitsLength_append (w := d :: w) Char.isDigit 1 h
    · rw [entityLength_named hc] at h ⊢
      rw [entityLength_named hc]
      split at h
      · next hletter => rw [if_pos hletter, if_pos hletter, (closedWhile_append h).2]
      · next hletter => rw [if_neg hletter, if_neg hletter]

theorem readEntity_append (h : (readEntity ('&' :: (w ++ v))).2 ≤ w.length + 1) :
    readEntity ('&' :: (w ++ v)) = readEntity ('&' :: w) := by
  -- What is in front of the text that is left is in front of the whole, and the other way round if
  -- it is not longer than what is left.
  have hlonger {u : Text} (hu : u.isPrefixOf ('&' :: w) = true) :
      u.isPrefixOf ('&' :: (w ++ v)) = true := by
    rw [List.isPrefixOf_iff_prefix] at hu ⊢
    exact hu.trans (List.prefix_append ('&' :: w) v)
  have hshorter {u : Text} (hu : u.isPrefixOf ('&' :: (w ++ v)) = true)
      (hlength : u.length ≤ w.length + 1) : u.isPrefixOf ('&' :: w) = true := by
    rw [List.isPrefixOf_iff_prefix] at hu ⊢
    exact List.prefix_of_prefix_length_le hu (List.prefix_append ('&' :: w) v) hlength
  unfold readEntity at h ⊢
  cases hfind : operatorEntities.find? fun entity => entity.1.isPrefixOf ('&' :: (w ++ v)) with
  | some entity =>
    rw [hfind] at h
    obtain ⟨hentity, before, behind, hall, hbefore⟩ := List.find?_eq_some_iff_append.1 hfind
    have hfind' : operatorEntities.find? (fun entity => entity.1.isPrefixOf ('&' :: w)) =
        some entity := by
      refine List.find?_eq_some_iff_append.2
        ⟨hshorter hentity h, before, behind, hall, fun other hother => ?_⟩
      have hnot := hbefore other hother
      rw [Bool.not_eq_true'] at hnot ⊢
      exact Bool.eq_false_iff.2 fun hprefix => Bool.eq_false_iff.1 hnot (hlonger hprefix)
    rw [hfind']
  | none =>
    rw [hfind] at h
    have hfind' : operatorEntities.find? (fun entity => entity.1.isPrefixOf ('&' :: w)) = none :=
      List.find?_eq_none.2 fun entity hentity hprefix =>
        List.find?_eq_none.1 hfind entity hentity (hlonger hprefix)
    rw [hfind']
    exact congrArg (fun n => (TokenKind.text, n + 1)) (entityLength_append (Nat.le_of_succ_le_succ h))

/-- **A token does not depend on what is behind it**, so that it is the same if that is cut off. -/
theorem readToken_append (c : Char) (h : (readToken c (w ++ v)).2 ≤ w.length + 1) :
    readToken c (w ++ v) = readToken c w := by
  -- Where two characters are a token, neither is cut off.
  have hpair (d : Char) (k l : TokenKind) :
      let read (t : Text) : TokenKind × Nat := if t.head? == some d then (k, 2) else (l, 1)
      (read (w ++ v)).2 ≤ w.length + 1 → read (w ++ v) = read w := by
    intro read h
    cases w with
    | cons e w => rfl
    | nil =>
      dsimp only [read] at h ⊢
      split at h
      · exact absurd h (Nat.not_succ_le_self 1)
      · next hnot => rw [if_neg hnot, if_neg nofun]
  unfold readToken at h ⊢
  split at h
  case h_1 => exact hpair _ _ _ h
  case h_2 => exact hpair _ _ _ h
  case h_3 => exact hpair _ _ _ h
  case h_7 => exact hpair _ _ _ h
  case h_8 => exact hpair _ _ _ h
  case h_9 => exact hpair _ _ _ h
  case h_10 => exact hpair _ _ _ h
  case h_11 => exact hpair _ _ _ h
  case h_15 => exact readEntity_append h
  case h_16 =>
    dsimp only at h ⊢
    split at h
    · next hspace =>
      rw [if_pos hspace, if_pos hspace, Text.lengthWhile_append_of_le (Nat.le_of_succ_le_succ h)]
    split at h
    · next hspace hletter =>
      rw [if_neg hspace, if_neg hspace, if_pos hletter, if_pos hletter,
        identifierLength_append (Nat.le_of_succ_le_succ h)]
    split at h
    · next hspace hletter hdigit =>
      rw [if_neg hspace, if_neg hspace, if_neg hletter, if_neg hletter, if_pos hdigit, if_pos hdigit,
        Text.lengthWhile_append_of_le (Nat.le_of_succ_le_succ h)]
    · next hspace hletter hdigit =>
      rw [if_neg hspace, if_neg hspace, if_neg hletter, if_neg hletter, if_neg hdigit, if_neg hdigit]
  all_goals rfl

end

end ProjectFile.Expression
