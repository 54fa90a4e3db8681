import ProjectFile.Proofs.Expression.Moved

/-!
Items on their own.

Nothing is carried over a separator. The tokens in front of a `;` that is a token are those of the text
in front of it, and the tokens behind it those of the text behind it (`tokensFrom_cut`): what the
first of them is does not depend on what it does not reach, and a separator is never part of a text
that goes on. The segments behind a separator are found outside of quotes and parentheses, as at the
start of a value (`segmentsFrom_cases`). So the text of a segment has one segment, which is that
segment (`exists_alone`), and one item, which is the same.
-/

namespace ProjectFile.Expression

/-! ## Tokens -/

/-- A token that is no text is the first of all, or behind the others whether or not they are one. -/
theorem prepend_eq_append {t u : Token} {ts front us : List Token}
    (h : t.prepend ts = front ++ u :: us) (hu : u.kind ≠ .text) :
    (front = [] ∧ t = u ∧ ts = us) ∨
      ∃ front', ts = front' ++ u :: us ∧ front = t.prepend front' := by
  cases ts with
  | nil =>
    cases front with
    | nil =>
      cases h
      exact .inl ⟨rfl, rfl, rfl⟩
    | cons f front =>
      exact absurd (List.cons.inj h).2.symm
        (List.append_ne_nil_of_right_ne_nil _ (List.cons_ne_nil _ _))
  | cons v vs =>
    rw [Token.prepend] at h
    split at h
    · next htext =>
      cases front with
      | nil =>
        obtain ⟨rfl, -⟩ := List.cons.inj h
        exact absurd htext.1 hu
      | cons f front =>
        obtain ⟨rfl, rfl⟩ := List.cons.inj h
        refine .inr ⟨v :: front, rfl, ?_⟩
        rw [Token.prepend, if_pos htext]
    · next hnot =>
      cases front with
      | nil =>
        obtain ⟨rfl, rfl⟩ := List.cons.inj h
        exact .inl ⟨rfl, rfl, rfl⟩
      | cons f front =>
        obtain ⟨rfl, hrest⟩ := List.cons.inj h
        refine .inr ⟨front, hrest, ?_⟩
        cases front with
        | nil => rfl
        | cons g front =>
          obtain ⟨rfl, -⟩ := List.cons.inj hrest
          rw [Token.prepend, if_neg hnot]

/-- **The tokens around a separator are the tokens of the texts around it.** -/
theorem tokensFrom_cut {w : Text} {offset skip : Nat} {front us : List Token} {u : Token}
    (h : tokensFrom offset skip w = front ++ u :: us) (hu : u.kind = .semicolon) :
    ∃ a b, w = a ++ ';' :: b ∧ skip ≤ a.length ∧ front = tokensFrom offset skip a ∧
      u.span = ⟨offset + a.width, offset + a.width + 1⟩ ∧
      us = tokensFrom (offset + a.width + 1) 0 b := by
  have hkind : u.kind ≠ .text := by
    rw [hu]
    decide
  induction w generalizing offset skip front with
  | nil =>
    rw [tokensFrom] at h
    exact absurd h.symm (List.append_ne_nil_of_right_ne_nil _ (List.cons_ne_nil _ _))
  | cons c w ih =>
    cases skip with
    | succ skip =>
      rw [tokensFrom] at h
      obtain ⟨a, b, rfl, hskip, rfl, hspan, rfl⟩ := ih h
      refine ⟨c :: a, b, rfl, Nat.succ_le_succ hskip, rfl, ?_, ?_⟩
      · rw [hspan, Text.width_cons, Nat.add_assoc offset]
      · rw [Text.width_cons, Nat.add_assoc offset c.utf8Size]
    | zero =>
      rw [tokensFrom] at h
      rcases prepend_eq_append h hkind with ⟨rfl, rfl, rfl⟩ | ⟨front', hrest, rfl⟩
      · have hsign : (readToken c w).1.sign? = some [';'] := congrArg TokenKind.sign? hu
        obtain rfl := eq_of_sign? hsign
        exact ⟨[], w, rfl, Nat.le_refl 0, rfl, rfl, rfl⟩
      · obtain ⟨a, b, rfl, hskip, rfl, hspan, rfl⟩ := ih hrest
        have hle : (readToken c (a ++ ';' :: b)).2 ≤ a.length + 1 := by omega
        have hread := readToken_append c hle
        rw [hread] at hle ⊢
        refine ⟨c :: a, b, rfl, Nat.zero_le _, ?_, ?_, ?_⟩
        · rw [tokensFrom, ← List.cons_append, List.take_append_of_le_length hle]
        · rw [hspan, Text.width_cons, Nat.add_assoc offset]
        · rw [Text.width_cons, Nat.add_assoc offset c.utf8Size]

/-! ## Segments -/

/-- Whether no token is a separator, at a depth of parentheses and inside or outside quotes. -/
def Unsplit (depth : Nat) (inQuote : Bool) (ts : List Token) : Prop :=
  ∀ stop start, segmentsFrom stop start depth inQuote ts = [⟨⟨start, stop⟩, ts⟩]

/-- A token that is no separator is in the segment of what is behind it, whatever that is. -/
theorem exists_depth {depth : Nat} {inQuote : Bool} {t : Token}
    (h : ¬ (t.kind = .semicolon ∧ depth = 0 ∧ inQuote = false)) : ∃ depth' inQuote',
      ∀ ts stop start, segmentsFrom stop start depth inQuote (t :: ts) =
        match segmentsFrom stop start depth' inQuote' ts with
        | [] => []
        | s :: segments => { s with tokens := t :: s.tokens } :: segments := by
  refine ⟨if inQuote then depth else if t.kind.opens then depth + 1
    else if t.kind = .rightParen then depth - 1 else depth,
    if t.kind = .quote then !inQuote else inQuote, fun ts stop start => ?_⟩
  rw [segmentsFrom]
  exact if_neg h

/-- Tokens are one segment, or the first of them are, and a separator and others come behind. -/
theorem segmentsFrom_cases (depth : Nat) (inQuote : Bool) (ts : List Token) :
    Unsplit depth inQuote ts ∨ ∃ front u us, ts = front ++ u :: us ∧ u.kind = .semicolon ∧
      Unsplit depth inQuote front ∧ ∀ stop start, segmentsFrom stop start depth inQuote ts =
        ⟨⟨start, u.start⟩, front⟩ :: segmentsFrom stop u.span.stop 0 false us := by
  induction ts generalizing depth inQuote with
  | nil => exact .inl fun _ _ => rfl
  | cons t ts ih =>
    by_cases hseparates : t.kind = .semicolon ∧ depth = 0 ∧ inQuote = false
    · obtain ⟨hkind, rfl, rfl⟩ := hseparates
      refine .inr ⟨[], t, ts, rfl, hkind, fun _ _ => rfl, fun stop start => ?_⟩
      rw [segmentsFrom, if_pos ⟨hkind, rfl, rfl⟩]
    · obtain ⟨depth', inQuote', hstep⟩ := exists_depth hseparates
      rcases ih depth' inQuote' with hall | ⟨front, u, us, rfl, hkind, hfront, hall⟩
      · refine .inl fun stop start => ?_
        rw [hstep, hall]
      · refine .inr ⟨t :: front, u, us, rfl, hkind, fun stop start => ?_, fun stop start => ?_⟩
        · rw [hstep, hfront]
        · rw [hstep, hall]

/-- Whether a segment has the tokens of its text, and no separator among them. -/
structure Segment.IsAlone (s : Segment) : Prop where
  stop_eq : s.span.stop = s.span.start + s.text.width
  tokens_eq : s.tokens = tokensFrom s.span.start 0 s.text
  unsplit : Unsplit 0 false s.tokens

theorem isAlone_of_unsplit {offset : Nat} {w : Text} (h : Unsplit 0 false (tokensFrom offset 0 w)) :
    Segment.IsAlone ⟨⟨offset, offset + w.width⟩, tokensFrom offset 0 w⟩ := by
  have htext : Segment.text ⟨⟨offset, offset + w.width⟩, tokensFrom offset 0 w⟩ = w :=
    flatMap_text_tokensFrom offset w
  refine ⟨?_, ?_, h⟩
  · rw [htext]
  · rw [htext]

/-- The segments of a text are alone: the recursion goes from separator to separator. -/
theorem isAlone_of_mem_segmentsFrom (offset : Nat) (w : Text) :
    ∀ s ∈ segmentsFrom (offset + w.width) offset 0 false (tokensFrom offset 0 w), s.IsAlone := by
  rcases segmentsFrom_cases 0 false (tokensFrom offset 0 w) with
    hall | ⟨front, u, us, hcut, hkind, hfront, hall⟩
  · rw [hall]
    exact List.forall_mem_singleton.2 (isAlone_of_unsplit hall)
  · obtain ⟨a, b, hw, -, rfl, hspan, rfl⟩ := tokensFrom_cut hcut hkind
    have hstart : u.start = offset + a.width := congrArg Span.start hspan
    have hstop : offset + w.width = offset + a.width + 1 + Text.width b := by
      have hwidth : Text.width (';' :: b) = 1 + Text.width b := Text.width_cons ';' b
      rw [hw, Text.width_append, hwidth]
      omega
    have hlt : b.length < w.length := by
      rw [hw, List.length_append, List.length_cons]
      omega
    rw [hall, hstart, hspan, hstop]
    exact List.forall_mem_cons.2
      ⟨isAlone_of_unsplit hfront, isAlone_of_mem_segmentsFrom (offset + a.width + 1) b⟩
termination_by w.length

/-- **The text of a segment is a value with that one segment.** -/
theorem exists_alone {t : Text} {s : Segment} (hs : s ∈ segments t) :
    ∃ alone, segments s.text = [alone] ∧ alone.moved s.span.start = s := by
  have hmem : s ∈ segmentsFrom (0 + t.width) 0 0 false (tokensFrom 0 0 t) := by
    rw [Nat.zero_add]
    exact hs
  obtain ⟨hstop, htokens, hunsplit⟩ := isAlone_of_mem_segmentsFrom 0 t s hmem
  have hmoved : s.tokens = (tokens s.text).map (Token.moved s.span.start) := by
    rw [tokens, ← tokensFrom_add, Nat.zero_add]
    exact htokens
  have hsegments : (segments s.text).map (Segment.moved s.span.start) = [s] := by
    have hstop' : s.text.width + s.span.start = s.span.stop := by omega
    rw [segments, ← segmentsFrom_moved, ← hmoved, Nat.zero_add, hunsplit, hstop']
  obtain ⟨alone, halone, heq⟩ := List.map_eq_singleton_iff.1 hsegments
  exact ⟨alone, halone, heq⟩

/-! ## Items -/

/-- **List items are independent of their neighbours.** The text between the separators around an item,
read as a list of its own, has that one item, which stands further on in the whole text. -/
theorem items_slice (t : Text) : ∀ item ∈ (parseList t).items, ∃ alone,
    (parseList (t.slice (SimpleList.segmentOf item).start (SimpleList.segmentOf item).stop)).items =
      [alone] ∧ alone.moved (SimpleList.segmentOf item).start = item := by
  intro item hitem
  rw [items_parseList] at hitem
  obtain ⟨s, hs, rfl⟩ := List.mem_map.1 hitem
  obtain ⟨alone, halone, heq⟩ := exists_alone hs
  have htext : t.slice s.span.start s.span.stop = s.text :=
    ((line_segments t).stands s hs).covers.slice_eq
  refine ⟨alone.item alone.expression, ?_, ?_⟩
  · rw [Segment.segmentOf_item, htext, items_parseList, halone]
    rfl
  · rw [Segment.segmentOf_item, ← Segment.item_moved, heq]

/-- What ends the entity is no separator, and the quote that is not closed is that of its item. -/
theorem items_slice_quote : ∃ item ∈ (parseList "a&amp;b;'c".toList).items,
    SimpleList.segmentOf item = ⟨8, 10⟩ ∧ ∃ alone,
      (parseList (Text.slice "a&amp;b;'c".toList 8 10)).items = [alone] ∧ alone.moved 8 = item := by
  have hsegments : ⟨8, 10⟩ ∈ (parseList "a&amp;b;'c".toList).items.map SimpleList.segmentOf := by
    decide +kernel
  obtain ⟨item, hitem, hsegment⟩ := List.mem_map.1 hsegments
  have halone := items_slice "a&amp;b;'c".toList item hitem
  rw [hsegment] at halone
  exact ⟨item, hitem, hsegment, halone⟩

end ProjectFile.Expression
