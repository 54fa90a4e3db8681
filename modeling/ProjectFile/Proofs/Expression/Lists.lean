import ProjectFile.Proofs.Expression.Parsed
import ProjectFile.Proofs.Expression.References

/-!
Values as lists.

The segments of a value stand in it with one byte between every two, which is a `;`: a token of that
kind has that text (`text_of_sign?`), so the segments joined by `;` are the value again
(`Segment.Line.covers`). Closed segments therefore never meet, and at an offset there is one of them
(`Span.Parted.exists_touches`). What a list holds is said segment by segment (`items_parseList`),
for the reader that never fails as for the one that does (`items_of_readItemsOf`).
-/

namespace ProjectFile

namespace Span

/-- Whether a span of a text is another one without the blanks at its ends. -/
structure Trims (r s : Span) (t : Text) : Prop where
  /-- Between its start and that of the other there are blanks only. -/
  leading : ∃ w, Covers ⟨s.start, r.start⟩ t w ∧ ∀ c ∈ w, Text.isBlank c = true
  trailing : ∃ w, Covers ⟨r.stop, s.stop⟩ t w ∧ ∀ c ∈ w, Text.isBlank c = true
  /-- It neither begins nor ends with a blank. -/
  inner : ∃ w, r.Covers t w ∧ (∀ c ∈ w.head?, Text.isBlank c = false) ∧
    ∀ c ∈ w.getLast?, Text.isBlank c = false

/-! ## Spans with one byte between -/

/-- Whether spans follow one another from `start` to `stop` with one byte between every two. -/
inductive Parted (stop : Nat) : Nat → List Span → Prop
  | last {start : Nat} (h : start ≤ stop) : Parted stop start [⟨start, stop⟩]
  | cons {start middle : Nat} {rest : List Span} (h : start ≤ middle)
    (hrest : Parted stop (middle + 1) rest) : Parted stop start (⟨start, middle⟩ :: rest)

variable {start stop offset : Nat} {spans : List Span}

theorem Parted.le_start (h : Parted stop start spans) {s : Span} (hs : s ∈ spans) :
    start ≤ s.start := by
  induction h with
  | last => rw [List.mem_singleton.1 hs]
  | cons hle _ ih =>
    rcases List.mem_cons.1 hs with rfl | hs
    · exact Nat.le_refl _
    · have hbehind := ih hs
      omega

/-- **At an offset there is one of the spans, its ends included.** -/
theorem Parted.exists_touches (h : Parted stop start spans) (hstart : start ≤ offset)
    (hstop : offset ≤ stop) : ∃ (i : Nat) (s : Span), spans[i]? = some s ∧ s.touches offset = true ∧
      ∀ (j : Nat) (r : Span), spans[j]? = some r → r.touches offset = true → j = i := by
  induction h with
  | @last start _ =>
    refine ⟨0, ⟨start, stop⟩, rfl, touches_iff.2 ⟨hstart, hstop⟩, ?_⟩
    intro j r hj _
    have hlt := (List.getElem?_eq_some_iff.1 hj).1
    simpa using hlt
  | @cons start middle rest hle hrest ih =>
    rcases Nat.lt_or_ge middle offset with hbehind | hin
    · obtain ⟨i, s, hi, hs, hunique⟩ := ih hbehind
      refine ⟨i + 1, s, hi, hs, ?_⟩
      intro j r hj hr
      cases j with
      | zero =>
        obtain rfl : (⟨start, middle⟩ : Span) = r := by simpa using hj
        have hle : offset ≤ middle := (touches_iff.1 hr).2
        omega
      | succ j => rw [hunique j r hj hr]
    · refine ⟨0, ⟨start, middle⟩, rfl, touches_iff.2 ⟨hstart, hin⟩, ?_⟩
      intro j r hj hr
      cases j with
      | zero => rfl
      | succ j =>
        have hbehind := hrest.le_start (List.mem_of_getElem? hj)
        have htouches := touches_iff.1 hr
        omega

end Span

namespace Expression

/-! ## The text of a sign -/

/-- A token in front of others is one of them, unless it is text that they go on with. -/
theorem mem_of_mem_prepend {u v : Token} {us : List Token} (h : v ∈ u.prepend us)
    (hv : v.kind ≠ .text) : v = u ∨ v ∈ us := by
  cases us with
  | nil => exact .inl (List.mem_singleton.1 h)
  | cons u' us =>
    rw [Token.prepend] at h
    split at h
    · next htext =>
      rcases List.mem_cons.1 h with rfl | h
      · exact absurd htext.1 hv
      · exact .inr (List.mem_cons_of_mem _ h)
    · exact List.mem_cons.1 h

/-- The text of the tokens that have one spelling. -/
def TokenKind.sign? : TokenKind → Option Text
  | .propertyOpen => some ['$', '(']
  | .itemOpen => some ['@', '(']
  | .metadataOpen => some ['%', '(']
  | .leftParen => some ['(']
  | .rightParen => some [')']
  | .semicolon => some [';']
  | _ => none

theorem take_readToken_of_sign? {c : Char} {rest sign : Text}
    (h : (readToken c rest).1.sign? = some sign) : (c :: rest).take (readToken c rest).2 = sign := by
  -- An opener is read where its second character stands.
  have hopener {k : TokenKind} (hk : k.sign? = some [c, '(']) {read : TokenKind × Nat}
      (hread : read = if rest.head? == some '(' then (k, 2) else (.text, 1))
      (hsign : read.1.sign? = some sign) : (c :: rest).take read.2 = sign := by
    subst hread
    split at hsign
    · next hnext =>
      rw [if_pos hnext]
      obtain ⟨rest, rfl⟩ := List.head?_eq_some_iff.1 (beq_iff_eq.1 hnext)
      exact Option.some.inj (hk.symm.trans hsign)
    · cases hsign
  have hnone {asked : Bool} {k l : TokenKind} (hk : k.sign? = none) (hl : l.sign? = none) :
      (if asked then (k, 2) else (l, 1) : TokenKind × Nat).1.sign? ≠ some sign := by
    cases asked
    · exact fun h => nomatch hl.symm.trans h
    · exact fun h => nomatch hk.symm.trans h
  unfold readToken at h ⊢
  split at h
  case h_1 => exact hopener rfl rfl h
  case h_2 => exact hopener rfl rfl h
  case h_3 => exact hopener rfl rfl h
  case h_4 => exact Option.some.inj h
  case h_5 => exact Option.some.inj h
  case h_7 => exact absurd h (hnone rfl rfl)
  case h_8 => exact absurd h (hnone rfl rfl)
  case h_9 => exact absurd h (hnone rfl rfl)
  case h_10 => exact absurd h (hnone rfl rfl)
  case h_11 => exact absurd h (hnone rfl rfl)
  case h_14 => exact Option.some.inj h
  case h_15 =>
    unfold readEntity at h
    split at h
    · next entity hfound =>
      have hall : ∀ entity ∈ operatorEntities, entity.2.sign? = none := by decide
      exact nomatch (hall entity (List.mem_of_find?_eq_some hfound)).symm.trans h
    · cases h
  case h_16 =>
    dsimp only at h
    split at h
    · cases h
    split at h
    · cases h
    split at h <;> cases h
  all_goals cases h

theorem eq_of_sign? {c d : Char} {rest ds : Text}
    (h : (readToken c rest).1.sign? = some (d :: ds)) : c = d := by
  have htake := take_readToken_of_sign? h
  obtain ⟨n, hn⟩ := Nat.exists_eq_add_one_of_ne_zero (Nat.ne_of_gt (readToken_pos c rest))
  rw [hn, List.take_succ_cons] at htake
  exact (List.cons.inj htake).1

/-- A token that is no text is what is read at some place of the text. -/
theorem exists_readToken_of_mem {t : Text} {offset skip : Nat} {u : Token}
    (hu : u ∈ tokensFrom offset skip t) (hkind : u.kind ≠ .text) : ∃ c rest, c :: rest <:+ t ∧
      u.kind = (readToken c rest).1 ∧ u.text = (c :: rest).take (readToken c rest).2 := by
  induction t generalizing offset skip with
  | nil =>
    rw [tokensFrom] at hu
    cases hu
  | cons c t ih =>
    have hbehind {offset skip : Nat} (hu : u ∈ tokensFrom offset skip t) :
        ∃ d rest, d :: rest <:+ c :: t ∧ u.kind = (readToken d rest).1 ∧
          u.text = (d :: rest).take (readToken d rest).2 := by
      obtain ⟨d, rest, hsuffix, hread⟩ := ih hu
      exact ⟨d, rest, hsuffix.trans (List.suffix_cons c t), hread⟩
    cases skip with
    | succ skip => exact hbehind hu
    | zero =>
      rw [tokensFrom] at hu
      rcases mem_of_mem_prepend hu hkind with rfl | hu
      · exact ⟨c, t, List.suffix_refl _, rfl, rfl⟩
      · exact hbehind hu

/-- **A token with one spelling is spelled so.** -/
theorem text_of_sign? {t sign : Text} {offset skip : Nat} {u : Token}
    (hu : u ∈ tokensFrom offset skip t) (h : u.kind.sign? = some sign) : u.text = sign := by
  have hne : u.kind ≠ .text := by
    rintro htext
    rw [htext] at h
    cases h
  obtain ⟨c, rest, -, hkind, htext⟩ := exists_readToken_of_mem hu hne
  rw [htext]
  exact take_readToken_of_sign? (hkind ▸ h)

/-- A separator is one `;`. -/
theorem text_of_semicolon {t : Text} {offset skip : Nat} {u : Token}
    (hu : u ∈ tokensFrom offset skip t) (hkind : u.kind = .semicolon) : u.text = [';'] :=
  text_of_sign? hu (by rw [hkind]; rfl)

/-! ## Segments -/

namespace Segment

variable {t : Text} {start stop : Nat} {segments : List Segment}

/-- Segments in a line have one byte between every two. -/
theorem Line.parted (h : Line t stop start start segments) :
    Span.Parted stop start (segments.map Segment.span) := by
  induction segments generalizing start with
  | nil => cases h
  | cons s segments ih =>
    cases h with
    | last hstand => exact .last hstand.isBoundary.2.2
    | @cons _ _ _ u _ hstand hmem hkind hrest =>
      have htext := text_of_semicolon hmem hkind
      have hstop : u.span.stop = u.start + 1 := by
        rw [Token.span, htext]
        rfl
      rw [hstop] at hrest
      exact .cons hstand.isBoundary.2.2 (ih hrest)

/-- **Segments in a line, joined by `;`, are the text that they stand in.** -/
theorem Line.covers (h : Line t stop start start segments) :
    Span.Covers ⟨start, stop⟩ t ([';'].intercalate (segments.map Segment.text)) := by
  induction segments generalizing start with
  | nil => cases h
  | cons s segments ih =>
    cases h with
    | @last _ _ ts hstand =>
      have hjoined : [';'].intercalate ([Segment.text ⟨⟨start, stop⟩, ts⟩]) =
          ts.flatMap Token.text := by simp [List.intercalate, Segment.text]
      rw [List.map_cons, List.map_nil, hjoined]
      exact hstand.covers
    | @cons _ _ ts u _ hstand hmem hkind hrest =>
      have hne : segments.map Segment.text ≠ [] := by
        intro hnil
        rw [List.map_eq_nil_iff.1 hnil] at hrest
        cases hrest
      have hjoined : [';'].intercalate (ts.flatMap Token.text :: segments.map Segment.text) =
          ts.flatMap Token.text ++ (u.text ++ [';'].intercalate (segments.map Segment.text)) := by
        rw [text_of_semicolon hmem hkind]
        obtain ⟨w, ws, hw⟩ := List.exists_cons_of_ne_nil hne
        rw [hw]
        simp [List.intercalate]
      rw [List.map_cons]
      show Span.Covers _ t ([';'].intercalate (ts.flatMap Token.text :: _))
      rw [hjoined]
      exact hstand.covers.append (Span.Covers.append ((stand_tokens t).covers_of_mem hmem) (ih hrest))

/-! ## Items -/

/-- What a segment is read as, or its trimmed text as a literal. -/
def expression (s : Segment) : Expr :=
  match s.read with
  | .ok e => e
  | .error _ => .literal s.trimmedSpan (Text.trim s.text)

theorem expression_eq {s : Segment} {e : Expr} (h : s.read = .ok e) : s.expression = e := by
  rw [expression, h]

theorem segmentOf_item (s : Segment) (e : Expr) : SimpleList.segmentOf (s.item e) = s.span := by
  unfold item
  split <;> rfl

theorem isEmpty_trimmedSpan_iff {s : Segment} :
    s.trimmedSpan.isEmpty = true ↔ ∀ c ∈ s.text, Text.isBlank c = true := by
  rw [← Text.trim_eq_nil_iff, ← Text.width_eq_zero]
  simp [trimmedSpan, Span.isEmpty, Span.ofSize]

/-- A segment is an empty item exactly if it is blank. -/
theorem item_eq_emptyItem_iff {s : Segment} {e : Expr} :
    s.item e = .emptyItem s.span ↔ ∀ c ∈ s.text, Text.isBlank c = true := by
  rw [← isEmpty_trimmedSpan_iff, item]
  split <;> simp_all

theorem item_eq_listItem {s : Segment} {e : Expr} (h : s.item e ≠ .emptyItem s.span) :
    s.item e = .listItem s.trimmedSpan s.span (Text.trim s.text) e := by
  rw [item] at h ⊢
  split at h
  · exact absurd rfl h
  · next hnot => rw [if_neg hnot]

/-- The trimmed span of a segment is the segment without the blanks at its ends. -/
theorem trims_trimmedSpan {s : Segment} (h : s.Stands t) : s.trimmedSpan.Trims s.span t := by
  have hcovers : s.span.Covers t s.text := h.covers
  obtain ⟨trailing, hblank, htrim⟩ := Text.exists_trim s.text
  rw [htrim] at hcovers
  obtain ⟨hleading, hbehind⟩ := hcovers.split
  obtain ⟨hinner, htrailing⟩ := hbehind.split
  refine ⟨⟨_, hleading, ?_⟩, ⟨_, htrailing, hblank⟩, ⟨_, hinner, ?_, ?_⟩⟩
  · intro c hc
    exact List.mem_takeWhile_imp hc
  · intro c hc
    exact Text.isBlank_head?_trim hc
  · intro c hc
    exact Text.isBlank_getLast?_trim hc

end Segment

theorem items_parseList (t : Text) :
    (parseList t).items = (segments t).map fun s => s.item s.expression := by
  apply List.map_congr_left
  intro s _
  unfold Segment.expression
  cases s.read <;> rfl

/-- The items that are read are those of the list that is always read. -/
theorem items_of_readItemsOf {segments : List Segment} {items : List Expr}
    (h : readItemsOf segments = .ok items) :
    items = segments.map fun s => s.item s.expression := by
  induction segments generalizing items with
  | nil =>
    cases h
    rfl
  | cons s segments ih =>
    rw [readItemsOf] at h
    cases hread : s.read with
    | error problem =>
      rw [hread] at h
      cases h
    | ok e =>
      rw [hread] at h
      cases hrest : readItemsOf segments with
      | error problem =>
        rw [hrest] at h
        cases h
      | ok rest =>
        rw [hrest] at h
        cases h
        rw [List.map_cons, Segment.expression_eq hread, ← ih hrest]

/-! ## Lists -/

/-- Whether a list divides a text: its segments follow one another with one byte between, and its
items are what the segments are. -/
structure SimpleList.Divides (l : SimpleList) (t : Text) : Prop where
  ne_nil : l.items ≠ []
  parted : Span.Parted t.width 0 (l.items.map segmentOf)
  /-- The bytes between the segments are `;`. -/
  joined : [';'].intercalate ((l.items.map segmentOf).map fun s => t.slice s.start s.stop) = t
  /-- An item is empty exactly if its segment is blank. -/
  empty_iff : ∀ item ∈ l.items, item = .emptyItem (segmentOf item) ↔
    ∀ c ∈ t.slice (segmentOf item).start (segmentOf item).stop, Text.isBlank c = true
  /-- An item that is not empty has the trimmed segment and its text. -/
  item : ∀ item ∈ l.items, item ≠ .emptyItem (segmentOf item) → ∃ range value expression,
    item = .listItem range (segmentOf item) value expression ∧ range.Trims (segmentOf item) t ∧
      t.slice range.start range.stop = value
  /-- At an offset there is one item, which is found there. -/
  found : ∀ offset ≤ t.width, ∃ (i : Nat) (item : Expr), l.items[i]? = some item ∧
    l.itemAt offset = some item ∧ (segmentOf item).touches offset = true ∧
      ∀ (j : Nat) (other : Expr), l.items[j]? = some other →
        (segmentOf other).touches offset = true → j = i

theorem map_segmentOf_parseList (t : Text) :
    (parseList t).items.map SimpleList.segmentOf = (segments t).map Segment.span := by
  rw [items_parseList, List.map_map]
  apply List.map_congr_left
  intro s _
  exact s.segmentOf_item _

/-- The one member of a list that has a property is the one that is found. -/
theorem find?_eq_of_unique {α : Type} {p : α → Bool} {xs : List α} {i : Nat} {x : α}
    (hi : xs[i]? = some x) (hx : p x = true)
    (hunique : ∀ (j : Nat) (y : α), xs[j]? = some y → p y = true → j = i) : xs.find? p = some x := by
  cases hfind : xs.find? p with
  | none =>
    have hnone := List.find?_eq_none.1 hfind x (List.mem_of_getElem? hi)
    exact absurd hx hnone
  | some y =>
    obtain ⟨j, hj⟩ := List.mem_iff_getElem?.1 (List.mem_of_find?_eq_some hfind)
    obtain rfl := hunique j y hj (List.find?_some hfind)
    rw [← hi, hj]

theorem divides_parseList (t : Text) : (parseList t).Divides t := by
  have hline := line_segments t
  have hstands := hline.stands
  have hslice : ∀ s ∈ segments t, t.slice s.span.start s.span.stop = s.text := by
    intro s hs
    exact (hstands s hs).covers.slice_eq
  have hitems : ∀ item ∈ (parseList t).items, ∃ s ∈ segments t, item = s.item s.expression := by
    intro item hitem
    rw [items_parseList] at hitem
    obtain ⟨s, hs, heq⟩ := List.mem_map.1 hitem
    exact ⟨s, hs, heq.symm⟩
  have hparted : Span.Parted t.width 0 ((parseList t).items.map SimpleList.segmentOf) := by
    rw [map_segmentOf_parseList]
    exact hline.parted
  refine ⟨?_, hparted, ?_, ?_, ?_, ?_⟩
  · intro hnil
    rw [hnil] at hparted
    cases hparted
  · have htexts : ((segments t).map Segment.span).map (fun s => t.slice s.start s.stop) =
        (segments t).map Segment.text := by
      rw [List.map_map]
      exact List.map_congr_left hslice
    rw [map_segmentOf_parseList, htexts]
    calc [';'].intercalate ((segments t).map Segment.text)
        = t.slice 0 t.width := hline.covers.slice_eq.symm
      _ = t := (Span.covers_whole t).slice_eq
  · intro item hitem
    obtain ⟨s, hs, rfl⟩ := hitems item hitem
    rw [s.segmentOf_item, hslice s hs]
    exact Segment.item_eq_emptyItem_iff
  · intro item hitem hfull
    obtain ⟨s, hs, rfl⟩ := hitems item hitem
    rw [s.segmentOf_item] at hfull ⊢
    have hcovers := (Segment.covers_trimmedSpan (hstands s hs)).1
    exact ⟨s.trimmedSpan, Text.trim s.text, s.expression, Segment.item_eq_listItem hfull,
      Segment.trims_trimmedSpan (hstands s hs), hcovers.slice_eq⟩
  · intro offset hoffset
    obtain ⟨i, s, hi, hs, hunique⟩ := hparted.exists_touches (Nat.zero_le offset) hoffset
    rw [List.getElem?_map, Option.map_eq_some_iff] at hi
    obtain ⟨item, hitem, rfl⟩ := hi
    have hone : ∀ (j : Nat) (other : Expr), (parseList t).items[j]? = some other →
        (SimpleList.segmentOf other).touches offset = true → j = i := by
      intro j other hj hother
      apply hunique j (SimpleList.segmentOf other) _ hother
      rw [List.getElem?_map, hj]
      rfl
    exact ⟨i, item, hitem, find?_eq_of_unique hitem hs hone, hs, hone⟩

/-! ## Values -/

/-- A value of one segment is the expression of its item, unless that is empty. -/
theorem eq_expression_of_singleton {t : Text} {s : Segment} (hs : segments t = [s]) {e : Expr}
    (he : s.read = .ok e) {range segment : Span} {value : Text} {expression : Expr}
    (hone : (parseList t).items = [.listItem range segment value expression]) :
    e = expression := by
  rw [items_parseList, hs, List.map_singleton, Segment.expression_eq he, Segment.item] at hone
  split at hone
  · cases hone
  · cases hone
    rfl

/-- A value of several segments is their list. -/
theorem eq_toExpr_of_readItemsOf {t : Text} {items : List Expr}
    (h : readItemsOf (segments t) = .ok items) :
    SimpleList.toExpr ⟨⟨0, t.width⟩, items⟩ = (parseList t).toExpr := by
  rw [SimpleList.toExpr, SimpleList.toExpr, items_parseList, items_of_readItemsOf h]
  rfl

/-- **The structure of lists.** A text read as a list is divided by it, and what the text is read as
otherwise is this list, if it has several items, or the expression of its one item. -/
theorem structure_of_parseList (t : Text) : (parseList t).Divides t ∧
    ∀ e, parseValue t = .ok e →
      (1 < (parseList t).items.length → e = (parseList t).toExpr) ∧
      ∀ range segment value expression,
        (parseList t).items = [.listItem range segment value expression] → e = expression := by
  refine ⟨divides_parseList t, ?_⟩
  intro e he
  have hcount : (parseList t).items.length = (segments t).length := by
    rw [items_parseList, List.length_map]
  rw [parseValue] at he
  split at he
  · next s hs =>
    refine ⟨?_, fun range segment value expression => eq_expression_of_singleton hs he⟩
    intro hmany
    rw [hcount, hs] at hmany
    exact absurd hmany (Nat.lt_irrefl 1)
  · next hseveral =>
    cases hread : readItemsOf (segments t) with
    | error problem =>
      rw [hread] at he
      cases he
    | ok items =>
      rw [hread] at he
      cases he
      refine ⟨fun _ => eq_toExpr_of_readItemsOf hread, ?_⟩
      intro range segment value expression hone
      have hsingle : (segments t).length = 1 := by
        rw [← hcount, hone]
        rfl
      obtain ⟨s, hs⟩ := List.length_eq_one_iff.1 hsingle
      exact absurd hs (hseveral s)

/-- A `;` in parentheses or quotes divides nothing. -/
example : (parseList " A ;;@(B->'x;y');".toList).values =
    ["A".toList, "@(B->'x;y')".toList] := by decide +kernel

end Expression

end ProjectFile
