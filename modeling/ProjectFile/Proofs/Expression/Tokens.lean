import ProjectFile.Expression.Reading
import ProjectFile.Proofs.Text.Cuts

/-!
The tokens of a text stand side by side in it (`stand_tokens`), and so do the segments of a value,
with one token between them (`line_segments`).

`Token.Stand t stop start ts` is what every reader keeps: the tokens that are left are tokens of the
text, the first stands at `start`, and each of the others where the one before it ends, up to `stop`.
-/

namespace ProjectFile.Expression

/-! ## Tokens side by side -/

namespace Token

/-- Whether tokens stand side by side in a text, from the offset `start` up to `stop`. -/
def Tile (t : Text) (stop : Nat) : Nat → List Token → Prop
  | start, [] => start = stop ∧ t.IsBoundary stop
  | start, u :: us => u.start = start ∧ u.span.Covers t u.text ∧ Tile t stop u.span.stop us

/-- Whether tokens of a text stand side by side in it, from the offset `start` up to `stop`. -/
structure Stand (t : Text) (stop start : Nat) (ts : List Token) : Prop where
  tile : Tile t stop start ts
  mem : ∀ u ∈ ts, u ∈ tokens t

variable {t : Text} {stop start : Nat} {ts : List Token}

theorem Tile.isBoundary (h : Tile t stop start ts) :
    t.IsBoundary start ∧ t.IsBoundary stop ∧ start ≤ stop := by
  induction ts generalizing start with
  | nil =>
    obtain ⟨rfl, hstop⟩ := h
    exact ⟨hstop, hstop, Nat.le_refl _⟩
  | cons u us ih =>
    obtain ⟨rfl, hcovers, hrest⟩ := h
    obtain ⟨-, hstop, hle⟩ := ih hrest
    obtain ⟨hule, -, hstart, -⟩ := hcovers.cuts.isBoundary
    exact ⟨hstart, hstop, Nat.le_trans hule hle⟩

/-- A token in front of others stands there, whether or not it becomes one with the first. -/
theorem Tile.prepend {u : Token} (hcovers : u.span.Covers t u.text) (h : Tile t stop u.span.stop ts) :
    Tile t stop u.start (u.prepend ts) := by
  cases ts with
  | nil => exact ⟨rfl, hcovers, h⟩
  | cons v us =>
    rw [Token.prepend]
    split
    · obtain ⟨hstart, hcovers', hrest⟩ := h
      have hsecond : v.span = ⟨u.span.stop, v.span.stop⟩ := by
        rw [← hstart]
        rfl
      rw [hsecond] at hcovers'
      have hmerged := hcovers.append hcovers'
      have hspan : Token.span { u with text := u.text ++ v.text } = ⟨u.start, v.span.stop⟩ := by
        have hstop : v.span.stop = u.start + Text.width (u.text ++ v.text) := hmerged.stop_eq
        rw [hstop]
        rfl
      refine ⟨rfl, ?_, ?_⟩
      · rw [hspan]
        exact hmerged
      · rw [hspan]
        exact hrest
    · exact ⟨rfl, hcovers, h⟩

end Token

/-! ## The tokens of a text -/

/-- A token takes one character or more. -/
theorem readToken_pos (c : Char) (rest : Text) : 0 < (readToken c rest).2 := by
  have hfollowed (asked : Bool) (k l : TokenKind) :
      0 < (if asked then (k, 2) else (l, 1) : TokenKind × Nat).2 := by
    cases asked <;> exact Nat.succ_pos _
  unfold readToken
  split
  case h_1 => exact hfollowed _ _ _
  case h_2 => exact hfollowed _ _ _
  case h_3 => exact hfollowed _ _ _
  case h_7 => exact hfollowed _ _ _
  case h_8 => exact hfollowed _ _ _
  case h_9 => exact hfollowed _ _ _
  case h_10 => exact hfollowed _ _ _
  case h_11 => exact hfollowed _ _ _
  case h_15 =>
    show 0 < (readEntity ('&' :: rest)).2
    unfold readEntity
    split
    · next entity hfound =>
      have hall : ∀ entity ∈ operatorEntities, 0 < entity.1.length := by decide
      exact hall entity (List.mem_of_find?_eq_some hfound)
    · exact Nat.succ_pos _
  case h_16 =>
    dsimp only
    split
    · exact Nat.succ_pos _
    split
    · exact Nat.succ_pos _
    split
    · exact Nat.succ_pos _
    · exact Nat.one_pos
  all_goals exact Nat.one_pos

/-- So do those that are put together of several. -/
theorem text_ne_nil_of_mem_tokensFrom (offset skip : Nat) (t : Text) :
    ∀ u ∈ tokensFrom offset skip t, u.text ≠ [] := by
  induction t generalizing offset skip with
  | nil =>
    rw [tokensFrom]
    exact List.forall_mem_nil _
  | cons c t ih =>
    cases skip with
    | succ skip => exact ih _ _
    | zero =>
      obtain ⟨n, hn⟩ := Nat.exists_eq_add_one_of_ne_zero (Nat.ne_of_gt (readToken_pos c t))
      have hfirst : (c :: t).take (readToken c t).2 ≠ [] := by
        rw [hn, List.take_succ_cons]
        exact List.cons_ne_nil _ _
      have hrest := ih (offset + c.utf8Size) ((readToken c t).2 - 1)
      rw [tokensFrom]
      revert hrest
      cases tokensFrom (offset + c.utf8Size) ((readToken c t).2 - 1) t with
      | nil => exact fun _ => List.forall_mem_singleton.2 hfirst
      | cons v vs =>
        intro hrest
        rw [Token.prepend]
        split
        · exact List.forall_mem_cons.2 ⟨List.append_ne_nil_of_left_ne_nil hfirst _,
            (List.forall_mem_cons.1 hrest).2⟩
        · exact List.forall_mem_cons.2 ⟨hfirst, hrest⟩

/-- The tokens of what is left of a text stand side by side, behind the characters that belong to the
token before. -/
theorem tile_tokensFrom (front w : Text) (skip : Nat) :
    Token.Tile (front ++ w) (Text.width (front ++ w)) (front.width + Text.width (w.take skip))
      (tokensFrom front.width skip w) := by
  induction w generalizing front skip with
  | nil =>
    rw [List.take_nil, tokensFrom, List.append_nil]
    exact ⟨rfl, front, List.prefix_rfl, rfl⟩
  | cons c w ih =>
    have hmove (n : Nat) := ih (front ++ [c]) n
    have hc : Text.width (front ++ [c]) = front.width + c.utf8Size := by
      rw [Text.width_append]
      rfl
    simp only [List.append_assoc, List.singleton_append, hc] at hmove
    cases skip with
    | succ skip =>
      rw [List.take_succ_cons, tokensFrom, Text.width_cons, ← Nat.add_assoc]
      exact hmove skip
    | zero =>
      obtain ⟨n, hn⟩ := Nat.exists_eq_add_one_of_ne_zero (Nat.ne_of_gt (readToken_pos c w))
      let u : Token := ⟨(readToken c w).1, front.width, (c :: w).take (n + 1)⟩
      have hu : u.span.Covers (front ++ c :: w) u.text :=
        ⟨front, w.drop n, by simp [u], rfl, rfl⟩
      have hstop : u.span.stop = front.width + c.utf8Size + Text.width (w.take n) := by
        have hwidth : u.span.stop = front.width + Text.width (c :: w.take n) := rfl
        rw [hwidth, Text.width_cons, Nat.add_assoc]
      have hrest := hmove n
      rw [← hstop] at hrest
      have hall : tokensFrom front.width 0 (c :: w) =
          u.prepend (tokensFrom (front.width + c.utf8Size) n w) := by
        rw [tokensFrom, hn]
        rfl
      rw [hall]
      exact Token.Tile.prepend hu hrest

/-- **The tokens of a text stand side by side in it.** -/
theorem stand_tokens (t : Text) : Token.Stand t t.width 0 (tokens t) :=
  ⟨tile_tokensFrom [] t 0, fun _ h => h⟩

theorem Token.Tile.start_le {t : Text} {stop start : Nat} {ts : List Token}
    (h : Token.Tile t stop start ts) {u : Token} (hu : u ∈ ts) : start ≤ u.start := by
  induction ts generalizing start with
  | nil => cases hu
  | cons v vs ih =>
    obtain ⟨rfl, -, hrest⟩ := h
    rcases List.mem_cons.1 hu with rfl | hu
    · exact Nat.le_refl _
    · exact Nat.le_trans (Nat.le_add_right _ _) (ih hrest hu)

/-- Where a token starts no other one does. -/
theorem eq_of_start_eq {t : Text} {u v : Token} (hu : u ∈ tokens t) (hv : v ∈ tokens t)
    (h : u.start = v.start) : u = v := by
  have hbehind {ts : List Token} {w : Token} (hw : w.text ≠ [])
      (hrest : Token.Tile t t.width w.span.stop ts) {x : Token} (hx : x ∈ ts) : w.start ≠ x.start := by
    have hle := hrest.start_le hx
    have hwidth := Text.width_pos hw
    have hstop : w.span.stop = w.start + w.text.width := rfl
    omega
  have hall {ts : List Token} {start : Nat} (hts : ∀ w ∈ ts, w.text ≠ [])
      (htile : Token.Tile t t.width start ts) (hu : u ∈ ts) (hv : v ∈ ts) : u = v := by
    induction ts generalizing start with
    | nil => cases hu
    | cons w ws ih =>
      obtain ⟨-, -, hrest⟩ := htile
      rw [List.forall_mem_cons] at hts
      rcases List.mem_cons.1 hu with rfl | hu' <;> rcases List.mem_cons.1 hv with rfl | hv'
      · rfl
      · exact absurd h (hbehind hts.1 hrest hv')
      · exact absurd h.symm (hbehind hts.1 hrest hu')
      · exact ih hts.2 hrest hu' hv'
  exact hall (text_ne_nil_of_mem_tokensFrom 0 0 t) (stand_tokens t).tile hu hv

namespace Token.Stand

variable {t : Text} {stop start : Nat} {u : Token} {ts : List Token}

theorem head (h : Stand t stop start (u :: ts)) :
    u ∈ tokens t ∧ u.start = start ∧ u.span.Covers t u.text :=
  ⟨h.mem u List.mem_cons_self, h.tile.1, h.tile.2.1⟩

theorem tail (h : Stand t stop start (u :: ts)) : Stand t stop u.span.stop ts :=
  ⟨h.tile.2.2, fun v hv => h.mem v (List.mem_cons_of_mem u hv)⟩

theorem isBoundary (h : Stand t stop start ts) :
    t.IsBoundary start ∧ t.IsBoundary stop ∧ start ≤ stop := h.tile.isBoundary

theorem nil (h : t.IsBoundary start) : Stand t start start [] := ⟨⟨rfl, h⟩, nofun⟩

theorem cons (hmem : u ∈ tokens t) (hcovers : u.span.Covers t u.text)
    (h : Stand t stop u.span.stop ts) : Stand t stop u.start (u :: ts) :=
  ⟨⟨rfl, hcovers, h.tile⟩, List.forall_mem_cons.2 ⟨hmem, h.mem⟩⟩

/-- Where tokens stand the first of them stops behind their start, or there. -/
theorem le_stop (h : Stand t stop start (u :: ts)) : start ≤ u.span.stop := by
  rw [← h.head.2.1]
  exact Nat.le_add_right _ _

theorem offsetOf_eq (h : Stand t stop start ts) : offsetOf stop ts = start := by
  cases ts with
  | nil => exact h.tile.1.symm
  | cons u us => exact h.head.2.1

/-- Tokens side by side fall into two parts side by side. -/
theorem of_append {us : List Token} (h : Stand t stop start (ts ++ us)) :
    ∃ middle, Stand t middle start ts ∧ Stand t stop middle us := by
  induction ts generalizing start with
  | nil => exact ⟨start, .nil h.isBoundary.1, h⟩
  | cons v vs ih =>
    obtain ⟨hmem, rfl, hcovers⟩ := h.head
    obtain ⟨middle, hvs, hus⟩ := ih h.tail
    exact ⟨middle, .cons hmem hcovers hvs, hus⟩

/-- Tokens side by side cover what they are the tokens of. -/
theorem covers (h : Stand t stop start ts) : Span.Covers ⟨start, stop⟩ t (ts.flatMap Token.text) := by
  induction ts generalizing start with
  | nil =>
    obtain ⟨rfl, hstop⟩ := h.tile
    exact Span.covers_empty hstop
  | cons u us ih =>
    obtain ⟨-, rfl, hcovers⟩ := h.head
    exact Span.Covers.append hcovers (ih h.tail)

theorem covers_of_mem (h : Stand t stop start ts) (hu : u ∈ ts) : u.span.Covers t u.text := by
  induction ts generalizing start with
  | nil => cases hu
  | cons v vs ih =>
    rcases List.mem_cons.1 hu with rfl | hu
    · exact h.head.2.2
    · exact ih h.tail hu

/-- The tokens behind the space in front stand behind it. -/
theorem skipSpace (h : Stand t stop start ts) :
    ∃ start', start ≤ start' ∧ Stand t stop start' (skipSpace ts) := by
  induction ts generalizing start with
  | nil => exact ⟨start, Nat.le_refl _, h⟩
  | cons u us ih =>
    rw [Expression.skipSpace, List.dropWhile_cons]
    split
    · obtain ⟨start', hle, hrest⟩ := ih h.tail
      exact ⟨start', Nat.le_trans h.le_stop hle, hrest⟩
    · exact ⟨start, Nat.le_refl _, h⟩

end Token.Stand

/-! ## The segments of a value -/

/-- Whether segments stand one behind the other from the offset `start` up to `stop`, with a semicolon
between them. The tokens of the first that are known stand from the offset `known` on. -/
inductive Segment.Line (t : Text) (stop : Nat) : Nat → Nat → List Segment → Prop
  | last {start known : Nat} {ts : List Token} (h : Token.Stand t stop known ts) :
    Line t stop start known [⟨⟨start, stop⟩, ts⟩]
  | cons {start known : Nat} {ts : List Token} {u : Token} {rest : List Segment}
    (h : Token.Stand t u.start known ts) (hmem : u ∈ Expression.tokens t) (hkind : u.kind = .semicolon)
    (hrest : Line t stop u.span.stop u.span.stop rest) :
    Line t stop start known (⟨⟨start, u.start⟩, ts⟩ :: rest)

theorem line_segmentsFrom {t : Text} {stop known : Nat} {ts : List Token}
    (h : Token.Stand t stop known ts) (start depth : Nat) (inQuote : Bool) :
    Segment.Line t stop start known (segmentsFrom stop start depth inQuote ts) := by
  induction ts generalizing start known depth inQuote with
  | nil => exact .last h
  | cons u us ih =>
    obtain ⟨hmem, rfl, hcovers⟩ := h.head
    rw [segmentsFrom]
    split
    · next hseparates =>
      have hstart := h.isBoundary.1
      exact .cons (.nil hstart) hmem hseparates.1 (ih h.tail _ _ _)
    · dsimp only
      generalize hsegments : segmentsFrom stop start _ _ us = segments
      have hline := hsegments ▸ ih h.tail start _ _
      cases hline with
      | last hlast => exact .last (.cons hmem hcovers hlast)
      | cons hfirst hmem' hkind hrest => exact .cons (.cons hmem hcovers hfirst) hmem' hkind hrest

/-- **The segments of a value stand one behind the other in it.** -/
theorem line_segments (t : Text) : Segment.Line t t.width 0 0 (segments t) :=
  line_segmentsFrom (stand_tokens t) 0 0 false

end ProjectFile.Expression
