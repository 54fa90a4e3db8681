import ProjectFile.Evaluation.Evaluator
import ProjectFile.Proofs.Evaluation.Expanded
import ProjectFile.Proofs.Expression.Lexemes

/-!
The two ways to split a value.

The evaluator splits a value at every `;`, the reader of expressions at those outside of quotes and
parentheses. Where a `;` stands is told by the characters in front of it (`Nesting.step`). In a value
without entities and references a quote, a parenthesis or a `;` is a token of its own
(`text_eq_of_mark?`, `not_mem_text`), so the tokens of such a value tell the same
(`forall_segmentsFrom_iff`). Where no `;` is in quotes or parentheses the segments are the pieces that
the evaluator finds; any other value has an item with a `;` in it, which no piece has
(`values_eq_splitList_iff`).
-/

namespace ProjectFile

namespace Expression

/-! ## Where a separator stands -/

/-- Where one stands in a value: how deep in parentheses, and whether in quotes. -/
structure Nesting where
  depth : Nat
  quoted : Bool

namespace Nesting

def outside : Nesting := ⟨0, false⟩

/-- Where one stands behind a character. What is quoted opens and closes nothing. -/
def step (n : Nesting) (c : Char) : Nesting :=
  if c = '\'' then ⟨n.depth, !n.quoted⟩
  else if n.quoted then n
  else if c = '(' then ⟨n.depth + 1, false⟩
  else if c = ')' then ⟨n.depth - 1, false⟩
  else n

/-- Whether every `;` of a text stands outside of quotes and parentheses. -/
def separates (n : Nesting) : Text → Bool
  | [] => true
  | c :: t => (c != ';' || (n.depth == 0 && !n.quoted)) && (n.step c).separates t

end Nesting

/-! ## The tokens of marks -/

/-- The characters that a list is split by, or that keep it from being split. -/
def marks : List Char := [';', '\'', '(', ')']

theorem forall_marks {p : Char → Prop} : (∀ d ∈ marks, p d) ↔ p ';' ∧ p '\'' ∧ p '(' ∧ p ')' := by
  simp [marks]

/-- The mark that a token of a kind is. -/
def TokenKind.mark? : TokenKind → Option Char
  | .semicolon => some ';'
  | .quote => some '\''
  | .leftParen => some '('
  | .rightParen => some ')'
  | _ => none

theorem not_mem_marks_of_isWordChar {c : Char} (h : isWordChar c = true) : c ∉ marks := by
  have hall : ∀ d ∈ marks, isWordChar d = false := forall_marks.2 (by decide)
  intro hmem
  rw [hall c hmem] at h
  cases h

/-- An identifier goes on with word characters and `-`. -/
theorem forall_take_identifierLength (w : Text) :
    ∀ c ∈ w.take (identifierLength w), isWordChar c = true ∨ c = '-' := by
  fun_induction identifierLength w with
  | case1 => exact List.forall_mem_nil _
  | case2 d hd => exact List.forall_mem_singleton.2 (.inl hd)
  | case3 d hd => exact List.forall_mem_nil _
  | case4 d e w hd ih => exact List.forall_mem_cons.2 ⟨.inl hd, ih⟩
  | case5 d e w hd hjoins ih =>
    rw [Bool.and_eq_true, beq_iff_eq] at hjoins
    exact List.forall_mem_cons.2 ⟨.inr hjoins.1, List.forall_mem_cons.2 ⟨.inl hjoins.2, ih⟩⟩
  | case6 d e w hd hjoins => exact List.forall_mem_nil _

/-- What is read as a token that is no mark has no mark in it, if it is no entity and begins no
reference. -/
theorem not_mem_take_readToken {c : Char} {rest : Text} (hamp : c ≠ '&')
    (hmark : (readToken c rest).1.mark? = none)
    (hbegins : (readToken c rest).1.beginsReference = false) :
    ∀ d ∈ (c :: rest).take (readToken c rest).2, d ∉ marks := by
  -- A second character is the one that is asked for.
  have hpair (e : Char) (k l : TokenKind) (hc : c ∉ marks) (he : e ∉ marks) :
      ∀ d ∈ (c :: rest).take (if rest.head? == some e then (k, 2) else (l, 1) : TokenKind × Nat).2,
        d ∉ marks := by
    split
    · next hnext =>
      obtain ⟨rest, rfl⟩ := List.head?_eq_some_iff.1 (beq_iff_eq.1 hnext)
      exact List.forall_mem_cons.2 ⟨hc, List.forall_mem_singleton.2 he⟩
    · exact List.forall_mem_singleton.2 hc
  have hsingle (k : TokenKind) (hc : c ∉ marks) : ∀ d ∈ (c :: rest).take (k, 1).2, d ∉ marks :=
    List.forall_mem_singleton.2 hc
  have hopener {k : TokenKind} (hk : k.beginsReference = true) (hc : c ∉ marks)
      {read : TokenKind × Nat} (hread : read = if rest.head? == some '(' then (k, 2) else (.text, 1))
      (hbegins : read.1.beginsReference = false) : ∀ d ∈ (c :: rest).take read.2, d ∉ marks := by
    subst hread
    split at hbegins
    · rw [hk] at hbegins
      cases hbegins
    · next hnext =>
      rw [if_neg hnext]
      exact hsingle .text hc
  revert hmark hbegins
  unfold readToken
  split
  case h_1 => exact fun _ => hopener rfl (by decide) rfl
  case h_2 => exact fun _ => hopener rfl (by decide) rfl
  case h_3 => exact fun _ => hopener rfl (by decide) rfl
  case h_4 => nofun
  case h_5 => nofun
  case h_6 => nofun
  case h_7 => exact fun _ _ => hpair '=' _ _ (by decide) (by decide)
  case h_8 => exact fun _ _ => hpair '=' _ _ (by decide) (by decide)
  case h_9 => exact fun _ _ => hpair '=' _ _ (by decide) (by decide)
  case h_10 => exact fun _ _ => hpair '=' _ _ (by decide) (by decide)
  case h_11 => exact fun _ _ => hpair '>' _ _ (by decide) (by decide)
  case h_12 => exact fun _ _ => hsingle .comma (by decide)
  case h_13 => exact fun _ _ => hsingle .dot (by decide)
  case h_14 => nofun
  case h_15 => exact absurd rfl hamp
  case h_16 hleft hright hquote _ _ _ _ _ _ _ hsemicolon _ =>
    have hc : c ∉ marks := by
      simp only [marks, List.mem_cons, List.not_mem_nil, or_false, not_or]
      exact ⟨hsemicolon, hquote, hleft, hright⟩
    intro _ _
    dsimp only
    split
    · refine List.forall_mem_cons.2 ⟨hc, fun d hd hmem => ?_⟩
      have hall : ∀ e ∈ marks, Text.isMarkupSpace e = false := forall_marks.2 (by decide)
      have hspace := Text.forall_take_lengthWhile rest d hd
      rw [hall d hmem] at hspace
      cases hspace
    split
    · refine List.forall_mem_cons.2 ⟨hc, fun d hd => ?_⟩
      rcases forall_take_identifierLength rest d hd with hword | rfl
      · exact not_mem_marks_of_isWordChar hword
      · decide
    split
    · refine List.forall_mem_cons.2 ⟨hc, fun d hd hmem => ?_⟩
      have hall : ∀ e ∈ marks, Char.isDigit e = false := forall_marks.2 (by decide)
      have hdigit := Text.forall_take_lengthWhile rest d hd
      rw [hall d hmem] at hdigit
      cases hdigit
    · exact hsingle .text hc

/-- A quote is an apostrophe, in a text without entities. -/
theorem take_readToken_quote {c : Char} {rest : Text} (hamp : c ≠ '&')
    (h : (readToken c rest).1 = .quote) : (c :: rest).take (readToken c rest).2 = ['\''] := by
  have hnone {asked : Bool} {k l : TokenKind} (hk : k ≠ .quote) (hl : l ≠ .quote) :
      (if asked then (k, 2) else (l, 1) : TokenKind × Nat).1 ≠ .quote := by
    cases asked
    · exact hl
    · exact hk
  unfold readToken at h ⊢
  split at h
  case h_1 => exact absurd h (hnone (by decide) (by decide))
  case h_2 => exact absurd h (hnone (by decide) (by decide))
  case h_3 => exact absurd h (hnone (by decide) (by decide))
  case h_6 => rfl
  case h_7 => exact absurd h (hnone (by decide) (by decide))
  case h_8 => exact absurd h (hnone (by decide) (by decide))
  case h_9 => exact absurd h (hnone (by decide) (by decide))
  case h_10 => exact absurd h (hnone (by decide) (by decide))
  case h_11 => exact absurd h (hnone (by decide) (by decide))
  case h_15 => exact absurd rfl hamp
  case h_16 =>
    dsimp only at h
    split at h
    · cases h
    split at h
    · cases h
    split at h <;> cases h
  all_goals cases h

/-- The token of a mark is that mark, in a text without entities. -/
theorem text_eq_of_mark? {w : Text} (hplain : '&' ∉ w) {u : Token} (hu : u ∈ tokens w) {c : Char}
    (hmark : u.kind.mark? = some c) : u.text = [c] := by
  cases hkind : u.kind with
  | semicolon =>
    rw [hkind] at hmark
    cases hmark
    exact text_of_semicolon hu hkind
  | leftParen =>
    rw [hkind] at hmark
    cases hmark
    exact text_of_sign? hu (by rw [hkind]; rfl)
  | rightParen =>
    rw [hkind] at hmark
    cases hmark
    exact text_of_sign? hu (by rw [hkind]; rfl)
  | quote =>
    rw [hkind] at hmark
    cases hmark
    obtain ⟨d, rest, hsuffix, hread, htext⟩ := exists_readToken_of_mem hu (by rw [hkind]; decide)
    rw [htext]
    refine take_readToken_quote ?_ (hread.symm.trans hkind)
    rintro rfl
    exact hplain (hsuffix.subset List.mem_cons_self)
  | _ =>
    rw [hkind] at hmark
    cases hmark

/-- A token of another kind that begins no reference has no mark in it. -/
theorem not_mem_text {w : Text} {offset skip : Nat} (hplain : '&' ∉ w) {u : Token}
    (hu : u ∈ tokensFrom offset skip w) (hmark : u.kind.mark? = none)
    (hbegins : u.kind.beginsReference = false) : ∀ d ∈ u.text, d ∉ marks := by
  induction w generalizing offset skip u with
  | nil =>
    rw [tokensFrom] at hu
    cases hu
  | cons c w ih =>
    rw [List.mem_cons, not_or] at hplain
    cases skip with
    | succ skip => exact ih hplain.2 hu hmark hbegins
    | zero =>
      rw [tokensFrom] at hu
      have hfirst := @not_mem_take_readToken c w (Ne.symm hplain.1)
      revert hu
      cases hrest : tokensFrom (offset + c.utf8Size) ((readToken c w).2 - 1) w with
      | nil =>
        intro hu
        obtain rfl := List.mem_singleton.1 hu
        exact hfirst hmark hbegins
      | cons v vs =>
        have hbehind {x : Token} (hx : x ∈ v :: vs) := ih hplain.2 (hrest ▸ hx)
        intro hu
        rw [Token.prepend] at hu
        split at hu
        · next htext =>
          -- Two texts that are one token have no marks, neither of them.
          rcases List.mem_cons.1 hu with rfl | hu
          · have hkind : (readToken c w).1 = .text := htext.1
            intro d hd
            rcases List.mem_append.1 hd with hd | hd
            · exact hfirst (by rw [hkind]; rfl) (by rw [hkind]; rfl) d hd
            · exact hbehind List.mem_cons_self (by rw [htext.2]; rfl) (by rw [htext.2]; rfl) d hd
          · exact hbehind (List.mem_cons_of_mem _ hu) hmark hbegins
        · rcases List.mem_cons.1 hu with rfl | hu
          · exact hfirst hmark hbegins
          · exact hbehind hu hmark hbegins

/-! ## Segments without separators -/

theorem segmentsFrom_ne_nil (stop start depth : Nat) (inQuote : Bool) (ts : List Token) :
    segmentsFrom stop start depth inQuote ts ≠ [] := by
  induction ts generalizing start depth inQuote with
  | nil => exact List.cons_ne_nil _ _
  | cons u us ih =>
    rw [segmentsFrom]
    split
    · exact List.cons_ne_nil _ _
    · dsimp only
      split
      · next hnil => exact absurd hnil (ih _ _ _)
      · exact List.cons_ne_nil _ _

/-- Whether a token is a mark, or opens nothing and has no mark in it. -/
structure Token.IsClean (u : Token) : Prop where
  text_eq : ∀ c, u.kind.mark? = some c → u.text = [c]
  opens_eq : u.kind.mark? = none → u.kind.opens = false
  not_mem : u.kind.mark? = none → ∀ d ∈ u.text, d ∉ marks

/-- So are all tokens of a text without entities and references. -/
theorem isClean_of_mem_tokens {w : Text} (hplain : '&' ∉ w) (hfree : Unreferenced w) {u : Token}
    (hu : u ∈ tokens w) : u.IsClean := by
  have hbegins := hfree.beginsReference_eq_false u hu
  refine ⟨fun c => text_eq_of_mark? hplain hu, fun hmark => ?_,
    fun hmark => not_mem_text hplain hu hmark hbegins⟩
  revert hmark hbegins
  cases u.kind <;> simp [TokenKind.mark?, TokenKind.opens, TokenKind.beginsReference]

/-- Only the token of a separator has a `;` in it. -/
theorem Token.IsClean.mem_text_iff {u : Token} (hu : u.IsClean) :
    ';' ∈ u.text ↔ u.kind = .semicolon := by
  cases hmark : u.kind.mark? with
  | none =>
    refine iff_of_false (fun hmem => hu.not_mem hmark _ hmem (by decide)) fun hkind => ?_
    rw [hkind] at hmark
    cases hmark
  | some c =>
    rw [hu.text_eq c hmark, List.mem_singleton]
    revert hmark
    cases u.kind <;> intro hmark <;> cases hmark <;> decide

namespace Nesting

/-- Where one stands behind a token. -/
def behind (n : Nesting) (u : Token) : Nesting :=
  ⟨if n.quoted then n.depth
    else if u.kind.opens then n.depth + 1
    else if u.kind = .rightParen then n.depth - 1
    else n.depth,
    if u.kind = .quote then !n.quoted else n.quoted⟩

theorem separates_append_of_unmarked (n : Nesting) {v : Text} (hv : ∀ d ∈ v, d ∉ marks) (w : Text) :
    n.separates (v ++ w) = n.separates w := by
  induction v with
  | nil => rfl
  | cons c v ih =>
    rw [List.forall_mem_cons] at hv
    obtain ⟨hc, hv⟩ := hv
    simp only [marks, List.mem_cons, List.not_mem_nil, or_false, not_or] at hc
    obtain ⟨hsemicolon, hquote, hleft, hright⟩ := hc
    have hstep : n.step c = n := by
      rw [step, if_neg hquote, if_neg hleft, if_neg hright]
      split <;> rfl
    rw [List.cons_append, separates, hstep, ih hv, bne_iff_ne.2 hsemicolon, Bool.true_or,
      Bool.true_and]

/-- What a token tells is what its characters tell. -/
theorem separates_append (n : Nesting) {u : Token} (hu : u.IsClean) (w : Text) :
    n.separates (u.text ++ w) = true ↔
      (u.kind = .semicolon → n.depth = 0 ∧ n.quoted = false) ∧ (n.behind u).separates w = true := by
  cases hmark : u.kind.mark? with
  | none =>
    have hkind {k : TokenKind} (hk : k.mark? ≠ none) : u.kind ≠ k := fun h => hk (h ▸ hmark)
    have hsame : n.behind u = n := by
      rw [behind, hu.opens_eq hmark, if_neg (hkind (k := .rightParen) nofun),
        if_neg (hkind (k := .quote) nofun)]
      obtain ⟨depth, quoted⟩ := n
      cases quoted <;> rfl
    rw [separates_append_of_unmarked n (hu.not_mem hmark), hsame]
    exact ⟨fun h => ⟨fun h => absurd h (hkind nofun), h⟩, And.right⟩
  | some c =>
    rw [hu.text_eq c hmark, List.singleton_append, separates]
    obtain ⟨depth, quoted⟩ := n
    revert hmark
    unfold behind
    cases u.kind <;> intro hmark <;> cases hmark <;> cases quoted <;>
      simp [step, TokenKind.opens]

/-- A separator outside of quotes and parentheses opens and closes nothing. -/
theorem behind_of_separates {n : Nesting} {u : Token}
    (h : u.kind = .semicolon ∧ n.depth = 0 ∧ n.quoted = false) : n.behind u = n := by
  obtain ⟨depth, quoted⟩ := n
  obtain ⟨hkind, rfl, rfl⟩ := h
  rw [behind, hkind]
  rfl

end Nesting

/-- Any other token is the first of the segment that the tokens behind it begin with. -/
theorem exists_segmentsFrom_of_not {n : Nesting} {u : Token}
    (h : ¬ (u.kind = .semicolon ∧ n.depth = 0 ∧ n.quoted = false)) (stop start : Nat)
    (us : List Token) : ∃ s rest,
      segmentsFrom stop start (n.behind u).depth (n.behind u).quoted us = s :: rest ∧
      segmentsFrom stop start n.depth n.quoted (u :: us) =
        { s with tokens := u :: s.tokens } :: rest := by
  obtain ⟨s, rest, hsegments⟩ := List.exists_cons_of_ne_nil
    (segmentsFrom_ne_nil stop start (n.behind u).depth (n.behind u).quoted us)
  refine ⟨s, rest, hsegments, ?_⟩
  unfold Nesting.behind at hsegments
  rw [segmentsFrom, if_neg h]
  dsimp only at hsegments ⊢
  rw [hsegments]

/-- **Where separators stand is told by the characters.** No segment has a `;` in it exactly if each
stands outside of quotes and parentheses. -/
theorem forall_segmentsFrom_iff {ts : List Token} (hts : ∀ u ∈ ts, u.IsClean) (stop start : Nat)
    (n : Nesting) : (∀ s ∈ segmentsFrom stop start n.depth n.quoted ts, ';' ∉ s.text) ↔
      n.separates (ts.flatMap Token.text) = true := by
  induction ts generalizing start n with
  | nil => exact iff_of_true (List.forall_mem_singleton.2 List.not_mem_nil) rfl
  | cons u us ih =>
    obtain ⟨hu, hus⟩ := List.forall_mem_cons.1 hts
    rw [List.flatMap_cons, n.separates_append hu]
    by_cases hseparates : u.kind = .semicolon ∧ n.depth = 0 ∧ n.quoted = false
    · rw [segmentsFrom, if_pos hseparates, List.forall_mem_cons, ih hus,
        Nesting.behind_of_separates hseparates]
      exact and_congr_left fun _ => iff_of_true List.not_mem_nil fun _ => hseparates.2
    · obtain ⟨s, rest, hbehind, hsegments⟩ := exists_segmentsFrom_of_not hseparates stop start us
      have hall := ih hus start (n.behind u)
      rw [hbehind, List.forall_mem_cons] at hall
      have htext : Segment.text { s with tokens := u :: s.tokens } = u.text ++ s.text := rfl
      rw [hsegments, List.forall_mem_cons, htext, List.mem_append, not_or, hu.mem_text_iff, and_assoc,
        hall]
      refine and_congr_left fun _ => ⟨fun hne hkind => absurd hkind hne, fun h hkind => ?_⟩
      exact hseparates ⟨hkind, h hkind⟩

/-! ## Values -/

theorem Segment.valueOf?_item (s : Segment) (e : Expr) : SimpleList.valueOf? (s.item e) =
    if Text.trim s.text = [] then none else some (Text.trim s.text) := by
  have hblank : s.trimmedSpan.isEmpty = true ↔ Text.trim s.text = [] :=
    isEmpty_trimmedSpan_iff.trans Text.trim_eq_nil_iff.symm
  by_cases htrim : Text.trim s.text = []
  · rw [if_pos htrim, item, if_pos (hblank.2 htrim)]
    rfl
  · rw [if_neg htrim, item, if_neg (mt hblank.1 htrim)]
    rfl

/-- The values of a list are its trimmed segments that are not blank. -/
theorem values_parseList (t : Text) : (parseList t).values =
    ((segments t).map fun s => Text.trim s.text).filter fun value => !value.isEmpty := by
  rw [SimpleList.values, items_parseList, List.filterMap_map]
  induction segments t with
  | nil => rfl
  | cons s segments ih =>
    have hvalue : (SimpleList.valueOf? ∘ fun s => s.item s.expression) s = _ :=
      s.valueOf?_item s.expression
    rw [List.map_cons]
    by_cases htrim : Text.trim s.text = []
    · rw [if_pos htrim] at hvalue
      rw [List.filterMap_cons_none hvalue, ih, htrim]
      rfl
    · rw [if_neg htrim] at hvalue
      rw [List.filterMap_cons_some hvalue, ih, List.filter_cons_of_pos (by simpa using htrim)]

/-- Segments without separators are the pieces between them. -/
theorem splitOn_eq_map_text {w : Text} (h : ∀ s ∈ segments w, ';' ∉ s.text) :
    Text.splitOn ';' w = (segments w).map Segment.text := by
  have hjoined : w = [';'].intercalate ((segments w).map Segment.text) := by
    have hcovers := (line_segments w).covers.slice_eq
    rwa [(Span.covers_whole w).slice_eq] at hcovers
  rw [Text.splitOn_eq]
  conv_lhs => rw [hjoined]
  refine List.splitOn_intercalate ';' (List.forall_mem_map.2 h) fun hnil => ?_
  exact segmentsFrom_ne_nil _ _ _ _ _ (List.map_eq_nil_iff.1 hnil)

/-- No value that the evaluator finds has a separator in it. -/
theorem not_mem_of_mem_splitList {w value : Text} (h : value ∈ Evaluation.splitList w) :
    ';' ∉ value := by
  obtain ⟨piece, hpiece, rfl⟩ := List.mem_map.1 (List.mem_filter.1 h).1
  exact fun hmem => Text.not_mem_of_mem_splitOn hpiece ((Text.mem_trim_iff (by decide)).1 hmem)

open Evaluation in
/-- **The two ways to split a value agree exactly if no `;` stands in quotes or parentheses.** -/
theorem values_eq_splitList_iff {w : Text} (hplain : '&' ∉ w) (hfree : Unreferenced w) :
    (parseList w).values = splitList w ↔ Nesting.outside.separates w = true := by
  have hclean : ∀ u ∈ tokens w, u.IsClean := fun u hu => isClean_of_mem_tokens hplain hfree hu
  have htold := forall_segmentsFrom_iff hclean w.width 0 .outside
  rw [flatMap_text_tokens] at htold
  rw [← htold, values_parseList]
  change _ ↔ ∀ s ∈ segments w, ';' ∉ s.text
  constructor
  · intro hagree s hs hmem
    have hin : ';' ∈ Text.trim s.text := (Text.mem_trim_iff (by decide)).2 hmem
    have hfilled : (!(Text.trim s.text).isEmpty) = true := by
      simpa using List.ne_nil_of_mem hin
    have hvalue : Text.trim s.text ∈ splitList w :=
      hagree ▸ List.mem_filter.2 ⟨List.mem_map_of_mem hs, hfilled⟩
    exact not_mem_of_mem_splitList hvalue hin
  · intro hnone
    rw [splitList, splitOn_eq_map_text hnone, List.map_map]
    rfl

end Expression

end ProjectFile
