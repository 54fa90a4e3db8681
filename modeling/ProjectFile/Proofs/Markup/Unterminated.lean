import ProjectFile.Proofs.Markup.Slot

/-!
A start tag that is not terminated in front of markup that is no tag.

The `<` after such a tag opens another one, whatever comes next. Behind the `<` of a comment, a CDATA
section, a processing instruction or a document type that is a `!` or a `?`, which no name begins
with; so there are two tags with errors (`Slot.insert_name_engulfs`).
-/

namespace ProjectFile.Markup

/-! ## The errors of start tags -/

theorem StartTag.mem_errors_of_missing {tag : StartTag} (h : tag.ending = .missing) (offset : Nat) :
    ⟨.unterminatedStartTag (tag.name.getD []), .empty (offset + tag.text.width)⟩ ∈
      tag.errors offset := by
  refine List.mem_append_right _ ?_
  rw [h]
  exact List.mem_cons_self

theorem StartTag.exists_mem_errors_of_name {tag : StartTag} {n : Text} (h : tag.name = some n)
    (hn : Text.isName n = false) (offset : Nat) :
    ∃ span, ⟨.invalidElementName n, span⟩ ∈ tag.errors offset := by
  refine ⟨⟨offset + tag.opener.width, offset + tag.opener.width + n.width⟩, ?_⟩
  simp [errors, h, hn, SyntaxError.when]

namespace Node

mutual

theorem errors_of_start {tag : StartTag} (length offset : Nat) : ∀ n : Node,
    .start tag ∈ n.pieces → ∃ place, ∀ e ∈ tag.errors place, e ∈ n.errors length offset
  | .run kind t, h => nomatch List.mem_singleton.1 h
  | .strayEnd closer, h => nomatch List.mem_singleton.1 h
  | .element tag' content endTag, h => by
    rw [pieces, List.mem_cons, List.mem_append] at h
    unfold errors
    rcases h with heq | hcontent | hend
    · cases heq
      exact ⟨offset, fun e he => List.mem_append_left _ (List.mem_append_left _ he)⟩
    · obtain ⟨place, hplace⟩ :=
        errorsOfAll_of_start length (offset + tag'.text.width) content hcontent
      exact ⟨place, fun e he => List.mem_append_left _ (List.mem_append_right _ (hplace e he))⟩
    · cases endTag with
      | none => cases hend
      | some closer => cases List.mem_singleton.1 hend

/-- The errors of a start tag are among those of the nodes it is in. -/
theorem errorsOfAll_of_start {tag : StartTag} (length offset : Nat) : ∀ ns : List Node,
    .start tag ∈ piecesOfAll ns → ∃ place, ∀ e ∈ tag.errors place, e ∈ errorsOfAll length offset ns
  | [], h => nomatch h
  | n :: ns, h => by
    rw [errorsOfAll]
    rcases List.mem_append.1 h with h | h
    · obtain ⟨place, hplace⟩ := errors_of_start length offset n h
      exact ⟨place, fun e he => List.mem_append_left _ (hplace e he)⟩
    · obtain ⟨place, hplace⟩ := errorsOfAll_of_start length (offset + n.width) ns h
      exact ⟨place, fun e he => List.mem_append_right _ (hplace e he)⟩

end

end Node

namespace Document

theorem topErrors_of_start {tag : StartTag} (length roots offset : Nat) {ns : List Node}
    (h : .start tag ∈ Node.piecesOfAll ns) :
    ∃ place, ∀ e ∈ tag.errors place, e ∈ topErrors length roots offset ns := by
  induction ns generalizing roots offset with
  | nil => cases h
  | cons n ns ih =>
    unfold topErrors
    rcases List.mem_append.1 h with h | h
    · obtain ⟨place, hplace⟩ := Node.errors_of_start length offset n h
      refine ⟨place, fun e he => List.mem_append_left _ ?_⟩
      split
      · exact List.mem_append_left _ (hplace e he)
      · cases List.mem_singleton.1 h
      · exact hplace e he
    · obtain ⟨place, hplace⟩ := ih (if n.isElement then roots + 1 else roots) (offset + n.width) h
      exact ⟨place, fun e he => List.mem_append_right _ (hplace e he)⟩

/-- The errors of every start tag in a text are among its errors. -/
theorem errors_of_start {t : Text} (hplain : Text.IsPlain t) {tag : StartTag}
    (h : .start tag ∈ Piece.ofText t) :
    ∃ place, ∀ e ∈ tag.errors place, e ∈ (parse t).errors := by
  rw [parse_eq_markup hplain (Node.piecesOfAll_ofPieces _).symm (Node.nestedAll_ofPieces _)]
  rw [← Node.piecesOfAll_ofPieces (Piece.ofText t)] at h
  exact topErrors_of_start _ 0 0 h

end Document

/-! ## Markup that is no tag -/

/-- The first token of a tag is a name if its first character may stand in one. -/
theorem TagToken.exists_readAll_name {c : Char} (hc : isNameChar c = true) (rest : Text) :
    ∃ w tokens, readAll 0 (c :: rest) = .name (c :: w) :: tokens := by
  have hfirst := hc
  simp only [isNameChar, Bool.not_eq_true', Bool.or_eq_false_iff, beq_eq_false_iff_ne] at hfirst
  have hread : read c rest = .name (c :: rest.take (Text.lengthWhile isNameChar rest)) := by
    rw [read]
    simp [hfirst]
  obtain ⟨after, hafter⟩ := text_read_prefix c rest
  have hangle : c ≠ '<' := by simp [hfirst]
  rw [readAll_cons hangle hafter.symm, hread]
  exact ⟨_, _, rfl⟩

/-- In a tag that is not terminated other markup is read as a tag, with a name that is none. -/
theorem Piece.exists_readAll_tag {c : Char} (hc : c = '!' ∨ c = '?') (rest : Text) :
    ∃ tag w ps, readAll .tag 0 ('<' :: c :: rest) = .start tag :: ps ∧ tag.name = some (c :: w) := by
  have hchar : TagToken.isNameChar c = true := by
    rcases hc with rfl | rfl <;> rfl
  have hslash : ('/' == c) = false := by
    rcases hc with rfl | rfl <;> rfl
  obtain ⟨w, tokens, htokens⟩ := TagToken.exists_readAll_name hchar rest
  have hnext : (readNext .tag '<' (c :: rest)).1 =
      .start (.ofTokens ['<'] (.name (c :: w) :: tokens)) := by
    simp [readNext, readMarkup, List.isPrefixOf, hslash, readStart, htokens]
  obtain ⟨after, hafter⟩ := (isFront_readNext .tag '<' (c :: rest)).1
  rw [readAll_cons .tag hafter.symm, hnext]
  exact ⟨_, w, _, rfl, rfl⟩

theorem Text.isName_eq_false {c : Char} (hc : c = '!' ∨ c = '?') (w : Text) :
    Text.isName (c :: w) = false := by
  rw [← Bool.not_eq_true]
  intro h
  have hcode := (Text.isName_spec h).2 c List.mem_cons_self
  rcases hc with rfl | rfl <;> exact absurd hcode (by decide)

/-- **In front of markup that is no tag, a start tag without an end is more than one error.** -/
theorem Slot.insert_name_engulfs {t : Text} (s : Slot t) {x : Text} (hx : Text.isName x = true)
    {c : Char} (hc : c = '!' ∨ c = '?') {rest : Text}
    (hrest : s.closing.flatMap Piece.text = '<' :: c :: rest) :
    (Document.parse (t.insertAt s.offset ('<' :: x))).errors.length ≠ 1 := by
  obtain ⟨tag, w, ps, hread, hname⟩ := Piece.exists_readAll_tag hc rest
  have hpieces : Piece.ofText (t.insertAt s.offset ('<' :: x)) =
      s.opening ++ .start ⟨['<'], some x, [], .missing⟩ :: .start tag :: ps := by
    rw [s.insertAt_eq, hrest, Piece.ofText, s.readAll_opening_closing.1 _ rfl, List.cons_append,
      Piece.readAll_name hx, hread]
  have hplain : Text.IsPlain (t.insertAt s.offset ('<' :: x)) :=
    s.isPlain_insertAt (Text.isPlain_append.2 ⟨(by decide : Text.IsPlain ['<']), Text.isPlain_name hx⟩)
  have hstarts (a : StartTag) (ha : a = ⟨['<'], some x, [], .missing⟩ ∨ a = tag) :
      ∃ place, ∀ e ∈ a.errors place, e ∈ (Document.parse (t.insertAt s.offset ('<' :: x))).errors := by
    refine Document.errors_of_start hplain ?_
    rw [hpieces]
    rcases ha with rfl | rfl <;> simp
  -- One tag has no end and the other no valid name, which are two problems.
  obtain ⟨place, hfirst⟩ := hstarts _ (.inl rfl)
  obtain ⟨place', hsecond⟩ := hstarts _ (.inr rfl)
  have hunterminated := hfirst _ (StartTag.mem_errors_of_missing rfl place)
  obtain ⟨span, hspan⟩ := StartTag.exists_mem_errors_of_name hname (Text.isName_eq_false hc w) place'
  have hinvalid := hsecond _ hspan
  intro hone
  obtain ⟨e, he⟩ := List.length_eq_one_iff.1 hone
  rw [he, List.mem_singleton] at hunterminated hinvalid
  rw [← hunterminated] at hinvalid
  cases hinvalid

end ProjectFile.Markup
