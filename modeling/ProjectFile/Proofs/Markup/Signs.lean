import ProjectFile.Proofs.Markup.Elements
import ProjectFile.Proofs.Markup.Scan

/-!
The signs that tags are read with.

Besides their names, tags are made of signs of one byte each: a quotation mark around a value, and a
`<` in front of a tag without a name, since a `<!` that opens a tag is always followed by a
character of a name. `Piece.signed_ofText` says so of every piece of a text.
-/

namespace ProjectFile.Markup

/-! ## Where tokens and pieces come from -/

/-- Every token of a tag is one that was read at some character. -/
theorem TagToken.exists_read_of_mem_readAll {token : TagToken} {n : Nat} {t : Text}
    (h : token ∈ readAll n t) : ∃ c rest, read c rest = token := by
  induction t generalizing n with
  | nil =>
    rw [readAll] at h
    cases h
  | cons c rest ih =>
    cases n with
    | succ n => exact ih h
    | zero =>
      rw [readAll] at h
      split at h
      · cases h
      dsimp only at h
      split at h
      · exact ⟨c, rest, (List.mem_singleton.1 h).symm⟩
      · rcases List.mem_cons.1 h with rfl | h
        · exact ⟨c, rest, rfl⟩
        · exact ih h

/-- Every piece of a text is one that was read at some character. -/
theorem Piece.exists_readNext_of_mem_readAll {p : Piece} {mode : Mode} {n : Nat} {t : Text}
    (h : p ∈ readAll mode n t) : ∃ mode c rest, (readNext mode c rest).1 = p := by
  induction t generalizing mode n with
  | nil =>
    rw [readAll] at h
    cases h
  | cons c rest ih =>
    cases n with
    | succ n => exact ih h
    | zero =>
      rcases List.mem_cons.1 h with rfl | h
      · exact ⟨mode, c, rest, rfl⟩
      · exact ih h

/-! ## Quotation marks -/

/-- Whether a character is a quotation mark. -/
def IsQuote (c : Char) : Prop := c = '"' ∨ c = '\''

theorem IsQuote.utf8Size {c : Char} (h : IsQuote c) : c.utf8Size = 1 := by
  rcases h with rfl | rfl <;> rfl

theorem TagToken.isQuote_of_mem_readAll {q : Quoted} {n : Nat} {t : Text}
    (h : .string q ∈ readAll n t) : IsQuote q.quote := by
  obtain ⟨c, rest, hread⟩ := exists_read_of_mem_readAll h
  unfold read at hread
  split at hread
  · cases hread
  split at hread
  · cases hread
  split at hread
  · split at hread <;> cases hread
  split at hread
  · next hc =>
    cases hread
    exact hc
  split at hread <;> cases hread

/-- The string of an assignment is one of the tokens that it is read from. -/
theorem Assignment.mem_of_read {tokens : List TagToken} {before after : Text} {q : Quoted}
    (h : (read tokens).1 = .value before after q) : .string q ∈ tokens := by
  have value {space : Text} {n : Nat} {rest : List TagToken}
      (h : (read.value space n rest).1 = .value before after q) : .string q ∈ rest := by
    unfold read.value at h
    split at h
    · cases h
      simp
    · cases h
      simp
    · cases h
  unfold read at h
  split at h
  · exact List.mem_cons_of_mem _ (List.mem_cons_of_mem _ (value h))
  · exact List.mem_cons_of_mem _ (value h)
  · cases h

theorem TagItem.mem_of_mem_readAll {n : Nat} {tokens : List TagToken} {a : Attribute}
    {before after : Text} {q : Quoted} (h : .attribute a ∈ readAll n tokens)
    (ha : a.assignment = .value before after q) : .string q ∈ tokens := by
  induction tokens generalizing n with
  | nil =>
    rw [readAll] at h
    cases h
  | cons token rest ih =>
    refine List.mem_cons_of_mem _ ?_
    cases n with
    | succ n => exact ih h
    | zero =>
      cases token with
      | rightAngle => cases h
      | slashRightAngle => cases h
      | name n =>
        rcases List.mem_cons.1 h with heq | h
        · cases heq
          exact Assignment.mem_of_read ha
        · exact ih h
      | _ =>
        rcases List.mem_cons.1 h with heq | h
        · cases heq
        · exact ih h

/-! ## Tags -/

/-- Whether the values in a start tag stand between quotation marks, and a `<` alone is in front of
it if it has no name. -/
structure StartTag.Signed (tag : StartTag) : Prop where
  opener : tag.name = none → tag.opener = ['<']
  quotes : ∀ a, .attribute a ∈ tag.items → ∀ before after q, a.assignment = .value before after q →
    IsQuote q.quote

def Piece.Signed : Piece → Prop
  | .start tag => tag.Signed
  | _ => True

theorem TagItem.mem_items_of_ofTokens {opener : Text} {tokens : List TagToken} {a : Attribute}
    {before after : Text} {q : Quoted} (h : .attribute a ∈ (StartTag.ofTokens opener tokens).items)
    (ha : a.assignment = .value before after q) : .string q ∈ tokens :=
  (TagToken.takeName_suffix tokens).subset (TagItem.mem_of_mem_readAll h ha)

theorem Piece.signed_readStart {n : Nat} {t : Text}
    (h : (TagToken.takeName (TagToken.readAll 0 (t.drop n))).1 = none → t.take n = ['<']) :
    (readStart n t).1.Signed :=
  ⟨h, fun _ ha _ _ _ hq =>
    TagToken.isQuote_of_mem_readAll (TagItem.mem_items_of_ofTokens ha hq)⟩

/-- What stands after a `<!` that opens a tag is the start of a name. -/
theorem TagToken.takeName_ne_none {c : Char} (hc : c = '-' ∨ c = '[') (rest : Text) :
    (takeName (readAll 0 (c :: rest))).1 ≠ none := by
  rcases hc with rfl | rfl <;> exact nofun

theorem Piece.signed_readMarkup (mode : Mode) (rest : Text) :
    (readMarkup mode ('<' :: rest)).1.Signed := by
  have hone : (readStart 1 ('<' :: rest)).1.Signed := signed_readStart fun _ => rfl
  unfold readMarkup
  split
  · trivial
  split
  · exact hone
  split
  · trivial
  split
  · trivial
  split
  · trivial
  split
  · next h =>
    refine signed_readStart fun hnone => ?_
    obtain ⟨c, tail, rfl, hc⟩ := exists_of_broken h
    exact absurd hnone (TagToken.takeName_ne_none hc tail)
  split
  · trivial
  · exact hone

/-- **The pieces of a text are made with the signs of markup.** -/
theorem Piece.signed_ofText (t : Text) : ∀ p ∈ ofText t, p.Signed := by
  intro p hp
  obtain ⟨mode, c, rest, rfl⟩ := exists_readNext_of_mem_readAll hp
  unfold readNext
  split
  · next hc =>
    subst hc
    exact signed_readMarkup mode rest
  · trivial

end ProjectFile.Markup
