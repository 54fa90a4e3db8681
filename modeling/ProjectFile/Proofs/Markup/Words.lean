import ProjectFile.Proofs.Markup.Frame
import ProjectFile.Proofs.Markup.Leaves

/-!
The leaves of a document without their places.

What is left of a leaf without its place and owner is a word, a kind and a text. The words of a
document are those of its pieces one after another (`Document.map_word_leaves`), however the pieces
nest. Since leaves lie side by side, the words tell which kind of leaf is at an offset
(`Leaf.IsTiling.exists_find?`).
-/

namespace ProjectFile.Markup

/-- A leaf without its place. -/
def Leaf.word (l : Leaf) : LeafKind × Text := (l.kind, l.text)

/-- The words of some texts; an empty text is none. -/
def Role.words (texts : List (Role × Text)) : List (LeafKind × Text) :=
  texts.filterMap fun (role, t) => if t.isEmpty then none else some (role.kind, t)

theorem Role.words_append (xs ys : List (Role × Text)) : words (xs ++ ys) = words xs ++ words ys :=
  List.filterMap_append

theorem Role.words_cons_of_ne_nil {t : Text} (ht : t ≠ []) (role : Role) (rest : List (Role × Text)) :
    words ((role, t) :: rest) = (role.kind, t) :: words rest := by
  obtain ⟨c, w, rfl⟩ := List.exists_cons_of_ne_nil ht
  rfl

theorem Role.text_words (texts : List (Role × Text)) :
    (words texts).flatMap Prod.snd = texts.flatMap Prod.snd := by
  induction texts with
  | nil => rfl
  | cons x texts ih =>
    obtain ⟨role, t⟩ := x
    cases t with
    | nil => exact ih
    | cons c t => rw [words_cons_of_ne_nil (List.cons_ne_nil c t), List.flatMap_cons, ih,
        List.flatMap_cons]

theorem Leaf.map_word_ofTexts (owner : Option View) (offset : Nat) (texts : List (Role × Text)) :
    (ofTexts owner offset texts).map word = Role.words texts := by
  induction texts generalizing offset with
  | nil => rfl
  | cons x texts ih =>
    obtain ⟨role, t⟩ := x
    cases t with
    | nil => exact ih _
    | cons c t => exact congrArg _ (ih _)

/-! ## The words of a document -/

def TagItem.roles : TagItem → List (Role × Text)
  | .attribute a => a.roles
  | .filler f => [(f.startRole, f.text)]

def StartTag.roles (tag : StartTag) : List (Role × Text) :=
  (.startOpener, tag.opener) :: (.startName, tag.name.getD []) ::
    (tag.items.flatMap TagItem.roles ++ [tag.ending.role])

/-- The words of a piece. -/
def Piece.words : Piece → List (LeafKind × Text)
  | .start tag => Role.words tag.roles
  | .stop tag => Role.words (tag.roles false)
  | .run kind t => Role.words [(.run kind, t)]

theorem TagItem.flatMap_roles (i : TagItem) : i.roles.flatMap Prod.snd = i.text := by
  match i with
  | .attribute a => exact a.flatMap_roles
  | .filler f => exact List.append_nil f.text

theorem TagItem.flatMap_rolesOfAll (items : List TagItem) :
    (items.flatMap roles).flatMap Prod.snd = items.flatMap text := by
  rw [List.flatMap_assoc]
  simp only [flatMap_roles]

/-- The words of a piece have its text. -/
theorem Piece.text_words (p : Piece) : p.words.flatMap Prod.snd = p.text := by
  match p with
  | .start tag =>
    rw [words, Role.text_words, text, StartTag.roles, StartTag.text]
    simp [TagItem.flatMap_rolesOfAll, TagEnding.role]
  | .stop tag => rw [words, Role.text_words, tag.flatMap_roles, text]
  | .run kind t =>
    rw [words, Role.text_words]
    exact List.append_nil t

/-- An end tag has the same words whether it is stray or not. -/
theorem EndTag.words_roles (stray : Bool) (tag : EndTag) :
    Role.words (tag.roles stray) = Role.words (tag.roles false) := by
  simp only [roles, Role.words, List.filterMap_cons, List.filterMap_append, Role.kind]

theorem TagItem.map_word_leavesOfAll (enclosing : List Enclosure) (before : List Item) (offset : Nat)
    (items : List TagItem) : (leavesOfAll enclosing before offset items).map Leaf.word =
      Role.words (items.flatMap roles) := by
  induction items generalizing before offset with
  | nil => rfl
  | cons i items ih =>
    rw [List.flatMap_cons, Role.words_append]
    match i with
    | .attribute a => rw [leavesOfAll, List.map_append, Leaf.map_word_ofTexts, ih]; rfl
    | .filler f => rw [leavesOfAll, List.map_append, Leaf.map_word_ofTexts, ih]; rfl

namespace Node

mutual

theorem map_word_leaves (enclosing : List Enclosure) (before after : List Item) (offset : Nat) :
    ∀ n : Node, (n.leaves enclosing before after offset).map Leaf.word = n.pieces.flatMap Piece.words
  | .strayEnd tag => by
    rw [leaves, Leaf.map_word_ofTexts, tag.words_roles]
    simp [pieces, Piece.words]
  | .run kind t => by
    rw [leaves.eq_def]
    dsimp only
    rw [Leaf.map_word_ofTexts]
    simp [pieces, Piece.words]
  | .element tag content endTag => by
    have hcontent := map_word_leavesOfAll
      (⟨⟨offset, tag, content, endTag⟩, before, after⟩ :: enclosing) []
      (Element.children ⟨offset, tag, content, endTag⟩)
      (Element.startTagSpan ⟨offset, tag, content, endTag⟩).stop content
    rw [leaves.eq_def]
    dsimp only
    rw [List.map_append, List.map_append, List.map_append, List.map_append, hcontent,
      Leaf.map_word_ofTexts, Leaf.map_word_ofTexts, TagItem.map_word_leavesOfAll]
    have hstart : Role.words [(.startOpener, tag.opener), (.startName, tag.name.getD [])] ++
        (Role.words (tag.items.flatMap TagItem.roles) ++ Role.words [tag.ending.role]) =
          (Piece.start tag).words := by
      rw [← Role.words_append, ← Role.words_append]
      rfl
    rw [pieces, List.flatMap_cons, ← hstart, List.flatMap_append]
    cases endTag with
    | none => simp [Element.name]
    | some closer => simp [Element.name, Leaf.map_word_ofTexts, Piece.words]

theorem map_word_leavesOfAll (enclosing : List Enclosure) (before items : List Item) (offset : Nat) :
    ∀ ns : List Node, (leavesOfAll enclosing before items offset ns).map Leaf.word =
      (piecesOfAll ns).flatMap Piece.words
  | [] => rfl
  | n :: ns => by
    rw [leavesOfAll, List.map_append, map_word_leaves, map_word_leavesOfAll, piecesOfAll,
      List.flatMap_append]

end

end Node

/-- **The words of a text without errors are those of its pieces.** -/
theorem Document.Reading.map_word_leaves {t : Text} {ns : List Node} (h : Reading t ns) :
    (parse t).leaves.map Leaf.word = (Node.piecesOfAll ns).flatMap Piece.words := by
  rw [h.parse_eq]
  exact Node.map_word_leavesOfAll [] [] _ 0 ns

/-! ## The word at an offset -/

/-- **The leaf that is found at a place has the kind of the word there.** The place is behind the
words `before`, and what is looked for is in no leaf that stops there or before. -/
theorem Leaf.IsTiling.exists_find? {a b : Nat} {ls : List Leaf} (h : IsTiling a b ls)
    {before after : List (LeafKind × Text)} {kind : LeafKind} {t : Text}
    (hwords : ls.map word = before ++ (kind, t) :: after) {p : Leaf → Bool}
    (hbefore : ∀ l, l.span.stop ≤ a + Text.width (before.flatMap Prod.snd) → p l = false)
    (hhere : ∀ l, l.span = .ofSize (a + Text.width (before.flatMap Prod.snd)) t.width → p l = true) :
    ∃ l, ls.find? p = some l ∧ l.kind = kind := by
  induction before generalizing a ls with
  | nil =>
    obtain ⟨l, ls, rfl, hl, -⟩ := List.map_eq_cons_iff.1 hwords
    rw [word, Prod.mk.injEq] at hl
    obtain ⟨hkind, htext⟩ := hl
    have hspan : l.span = .ofSize a t.width := by rw [span, h.1, htext]
    exact ⟨l, List.find?_cons_of_pos (hhere l hspan), hkind⟩
  | cons w before ih =>
    obtain ⟨l, ls, rfl, hl, hls⟩ := List.map_eq_cons_iff.1 hwords
    have hstop : l.span.stop = a + w.2.width := by
      rw [← hl, ← h.1]
      rfl
    rw [List.flatMap_cons, Text.width_append, ← Nat.add_assoc, ← hstop] at hbefore hhere
    have hl' : ¬ p l = true := by
      rw [hbefore l (Nat.le_add_right _ _)]
      nofun
    obtain ⟨m, hm, hkind⟩ := ih h.2 hls hbefore hhere
    exact ⟨m, by rw [List.find?_cons_of_neg hl', hm], hkind⟩

end ProjectFile.Markup
