import ProjectFile.Proofs.Markup.Leaves

/-!
Offsets between things.

A *seam* is an offset between two nodes, or at an end of them (`Node.SeamOfAll`); a document has one
at the top or in the content of an element (`Document.HasSeam`). What stands beside a seam ends
before it or starts after it (`Document.HasSeam.divides`), and so do the attributes beside a place
between them (`Element.HasGap.divides`).
-/

namespace ProjectFile.Markup

/-- Whether an offset splits nothing: all items end before it or start after it. -/
def Item.Divides (items : List Item) (offset : Nat) : Prop :=
  ∀ i ∈ items, i.span.stop ≤ offset ∨ offset ≤ i.span.start

/-! ## Between nodes -/

namespace Node

theorem widthOfAll_append (ms ns : List Node) :
    widthOfAll (ms ++ ns) = widthOfAll ms + widthOfAll ns := by
  induction ms with
  | nil => simp [widthOfAll]
  | cons m ms ih => simp [widthOfAll, ih, Nat.add_assoc]

/-- Whether an offset lies between nodes that start at `start`, or at an end of them. -/
def SeamOfAll (start : Nat) (ns : List Node) (offset : Nat) : Prop :=
  ∃ pre post, ns = pre ++ post ∧ offset = start + widthOfAll pre

theorem seamOfAll_start (start : Nat) (ns : List Node) : SeamOfAll start ns start :=
  ⟨[], ns, rfl, rfl⟩

theorem seamOfAll_stop (start : Nat) (ns : List Node) :
    SeamOfAll start ns (start + widthOfAll ns) := ⟨ns, [], (List.append_nil ns).symm, rfl⟩

theorem SeamOfAll.cons {start offset : Nat} {n : Node} {ns : List Node}
    (h : SeamOfAll (start + n.width) ns offset) : SeamOfAll start (n :: ns) offset := by
  obtain ⟨pre, post, rfl, rfl⟩ := h
  exact ⟨n :: pre, post, rfl, Nat.add_assoc _ _ _⟩

end Node

theorem Item.span_of_ofNode? {placed : Nat × Node} {i : Item} (h : ofNode? placed = some i) :
    i.span = .ofSize placed.1 placed.2.width := by
  obtain ⟨offset, n⟩ := placed
  match n with
  | .element tag inside endTag => cases h; rfl
  | .strayEnd tag => cases h
  | .run kind t =>
    obtain ⟨k, -, rfl⟩ := Option.map_eq_some_iff.1 h
    rfl

/-- Nodes stand between the offset where the first starts and the one where the last ends. -/
theorem Node.span_of_mem_placed {offset : Nat} {ns : List Node} {placed : Nat × Node}
    (h : placed ∈ Node.placed offset ns) :
    offset ≤ placed.1 ∧ placed.1 + placed.2.width ≤ offset + widthOfAll ns := by
  induction ns generalizing offset with
  | nil => cases h
  | cons n ns ih =>
    rw [widthOfAll]
    rcases List.mem_cons.1 h with rfl | h
    · dsimp only
      omega
    · have hrest := ih h
      omega

theorem Node.placed_append (offset : Nat) (ms ns : List Node) :
    Node.placed offset (ms ++ ns) =
      Node.placed offset ms ++ Node.placed (offset + widthOfAll ms) ns := by
  induction ms generalizing offset with
  | nil => rfl
  | cons m ms ih => simp [Node.placed, widthOfAll, ih, Nat.add_assoc]

theorem Node.SeamOfAll.divides {start offset : Nat} {ns : List Node}
    (h : SeamOfAll start ns offset) : Item.Divides (Item.ofNodes start ns) offset := by
  obtain ⟨pre, post, rfl, rfl⟩ := h
  intro i hi
  obtain ⟨placed, hplaced, hshown⟩ := List.mem_filterMap.1 hi
  rw [Item.span_of_ofNode? hshown]
  rw [placed_append] at hplaced
  rcases List.mem_append.1 hplaced with hpre | hpost
  · exact .inl (span_of_mem_placed hpre).2
  · exact .inr (span_of_mem_placed hpost).1

namespace Document

/-- Whether an offset lies between nodes in a container: the content of an element, or the
document. -/
def HasSeam (d : Document) (offset : Nat) : Option View → Prop
  | none => Node.SeamOfAll 0 d.nodes offset
  | some v => v ∈ d.views ∧ ∃ e, v.item = .element e ∧ e.tag.ending = .content ∧
      Node.SeamOfAll e.startTagSpan.stop e.content offset

end Document

/-! ## Between attributes -/

/-- Whether an offset lies between attributes of an element, among what is not one. -/
def Element.HasGap (e : Element) (offset : Nat) : Prop :=
  ∃ front gap back, e.tag.items = front ++ (gap ++ back) ∧ (∀ i ∈ gap, i.attribute? = none) ∧
    e.itemsStart + TagItem.widthOfAll front ≤ offset ∧
    offset ≤ e.itemsStart + TagItem.widthOfAll front + TagItem.widthOfAll gap

namespace TagItem

theorem placed_append (offset : Nat) (is js : List TagItem) :
    placed offset (is ++ js) = placed offset is ++ placed (offset + widthOfAll is) js := by
  induction is generalizing offset with
  | nil => rfl
  | cons i is ih => simp [placed, widthOfAll_cons, ih, Nat.add_assoc]

theorem span_of_mem_placed {offset : Nat} {is : List TagItem} {at' : Nat × TagItem}
    (h : at' ∈ placed offset is) :
    offset ≤ at'.1 ∧ at'.1 + at'.2.text.width ≤ offset + widthOfAll is := by
  induction is generalizing offset with
  | nil => cases h
  | cons i is ih =>
    rw [widthOfAll_cons]
    rcases List.mem_cons.1 h with rfl | h
    · dsimp only
      omega
    · have hrest := ih h
      omega

/-- The attributes among items stand where the items do. -/
theorem span_of_mem_attributes {offset : Nat} {is : List TagItem} {a : PlacedAttribute}
    (h : a ∈ (placed offset is).filterMap PlacedAttribute.ofItem?) :
    offset ≤ a.span.start ∧ a.span.stop ≤ offset + widthOfAll is := by
  obtain ⟨⟨start, i⟩, hplaced, hof⟩ := List.mem_filterMap.1 h
  obtain ⟨attr, hattr, rfl⟩ := Option.map_eq_some_iff.1 hof
  have hspan := span_of_mem_placed hplaced
  match i with
  | .attribute a =>
    cases hattr
    exact hspan
  | .filler f => cases hattr

theorem filterMap_placed_eq_nil {is : List TagItem} (h : ∀ i ∈ is, i.attribute? = none)
    (offset : Nat) : (placed offset is).filterMap PlacedAttribute.ofItem? = [] := by
  induction is generalizing offset with
  | nil => rfl
  | cons i is ih =>
    rw [List.forall_mem_cons] at h
    rw [placed, List.filterMap_cons, PlacedAttribute.ofItem?]
    simp only [h.1, Option.map_none, ih h.2]

end TagItem

theorem Element.HasGap.divides {e : Element} {offset : Nat} (h : e.HasGap offset) :
    ∀ a ∈ e.attributes, a.span.stop ≤ offset ∨ offset ≤ a.span.start := by
  obtain ⟨front, gap, back, hitems, hgap, hstart, hstop⟩ := h
  intro a ha
  rw [attributes, hitems, TagItem.placed_append, TagItem.placed_append, List.filterMap_append,
    List.filterMap_append, TagItem.filterMap_placed_eq_nil hgap, List.nil_append] at ha
  rcases List.mem_append.1 ha with hfront | hback
  · exact .inl (Nat.le_trans (TagItem.span_of_mem_attributes hfront).2 hstart)
  · exact .inr (Nat.le_trans hstop (TagItem.span_of_mem_attributes hback).1)

theorem Element.HasGap.span {e : Element} {offset : Nat} (h : e.HasGap offset)
    (hopener : e.tag.opener ≠ []) : e.start < offset ∧ offset ≤ e.startTagSpan.stop := by
  obtain ⟨front, gap, back, hitems, -, hstart, hstop⟩ := h
  have hpos : 0 < e.tag.opener.width := Nat.pos_of_ne_zero fun h => hopener (Text.width_eq_zero.1 h)
  have hle := e.itemsStart_le_stop
  rw [hitems, TagItem.widthOfAll_append, TagItem.widthOfAll_append] at hle
  unfold itemsStart at hstart
  omega

end ProjectFile.Markup
