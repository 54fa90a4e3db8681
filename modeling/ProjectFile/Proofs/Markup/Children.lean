import ProjectFile.Proofs.Markup.Frame

/-!
The elements directly inside an element: they stand one behind the other between its tags
(`Element.within_childElements`, `Element.pairwise_childElements`), and each has a view with the
element around it (`Element.exists_view_childElements`). The root is a child of the document
(`Document.exists_of_root?`).
-/

namespace ProjectFile.Markup

namespace Node

theorem exists_of_mem_placed {offset : Nat} {ns : List Node} {placed : Nat × Node}
    (h : placed ∈ Node.placed offset ns) :
    ∃ ms rest, ns = ms ++ placed.2 :: rest ∧ placed.1 = offset + widthOfAll ms := by
  induction ns generalizing offset with
  | nil => cases h
  | cons n ns ih =>
    rcases List.mem_cons.1 h with rfl | h
    · exact ⟨[], ns, rfl, rfl⟩
    · obtain ⟨ms, rest, rfl, hstart⟩ := ih h
      exact ⟨n :: ms, rest, rfl, by rw [hstart, widthOfAll, Nat.add_assoc]⟩

/-- Nodes stand one behind the other. -/
theorem pairwise_placed (offset : Nat) (ns : List Node) :
    (Node.placed offset ns).Pairwise fun a b => a.1 + a.2.width ≤ b.1 := by
  induction ns generalizing offset with
  | nil => exact .nil
  | cons n ns ih => exact .cons (fun b hb => (span_of_mem_placed hb).1) (ih _)

/-- A node among sound ones is sound. -/
theorem SoundAll.of_mem_placed {offset : Nat} {ns : List Node} (h : SoundAll ns)
    {placed : Nat × Node} (hplaced : placed ∈ Node.placed offset ns) : placed.2.Sound := by
  obtain ⟨ms, rest, rfl, -⟩ := exists_of_mem_placed hplaced
  exact (soundAll_cons.1 (soundAll_append.1 h).2).1

/-- A sound element is not empty. -/
theorem Sound.width_pos {tag : StartTag} {content : List Node} {endTag : Option EndTag}
    (h : (element tag content endTag).Sound) : 0 < (element tag content endTag).width := by
  have hpos := h.inside.1.width_pos
  rw [width]
  omega

end Node

namespace Element

variable {e : Element}

theorem mem_childElements {child : Element} :
    child ∈ e.childElements ↔ (child.start, child.node) ∈ Node.placed e.startTagSpan.stop e.content := by
  rw [childElements, List.mem_filterMap]
  constructor
  · intro h
    obtain ⟨⟨start, n⟩, hplaced, hshown⟩ := h
    match n with
    | .element tag content endTag => cases hshown; exact hplaced
    | .strayEnd tag => cases hshown
    | .run kind t => cases hshown
  · intro h
    exact ⟨_, h, rfl⟩

/-- A child stands behind the start tag and ends before the end tag. -/
theorem within_childElements {child : Element} (h : child ∈ e.childElements) :
    e.startTagSpan.stop ≤ child.start ∧ child.start + child.node.width ≤ e.contentStop :=
  Node.span_of_mem_placed (mem_childElements.1 h)

/-- A child of sound content is sound. -/
theorem sound_of_mem_childElements (h : Node.SoundAll e.content) {child : Element}
    (hchild : child ∈ e.childElements) : child.node.Sound :=
  h.of_mem_placed (mem_childElements.1 hchild)

theorem pairwise_childElements (h : Node.SoundAll e.content) :
    e.childElements.Pairwise fun a b => a.start < b.start := by
  rw [childElements, List.pairwise_filterMap]
  refine (Node.pairwise_placed e.startTagSpan.stop e.content).imp_of_mem ?_
  intro m n hm _ hbehind a ha b hb
  obtain ⟨start, node⟩ := m
  obtain ⟨start', node'⟩ := n
  match node, node' with
  | .element .., .element .. =>
    cases ha
    cases hb
    have hpos := Node.Sound.width_pos (h.of_mem_placed hm)
    dsimp only at hbehind ⊢
    omega
  | .element .., .strayEnd _ => cases hb
  | .element .., .run _ _ => cases hb
  | .strayEnd _, _ => cases ha
  | .run _ _, _ => cases ha

/-- A child is seen among what is inside the element. -/
theorem exists_view_childElements {child : Element} (h : child ∈ e.childElements)
    (enclosing : List Enclosure) (before items : List Item) :
    ∃ v ∈ Node.viewsOfAll enclosing before items e.startTagSpan.stop e.content,
      v.item = .element child ∧ v.enclosing = enclosing := by
  obtain ⟨ms, rest, hcontent, hstart⟩ := Node.exists_of_mem_placed (mem_childElements.1 h)
  obtain ⟨before', after, hall⟩ := Node.exists_views_subset enclosing before items
    e.startTagSpan.stop ms child.node rest
  refine ⟨⟨.element child, before', after, enclosing⟩, ?_, rfl, rfl⟩
  rw [hcontent]
  apply hall
  rw [← hstart]
  exact List.mem_cons_self

end Element

/-- The root stands among the top-level nodes. -/
theorem Document.exists_of_root? {d : Document} {root : Element} (h : d.root? = some root) :
    ∃ pre post, d.nodes = pre ++ root.node :: post ∧ root.start = 0 + Node.widthOfAll pre := by
  obtain ⟨i, hi, hroot⟩ := List.exists_of_findSome?_eq_some h
  obtain ⟨placed, hplaced, hshown⟩ := List.mem_filterMap.1 hi
  obtain ⟨pre, post, hnodes, hstart⟩ := Node.exists_of_mem_placed hplaced
  rw [Item.element?_eq_some hroot] at hshown
  obtain ⟨hnode, hat⟩ := Item.ofNode?_eq_element hshown
  exact ⟨pre, post, by rw [hnodes, hnode], by rw [← hat, hstart]⟩

end ProjectFile.Markup
