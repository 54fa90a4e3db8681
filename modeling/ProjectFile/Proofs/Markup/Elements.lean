import ProjectFile.Markup.View
import ProjectFile.Proofs.Markup.Parts

/-!
What the view of a document shows of its tree.

1. The attributes of an element are those of its start tag, in order (`Element.map_attr_attributes`).
2. The elements among the views of an element are itself and those of its content
   (`Node.elements_views_element`).
3. So the elements of a document are exactly the elements of its concrete tree, in the same order and
   at the same offsets (`Document.placed_elements`).
-/

namespace ProjectFile.Markup

/-! ## Attributes -/

/-- The attributes among the items of a start tag. -/
def TagItem.attributes (items : List TagItem) : List Attribute := items.filterMap TagItem.attribute?

theorem TagItem.map_attr_placed (offset : Nat) (items : List TagItem) :
    ((TagItem.placed offset items).filterMap PlacedAttribute.ofItem?).map PlacedAttribute.attr =
      attributes items := by
  induction items generalizing offset with
  | nil => rfl
  | cons i items ih =>
    match i with
    | .attribute a => exact congrArg (a :: ·) (ih _)
    | .filler f => exact ih _

/-- The attributes of an element are those of its start tag. -/
theorem Element.map_attr_attributes (e : Element) :
    e.attributes.map PlacedAttribute.attr = TagItem.attributes e.tag.items :=
  TagItem.map_attr_placed e.itemsStart e.tag.items

/-! ## Elements -/

/-- The elements that some views are of. -/
def View.elements (vs : List View) : List Element := vs.filterMap fun v => v.item.element?

theorem View.elements_append (vs ws : List View) : elements (vs ++ ws) = elements vs ++ elements ws :=
  List.filterMap_append

/-- The views in a start tag are not of elements. -/
theorem TagItem.elements_viewsOfAll (enclosing : List Enclosure) (before : List Item) (offset : Nat)
    (items : List TagItem) : View.elements (TagItem.viewsOfAll enclosing before offset items) = [] := by
  induction items generalizing before offset with
  | nil => rfl
  | cons i items ih =>
    match i with
    | .attribute a => exact ih _ _
    | .filler f => exact ih _ _

namespace Node

theorem elements_views_run (enclosing : List Enclosure) (before after : List Item) (offset : Nat)
    (kind : RunKind) (t : Text) :
    View.elements ((Node.run kind t).views enclosing before after offset) = [] := by
  rw [views]
  cases kind.content? <;> rfl

/-- The elements in an element: itself, and those in its content. -/
theorem elements_views_element (enclosing : List Enclosure) (before after : List Item)
    (offset : Nat) (tag : StartTag) (content : List Node) (endTag : Option EndTag) :
    let e : Element := ⟨offset, tag, content, endTag⟩
    View.elements ((Node.element tag content endTag).views enclosing before after offset) =
      e :: View.elements
        (viewsOfAll (⟨e, before, after⟩ :: enclosing) [] e.children e.startTagSpan.stop content) := by
  intro e
  have hattributes := TagItem.elements_viewsOfAll (⟨e, before, after⟩ :: enclosing) [] e.itemsStart
    tag.items
  have happend := View.elements_append
    (TagItem.viewsOfAll (⟨e, before, after⟩ :: enclosing) [] e.itemsStart tag.items)
    (viewsOfAll (⟨e, before, after⟩ :: enclosing) [] e.children e.startTagSpan.stop content)
  rw [hattributes, List.nil_append] at happend
  rw [← happend]
  rfl

end Node

/-! ## The elements of the tree and of the view -/

/-- The element as a tree at its offset. -/
def Element.placed (e : Element) : Placed := ⟨e.start, e.node.concrete⟩

/-- The elements among some sites. -/
def Site.elements (ss : List Site) : List Placed :=
  (ss.filter fun s => decide (s.here.tree.kind = .inr .element)).map Site.here

theorem Site.elements_append (ss ts : List Site) :
    elements (ss ++ ts) = elements ss ++ elements ts := by
  rw [elements, List.filter_append, List.map_append]
  rfl

theorem Site.elements_plain {ss : List Site} (h : ∀ s ∈ ss, s.here.tree.Plain) :
    elements ss = [] := by
  have hnone : ss.filter (fun s => decide (s.here.tree.kind = .inr .element)) = [] := by
    apply List.filter_eq_nil_iff.2
    intro s hs
    rw [decide_eq_true_eq]
    exact (h s hs).1
  rw [elements, hnone]
  rfl

theorem EndTag.elements_sites (around : List Placed) (offset : Nat) (tag : EndTag) :
    Site.elements (tag.concrete.sites around offset) = [] := by
  obtain ⟨inner, hsites, hinner⟩ := tag.sites_concrete around offset
  have hself : Site.elements (⟨⟨offset, tag.concrete⟩, around⟩ :: inner) = Site.elements inner := rfl
  rw [hsites, hself]
  exact Site.elements_plain hinner

namespace Node

mutual

theorem placed_elements (around : List Placed) (enclosing : List Enclosure)
    (before after : List Item) (offset : Nat) : ∀ n : Node,
    (View.elements (n.views enclosing before after offset)).map Element.placed =
      Site.elements (n.concrete.sites around offset)
  | .run kind t => by
    rw [elements_views_run]
    rfl
  | .strayEnd tag => by
    have hself : Site.elements ((strayEnd tag).concrete.sites around offset) =
        Site.elements (tag.concrete.sites (⟨offset, (strayEnd tag).concrete⟩ :: around) offset) := by
      rw [sites_strayEnd]
      rfl
    rw [hself, EndTag.elements_sites]
    rfl
  | .element tag content endTag => by
    let e : Element := ⟨offset, tag, content, endTag⟩
    -- Of the three parts of an element only the content has elements in it.
    have hstart : Site.elements (tag.concrete.sites (e.placed :: around) offset) = [] :=
      Site.elements_plain fun s hs => StartTag.plain_of_mem_sites hs
    have hend : Site.elements (endTagSites (e.placed :: around)
        (offset + tag.text.width + widthOfAll content) endTag) = [] := by
      cases endTag with
      | none => rfl
      | some closer => exact closer.elements_sites _ _
    have hcontent := placed_elementsOfAll (e.placed :: around) (⟨e, before, after⟩ :: enclosing) []
      e.children e.startTagSpan.stop content
    have hself : Site.elements ((Node.element tag content endTag).concrete.sites around offset) =
        e.placed :: Site.elements (tag.concrete.sites (e.placed :: around) offset ++
          (Concrete.sitesOfAll (e.placed :: around) (offset + tag.text.width)
              (concreteOfAll content) ++
            endTagSites (e.placed :: around) (offset + tag.text.width + widthOfAll content)
              endTag)) := by
      rw [sites_element around offset tag content endTag]
      rfl
    rw [elements_views_element, List.map_cons, hcontent, hself, Site.elements_append, hstart,
      Site.elements_append, hend, List.nil_append, List.append_nil]
    rfl

theorem placed_elementsOfAll (around : List Placed) (enclosing : List Enclosure)
    (before items : List Item) (offset : Nat) : ∀ ns : List Node,
    (View.elements (viewsOfAll enclosing before items offset ns)).map Element.placed =
      Site.elements (Concrete.sitesOfAll around offset (concreteOfAll ns))
  | [] => rfl
  | n :: ns => by
    rw [viewsOfAll, View.elements_append, List.map_append, concreteOfAll, Concrete.sitesOfAll,
      Site.elements_append, placed_elements around, placed_elementsOfAll around, width_concrete]

end

end Node

/-- **The elements of the view are the elements of the tree**, in the same order and at the same
offsets. -/
theorem Document.placed_elements (d : Document) :
    d.elements.map Element.placed = Site.elements d.sites := by
  cases d with
  | binary t =>
    exact (Site.elements_plain ((Concrete.forall_sites [] 0 _).2 (plain_binary t))).symm
  | markup nodes =>
    have hnodes := Node.placed_elementsOfAll [⟨0, (Document.markup nodes).concrete⟩] [] []
      (Document.markup nodes).children 0 nodes
    exact hnodes

end ProjectFile.Markup
