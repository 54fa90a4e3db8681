import ProjectFile.Proofs.Markup.Children

/-!
The views of a document, row by row.

Things side by side make a row: each of its views has the others beside it and the same elements
around it (`View.row`). The views of nodes are the row of the nodes together with two rows for every
element among the views, of its attributes and of its children (`View.Family`), which is shown along
the nodes (`Node.family_viewsOfAll`). So the element around a view of a document is seen in the
document as well, and the view stands in one of its rows (`Document.exists_parent`); and what stands
in a row of an element is what has that element for its parent (`Document.parent?_eq_iff`). What
passes from an element to the nodes in it holds of all elements (`Document.forall_elements`).
-/

namespace ProjectFile.Markup

/-- The items that the attributes of an element are. -/
def Element.attributeItems (e : Element) : List Item := e.attributes.map .attribute

namespace View

/-- The views of items side by side, behind the items `before` and inside the elements `enclosing`. -/
def row (enclosing : List Enclosure) (before : List Item) : List Item → List View
  | [] => []
  | i :: items => ⟨i, before, items, enclosing⟩ :: row enclosing (i :: before) items

/-- What is around the things inside an element that is seen in a view. -/
def around (v : View) (e : Element) : List Enclosure := ⟨e, v.before, v.after⟩ :: v.enclosing

/-- The views of the attributes of an element that is seen in a view. -/
def attributeRow (v : View) (e : Element) : List View := row (v.around e) [] e.attributeItems

/-- The views of the children of an element that is seen in a view. -/
def childRow (v : View) (e : Element) : List View := row (v.around e) [] e.children

/-- Whether some views are linked to one another by the items beside them: each is behind the one
before it and before the one behind it, and nothing is beside them at the ends. -/
def Linked (vs : List View) : Prop :=
  ∀ front v back, vs = front ++ v :: back →
    v.previous? = front.getLast?.map item ∧ v.next? = back.head?.map item

variable {enclosing : List Enclosure} {before items : List Item} {v p : View} {e : Element}

@[simp] theorem map_item_row : (row enclosing before items).map item = items := by
  induction items generalizing before with
  | nil => rfl
  | cons i items ih => simp [row, ih]

theorem enclosing_of_mem_row (h : v ∈ row enclosing before items) : v.enclosing = enclosing := by
  induction items generalizing before with
  | nil => simp [row] at h
  | cons i items ih =>
    simp only [row, List.mem_cons] at h
    rcases h with rfl | h
    · rfl
    · exact ih h

theorem item_mem_of_mem_row (h : v ∈ row enclosing before items) : v.item ∈ items := by
  have hmem := List.mem_map_of_mem (f := item) h
  rwa [map_item_row] at hmem

/-- The item before the first of a row is the nearest of those that the row is behind. -/
theorem linked_row_of_before (front back : List View)
    (h : row enclosing before items = front ++ v :: back) :
    v.previous? = (front.getLast?.map item).or before.head? ∧ v.next? = back.head?.map item := by
  induction items generalizing before front with
  | nil => simp [row] at h
  | cons i items ih =>
    cases front with
    | nil =>
      simp only [row, List.nil_append, List.cons.injEq] at h
      obtain ⟨rfl, rfl⟩ := h
      refine ⟨by simp [previous?], ?_⟩
      cases items <;> simp [next?, row]
    | cons w front =>
      simp only [row, List.cons_append, List.cons.injEq] at h
      obtain ⟨rfl, h⟩ := h
      obtain ⟨hprevious, hnext⟩ := ih front h
      refine ⟨?_, hnext⟩
      rw [hprevious, List.getLast?_cons]
      cases front.getLast? <;> simp

/-- A row behind nothing is linked. -/
theorem linked_row : Linked (row enclosing [] items) := by
  intro front v back h
  have hlinked := linked_row_of_before front back h
  simpa using hlinked

/-! ## Families -/

/-- Whether views are those of the things in a row and of all that is inside the elements among
them. -/
structure Family (top vs : List View) : Prop where
  top_sublist : top.Sublist vs
  below : ∀ v ∈ vs, v ∈ top ∨ ∃ p ∈ vs, ∃ e, p.item = .element e ∧
    (v ∈ p.attributeRow e ∨ v ∈ p.childRow e)
  rows : ∀ p ∈ vs, ∀ e, p.item = .element e →
    (p.attributeRow e).Sublist vs ∧ (p.childRow e).Sublist vs

namespace Family

variable {top top' vs ws : List View}

theorem nil : Family [] [] := ⟨.slnil, by simp, by simp⟩

/-- What is in a part of some views is in all of them. -/
theorem below_mono (h : Family top vs) (hsub : vs.Sublist ws) (hv : v ∈ vs) :
    v ∈ top ∨ ∃ p ∈ ws, ∃ e, p.item = .element e ∧ (v ∈ p.attributeRow e ∨ v ∈ p.childRow e) := by
  rcases h.below v hv with htop | ⟨p, hp, hinside⟩
  · exact .inl htop
  · exact .inr ⟨p, hsub.subset hp, hinside⟩

theorem rows_mono (h : Family top vs) (hsub : vs.Sublist ws) (hp : p ∈ vs)
    (hitem : p.item = .element e) : (p.attributeRow e).Sublist ws ∧ (p.childRow e).Sublist ws := by
  obtain ⟨hattributes, hchildren⟩ := h.rows p hp e hitem
  exact ⟨hattributes.trans hsub, hchildren.trans hsub⟩

/-- Things side by side have their families one behind the other. -/
theorem append (hvs : Family top vs) (hws : Family top' ws) :
    Family (top ++ top') (vs ++ ws) where
  top_sublist := hvs.top_sublist.append hws.top_sublist
  below := by
    intro v hv
    rw [List.mem_append]
    rcases List.mem_append.1 hv with hv | hv
    · exact (hvs.below_mono (List.sublist_append_left vs ws) hv).imp_left .inl
    · exact (hws.below_mono (List.sublist_append_right vs ws) hv).imp_left .inr
  rows := by
    intro p hp e hitem
    rcases List.mem_append.1 hp with hp | hp
    · exact hvs.rows_mono (List.sublist_append_left vs ws) hp hitem
    · exact hws.rows_mono (List.sublist_append_right vs ws) hp hitem

/-- Things of which none is an element have nothing inside them. -/
theorem of_forall_ne (h : ∀ v ∈ top, ∀ e, v.item ≠ .element e) : Family top top where
  top_sublist := .refl _
  below := fun _ => .inl
  rows := fun p hp e hitem => absurd hitem (h p hp e)

/-- An element has its attributes and its children inside it, each with their families. -/
theorem element (hitem : p.item = .element e) (hvs : Family (p.attributeRow e) vs)
    (hws : Family (p.childRow e) ws) : Family [p] (p :: (vs ++ ws)) := by
  have hleft : vs.Sublist (p :: (vs ++ ws)) := (List.sublist_append_left vs ws).cons p
  have hright : ws.Sublist (p :: (vs ++ ws)) := (List.sublist_append_right vs ws).cons p
  refine ⟨by simp, ?_, ?_⟩
  · intro v hv
    rw [List.mem_cons, List.mem_append] at hv
    rcases hv with rfl | hv | hv
    · exact .inl (List.mem_singleton.2 rfl)
    · refine .inr ?_
      rcases hvs.below_mono hleft hv with htop | hinside
      · exact ⟨p, List.mem_cons_self, e, hitem, .inl htop⟩
      · exact hinside
    · refine .inr ?_
      rcases hws.below_mono hright hv with htop | hinside
      · exact ⟨p, List.mem_cons_self, e, hitem, .inr htop⟩
      · exact hinside
  · intro q hq f hf
    rw [List.mem_cons, List.mem_append] at hq
    rcases hq with rfl | hq | hq
    · rw [hitem] at hf
      cases hf
      exact ⟨hvs.top_sublist.trans hleft, hws.top_sublist.trans hright⟩
    · exact hvs.rows_mono hleft hq hf
    · exact hws.rows_mono hright hq hf

end Family

end View

/-! ## The rows of nodes -/

open View (row Family)

theorem Item.ofNodes_cons (offset : Nat) (n : Node) (ns : List Node) :
    ofNodes offset (n :: ns) = (ofNode? (offset, n)).toList ++ ofNodes (offset + n.width) ns := by
  rw [ofNodes, Node.placed, List.filterMap_cons]
  cases ofNode? (offset, n) <;> rfl

/-- No node is an attribute. -/
theorem Item.attribute?_of_mem_ofNodes {offset : Nat} {ns : List Node} {i : Item}
    (h : i ∈ ofNodes offset ns) : i.attribute? = none := by
  obtain ⟨⟨start, n⟩, -, hshown⟩ := List.mem_filterMap.1 h
  match n with
  | .element tag inside endTag =>
    cases hshown
    rfl
  | .strayEnd tag => cases hshown
  | .run kind t =>
    obtain ⟨k, -, rfl⟩ := Option.map_eq_some_iff.1 hshown
    rfl

/-- The views in a start tag are the row of its attributes. -/
theorem TagItem.viewsOfAll_eq_row (enclosing : List Enclosure) (before : List Item) (offset : Nat)
    (items : List TagItem) :
    viewsOfAll enclosing before offset items = row enclosing before (Item.ofTagItems offset items) := by
  induction items generalizing before offset with
  | nil => rfl
  | cons i items ih =>
    match i with
    | .attribute a =>
      have hcons : Item.ofTagItems offset (.attribute a :: items) =
          .attribute ⟨offset, a⟩ :: Item.ofTagItems (offset + a.text.width) items := rfl
      rw [viewsOfAll, ih, hcons, row]
    | .filler f =>
      have hskip : Item.ofTagItems offset (.filler f :: items) =
          Item.ofTagItems (offset + f.text.width) items := rfl
      rw [viewsOfAll, ih, hskip]

namespace Node

mutual

/-- The views in a node are its own, if it is shown, and those of all that is inside it. -/
theorem family_views (enclosing : List Enclosure) (before after : List Item) (offset : Nat) :
    ∀ n : Node, Family
      ((Item.ofNode? (offset, n)).map fun i => View.mk i before after enclosing).toList
      (n.views enclosing before after offset)
  | .strayEnd _ => .nil
  | .run kind t => by
    have hviews : (Node.run kind t).views enclosing before after offset =
        ((Item.ofNode? (offset, .run kind t)).map
          fun i => View.mk i before after enclosing).toList := by
      have hshown : Item.ofNode? (offset, .run kind t) =
          kind.content?.map fun k => .content k offset t := rfl
      rw [views, hshown, Option.map_map]
      rfl
    rw [hviews]
    refine .of_forall_ne ?_
    intro v hv e hitem
    rw [Option.mem_toList, Option.map_eq_some_iff] at hv
    obtain ⟨i, hi, rfl⟩ := hv
    obtain ⟨k, -, rfl⟩ := Option.map_eq_some_iff.1 hi
    cases hitem
  | .element tag content endTag => by
    let e : Element := ⟨offset, tag, content, endTag⟩
    let v : View := ⟨.element e, before, after, enclosing⟩
    have hattributes : Family (v.attributeRow e)
        (TagItem.viewsOfAll (v.around e) [] e.itemsStart tag.items) := by
      rw [TagItem.viewsOfAll_eq_row]
      refine .of_forall_ne ?_
      intro w hw f hitem
      have hmem := View.item_mem_of_mem_row hw
      rw [hitem] at hmem
      obtain ⟨a, -, ha⟩ := List.mem_map.1 hmem
      cases ha
    rw [views]
    exact .element rfl hattributes (family_viewsOfAll (v.around e) [] e.startTagSpan.stop content)

/-- **The views of nodes are the row of the nodes and those of all that is inside them.** -/
theorem family_viewsOfAll (enclosing : List Enclosure) (before : List Item) (offset : Nat) :
    ∀ ns : List Node, Family (row enclosing before (Item.ofNodes offset ns))
      (viewsOfAll enclosing before (Item.ofNodes offset ns) offset ns)
  | [] => .nil
  | n :: ns => by
    have hafter : (Item.ofNodes offset (n :: ns)).drop (Item.ofNode? (offset, n)).toList.length =
        Item.ofNodes (offset + n.width) ns := by
      rw [Item.ofNodes_cons, List.drop_left]
    have hrow : row enclosing before (Item.ofNodes offset (n :: ns)) =
        ((Item.ofNode? (offset, n)).map fun i =>
          View.mk i before (Item.ofNodes (offset + n.width) ns) enclosing).toList ++
        row enclosing ((Item.ofNode? (offset, n)).toList ++ before)
          (Item.ofNodes (offset + n.width) ns) := by
      rw [Item.ofNodes_cons]
      cases Item.ofNode? (offset, n) <;> rfl
    rw [viewsOfAll, hafter, hrow]
    exact (family_views _ _ _ _ n).append (family_viewsOfAll _ _ _ ns)

end

end Node

namespace Document

variable {d : Document} {v w : View} {e : Element}

theorem family_views (d : Document) : Family (row [] [] d.children) d.views :=
  Node.family_viewsOfAll [] [] 0 d.nodes

/-- **What is inside an element stands in one of the rows of a view of that element.** -/
theorem exists_parent (hv : v ∈ d.views) (hinside : v.enclosing ≠ []) :
    ∃ p ∈ d.views, ∃ e, p.item = .element e ∧ v.parent? = some p ∧
      (v ∈ p.attributeRow e ∨ v ∈ p.childRow e) := by
  rcases d.family_views.below v hv with htop | ⟨p, hp, e, hitem, hrow⟩
  · exact absurd (View.enclosing_of_mem_row htop) hinside
  · have hparent : v.enclosing = p.around e :=
      hrow.elim View.enclosing_of_mem_row View.enclosing_of_mem_row
    refine ⟨p, hp, e, hitem, ?_, hrow⟩
    rw [View.parent?, hparent, View.around, View.ofEnclosing, ← hitem]

/-- What is in the rows of an element is what has it for its parent. -/
theorem parent?_eq_iff (hw : w ∈ d.views) (hitem : v.item = .element e) :
    w.parent? = some v ↔ w ∈ v.attributeRow e ∨ w ∈ v.childRow e := by
  constructor
  · intro h
    have hinside : w.enclosing ≠ [] := by
      intro hnone
      rw [View.parent?, hnone] at h
      cases h
    obtain ⟨p, -, f, hf, hparent, hrow⟩ := exists_parent hw hinside
    rw [h] at hparent
    obtain rfl := Option.some.inj hparent
    rw [hitem] at hf
    cases hf
    exact hrow
  · intro h
    have hparent : w.enclosing = v.around e :=
      h.elim View.enclosing_of_mem_row View.enclosing_of_mem_row
    rw [View.parent?, hparent, View.around, View.ofEnclosing, ← hitem]

theorem attribute?_of_mem_childRow (h : w ∈ v.childRow e) : w.item.attribute? = none :=
  Item.attribute?_of_mem_ofNodes (View.item_mem_of_mem_row h)

theorem isSome_attribute?_of_mem_attributeRow (h : w ∈ v.attributeRow e) :
    w.item.attribute?.isSome = true := by
  obtain ⟨a, -, ha⟩ := List.mem_map.1 (View.item_mem_of_mem_row h)
  rw [← ha]
  rfl

/-- The children of an element are what has it for its parent and is no attribute. -/
theorem mem_childRow_iff (hw : w ∈ d.views) (hitem : v.item = .element e) :
    w ∈ v.childRow e ↔ w.item.attribute? = none ∧ w.parent? = some v := by
  rw [parent?_eq_iff hw hitem]
  constructor
  · intro h
    exact ⟨attribute?_of_mem_childRow h, .inr h⟩
  · intro h
    refine h.2.resolve_left fun hrow => ?_
    have hattribute := isSome_attribute?_of_mem_attributeRow hrow
    simp [h.1] at hattribute

/-- The attributes of an element are the attributes that have it for their parent. -/
theorem mem_attributeRow_iff (hw : w ∈ d.views) (hitem : v.item = .element e) :
    w ∈ v.attributeRow e ↔ w.item.attribute?.isSome = true ∧ w.parent? = some v := by
  rw [parent?_eq_iff hw hitem]
  constructor
  · intro h
    exact ⟨isSome_attribute?_of_mem_attributeRow h, .inl h⟩
  · intro h
    refine h.2.resolve_right fun hrow => ?_
    have hnone := attribute?_of_mem_childRow hrow
    simp [hnone] at h

/-- An attribute is seen among those of an element of the document. -/
theorem exists_parent_of_attribute {a : PlacedAttribute} (hv : v ∈ d.views)
    (hitem : v.item = .attribute a) :
    ∃ p ∈ d.views, ∃ e, p.item = .element e ∧ v ∈ p.attributeRow e ∧ a ∈ e.attributes := by
  have hattribute : ¬ v.item.attribute? = none := by simp [hitem, Item.attribute?]
  rcases d.family_views.below v hv with htop | ⟨p, hp, e, he, hrow⟩
  · exact absurd (Item.attribute?_of_mem_ofNodes (View.item_mem_of_mem_row htop)) hattribute
  · have hrow := hrow.resolve_right fun h => hattribute (attribute?_of_mem_childRow h)
    have hmem := View.item_mem_of_mem_row hrow
    rw [hitem, Element.attributeItems, List.mem_map] at hmem
    obtain ⟨b, hb, heq⟩ := hmem
    cases heq
    exact ⟨p, hp, e, he, hrow, hb⟩

/-- The elements around a view are elements of the document. -/
theorem element_mem_of_enclosing (hv : v ∈ d.views) {x : Enclosure} (hx : x ∈ v.enclosing) :
    x.element ∈ d.elements := by
  obtain ⟨enclosing, henclosing⟩ : ∃ enclosing, v.enclosing = enclosing := ⟨_, rfl⟩
  rw [henclosing] at hx
  induction enclosing generalizing v with
  | nil => cases hx
  | cons innermost outer ih =>
    obtain ⟨p, hp, e, hitem, hparent, -⟩ := exists_parent hv (by simp [henclosing])
    rw [View.parent?, henclosing, View.ofEnclosing, Option.some.injEq] at hparent
    subst hparent
    rcases List.mem_cons.1 hx with rfl | hx
    · exact List.mem_filterMap.2 ⟨_, hp, rfl⟩
    · exact ih hp hx rfl

/-- An element among the items of nodes has its node among them. -/
theorem node_mem_of_mem_ofNodes {offset : Nat} {ns : List Node} {e : Element}
    (h : .element e ∈ Item.ofNodes offset ns) : e.node ∈ ns := by
  obtain ⟨⟨start, n⟩, hplaced, hshown⟩ := List.mem_filterMap.1 h
  obtain ⟨ms, rest, rfl, -⟩ := Node.exists_of_mem_placed hplaced
  rw [← (Item.ofNode?_eq_element hshown).1]
  exact List.mem_append_right ms List.mem_cons_self

/-- What holds of the nodes at the top, and with an element of the nodes in it, holds of every element
of a document. -/
theorem forall_elements {P : Node → Prop} (htop : ∀ n ∈ d.nodes, P n)
    (hinside : ∀ e : Element, P e.node → ∀ n ∈ e.content, P n) : ∀ e ∈ d.elements, P e.node := by
  intro e he
  obtain ⟨v, hv, hitem⟩ := mem_elements_iff.1 he
  clear he
  obtain ⟨enclosing, henclosing⟩ : ∃ enclosing, v.enclosing = enclosing := ⟨_, rfl⟩
  induction enclosing generalizing v e with
  | nil =>
    rcases d.family_views.below v hv with hrow | ⟨p, -, f, -, hrow⟩
    · have hmem := View.item_mem_of_mem_row hrow
      rw [hitem] at hmem
      exact htop _ (node_mem_of_mem_ofNodes hmem)
    · have haround := hrow.elim View.enclosing_of_mem_row View.enclosing_of_mem_row
      rw [henclosing] at haround
      cases haround
  | cons innermost outer ih =>
    obtain ⟨p, hp, f, hf, hparent, hrow⟩ := exists_parent hv (by simp [henclosing])
    have hattribute : ¬ v.item.attribute?.isSome = true := by simp [hitem, Item.attribute?]
    have hchild := hrow.resolve_left fun h => hattribute (isSome_attribute?_of_mem_attributeRow h)
    have houter : p.enclosing = outer := by
      have haround := View.enclosing_of_mem_row hchild
      rw [henclosing, View.around, List.cons.injEq] at haround
      exact haround.2.symm
    have hmem := View.item_mem_of_mem_row hchild
    rw [hitem] at hmem
    exact hinside f (ih f p hp hf houter) e.node (node_mem_of_mem_ofNodes hmem)

end Document

end ProjectFile.Markup
