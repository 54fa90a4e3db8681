import ProjectFile.Proofs.Markup.Elements

/-!
The view of a document is its concrete tree, with everything left out that is not shown.

Elements, attributes, character data, comments and CDATA sections are shown (`Concrete.isShown`).
Every view has a place in the tree: its own tree, and around it the trees of the elements around it
and of the document, with the start tag besides when it is an attribute (`View.site`). The views are
these places, one by one and in order (`Document.map_siteOf_views`).
-/

namespace ProjectFile.Markup

/-! ## What is shown -/

/-- The kind of the runs that are content of a kind. -/
def ContentKind.run : ContentKind → RunKind
  | .text => .text
  | .blank => .blank
  | .comment => .comment
  | .cdata => .cdata

theorem RunKind.content?_eq_some_iff {kind : RunKind} {k : ContentKind} :
    kind.content? = some k ↔ kind = k.run := by
  cases kind <;> cases k <;> simp [content?, ContentKind.run]

/-- Whether the view shows a tree. -/
def Concrete.isShown (c : Concrete) : Bool :=
  match c.kind with
  | .inr .element => true
  | .inr .attribute => true
  | .inr (.run kind) => kind.content?.isSome
  | _ => false

/-- The sites among some that are shown. -/
def Site.shown (ss : List Site) : List Site := ss.filter fun s => s.here.tree.isShown

theorem Site.shown_append (ss ts : List Site) : shown (ss ++ ts) = shown ss ++ shown ts := by
  simp [shown]

/-- Whether a tree is not shown. -/
def Concrete.Hidden (c : Concrete) : Prop := c.isShown = false

theorem Concrete.hidden_leaf (kind : LeafKind) (t : Text) : (leaf kind t).Hidden := rfl

open Concrete (Hidden ForallOfAll)

theorem Site.shown_hidden {cs : List Concrete} (h : ForallOfAll Hidden cs) (around : List Placed)
    (offset : Nat) : shown (Concrete.sitesOfAll around offset cs) = [] := by
  have hall := (Concrete.forall_sitesOfAll around offset cs).2 h
  rw [shown, List.filter_eq_nil_iff]
  intro s hs
  rw [hall s hs]
  simp

/-! ## What is hidden in tags -/

theorem hidden_leafUnlessEmpty (kind : LeafKind) (t : Text) :
    ForallOfAll Hidden (Concrete.leafUnlessEmpty kind t) := by
  unfold Concrete.leafUnlessEmpty
  split
  · trivial
  · exact ⟨Concrete.hidden_leaf kind t, trivial⟩

theorem hidden_nameLeaf (name : Option Text) : ForallOfAll Hidden (nameLeaf name) := by
  cases name with
  | none => trivial
  | some n => exact ⟨Concrete.hidden_leaf .name n, trivial⟩

theorem Quoted.hidden (q : Quoted) : q.concrete.Forall Hidden := by
  refine ⟨rfl, Concrete.hidden_leaf .quote _, ?_⟩
  apply Concrete.forallOfAll_append.2
  refine ⟨hidden_leafUnlessEmpty .valueText q.body, ?_⟩
  split
  · exact ⟨Concrete.hidden_leaf .quote _, trivial⟩
  · trivial

/-- What follows the name of an attribute is not shown apart from it. -/
theorem Assignment.hidden (a : Assignment) : ForallOfAll Hidden a.concrete := by
  have hequals : Hidden (.leaf .equals ['=']) := Concrete.hidden_leaf _ _
  cases a with
  | absent => trivial
  | bare before =>
    apply Concrete.forallOfAll_append.2
    exact ⟨hidden_leafUnlessEmpty .space before, hequals, trivial⟩
  | value before after quoted =>
    apply Concrete.forallOfAll_append.2
    refine ⟨hidden_leafUnlessEmpty .space before, hequals, ?_⟩
    apply Concrete.forallOfAll_append.2
    exact ⟨hidden_leafUnlessEmpty .space after, quoted.hidden, trivial⟩

theorem Filler.hidden (f : Filler) : f.concrete.Forall Hidden := by
  cases f with
  | space t => exact Concrete.hidden_leaf .space t
  | junk t => exact ⟨rfl, Concrete.hidden_leaf .junk t, trivial⟩

theorem TagEnding.hidden (ending : TagEnding) : ForallOfAll Hidden ending.concrete := by
  cases ending with
  | content => exact ⟨Concrete.hidden_leaf _ _, trivial⟩
  | selfClosed => exact ⟨Concrete.hidden_leaf _ _, trivial⟩
  | missing => trivial

/-- Nothing in an end tag is shown. -/
theorem EndTag.hidden (tag : EndTag) : tag.concrete.Forall Hidden := by
  refine ⟨rfl, Concrete.hidden_leaf _ _, ?_⟩
  apply Concrete.forallOfAll_append.2
  constructor
  · apply Concrete.forallOfAll_append.2
    refine ⟨hidden_nameLeaf tag.name, Concrete.forallOfAll_iff.2 ?_⟩
    intro c hc
    obtain ⟨f, -, rfl⟩ := List.mem_map.1 hc
    exact f.hidden
  · split
    · exact ⟨Concrete.hidden_leaf _ _, trivial⟩
    · trivial

theorem EndTag.shown_sites (around : List Placed) (offset : Nat) (tag : EndTag) :
    Site.shown (tag.concrete.sites around offset) = [] := by
  have h : ForallOfAll Hidden [tag.concrete] := ⟨tag.hidden, trivial⟩
  have hnone := Site.shown_hidden h around offset
  simpa [Concrete.sitesOfAll] using hnone

/-! ## The place of a view -/

/-- The start tag as a tree at its offset. -/
def Element.placedTag (e : Element) : Placed := ⟨e.start, e.tag.concrete⟩

/-- The tree of an item at its offset. -/
def Item.placed : Item → Placed
  | .element e => e.placed
  | .attribute a => ⟨a.start, (TagItem.attribute a.attr).concrete⟩
  | .content kind start t => ⟨start, (Node.run kind.run t).concrete⟩

/-- The start tag that an attribute is in. -/
def View.tagAround (v : View) : Option Placed :=
  match v.item with
  | .attribute _ => v.parentElement?.map Element.placedTag
  | _ => none

/-- The trees of the elements around something. -/
def Enclosure.placedAll (enclosing : List Enclosure) : List Placed :=
  enclosing.map fun x => x.element.placed

/-- The place of a view in a concrete tree, with the trees `base` around everything. -/
def View.site (base : List Placed) (v : View) : Site :=
  ⟨v.item.placed, v.tagAround.toList ++ (Enclosure.placedAll v.enclosing ++ base)⟩

/-- The attributes of a start tag are what is shown in it. -/
theorem TagItem.shown_sitesOfAll (base : List Placed) (innermost : Enclosure)
    (outer : List Enclosure) (before : List Item) (offset : Nat) (items : List TagItem) :
    Site.shown (Concrete.sitesOfAll
        (innermost.element.placedTag :: (Enclosure.placedAll (innermost :: outer) ++ base)) offset
        (items.map concrete)) =
      (viewsOfAll (innermost :: outer) before offset items).map (View.site base) := by
  induction items generalizing before offset with
  | nil => rfl
  | cons i items ih =>
    have hwidth : i.concrete.width = i.text.width := by
      rw [Concrete.width_eq, i.text_concrete]
    rw [List.map_cons, Concrete.sitesOfAll, Site.shown_append, hwidth]
    match i with
    | .attribute a =>
      have hinside : ForallOfAll Hidden (.leaf .name a.name :: a.assignment.concrete) :=
        ⟨Concrete.hidden_leaf _ _, a.assignment.hidden⟩
      rw [viewsOfAll, List.map_cons, ← ih, concrete, Concrete.sites, Site.shown, List.filter_cons]
      rw [← Site.shown, Site.shown_hidden hinside]
      rfl
    | .filler f =>
      have hfiller : ForallOfAll Hidden [f.concrete] := ⟨f.hidden, trivial⟩
      have hnone := Site.shown_hidden hfiller
        (innermost.element.placedTag :: (Enclosure.placedAll (innermost :: outer) ++ base)) offset
      rw [Concrete.sitesOfAll, Concrete.sitesOfAll, List.append_nil] at hnone
      rw [viewsOfAll, ← ih, concrete, hnone, List.nil_append]
      rfl

/-- What is shown in a start tag is shown in its items. -/
theorem StartTag.shown_sites (around : List Placed) (offset : Nat) (tag : StartTag) :
    Site.shown (tag.concrete.sites around offset) =
      Site.shown (Concrete.sitesOfAll (⟨offset, tag.concrete⟩ :: around)
        (offset + tag.opener.width + (tag.name.getD []).width) (tag.items.map TagItem.concrete)) := by
  let inside : List Placed := ⟨offset, tag.concrete⟩ :: around
  let name := offset + tag.opener.width
  have hname : Concrete.widthOfAll (nameLeaf tag.name) = (tag.name.getD []).width := by
    rw [Concrete.widthOfAll_eq, textOfAll_nameLeaf]
  have hself : Site.shown (tag.concrete.sites around offset) =
      Site.shown (Concrete.sitesOfAll inside name
        (nameLeaf tag.name ++ tag.items.map TagItem.concrete ++ tag.ending.concrete)) := rfl
  rw [hself, Concrete.sitesOfAll_append, Concrete.sitesOfAll_append, Site.shown_append,
    Site.shown_append, Site.shown_hidden (hidden_nameLeaf tag.name),
    Site.shown_hidden tag.ending.hidden, hname, List.nil_append, List.append_nil]

namespace Node

mutual

/-- The views in a node are what is shown of its tree. -/
theorem shown_sites (base : List Placed) (enclosing : List Enclosure) (before after : List Item)
    (offset : Nat) : ∀ n : Node,
    Site.shown (n.concrete.sites (Enclosure.placedAll enclosing ++ base) offset) =
      (n.views enclosing before after offset).map (View.site base)
  | .run kind t => by
    rw [views]
    cases hkind : kind.content? with
    | none => simp [concrete, Concrete.sites, Concrete.sitesOfAll, Site.shown, Concrete.isShown,
        Concrete.kind, hkind]
    | some k =>
      obtain rfl := RunKind.content?_eq_some_iff.1 hkind
      simp [concrete, Concrete.sites, Concrete.sitesOfAll, Site.shown, Concrete.isShown,
        Concrete.kind, hkind, View.site, View.tagAround, Item.placed]
  | .strayEnd tag => by
    have hself : Site.shown ((strayEnd tag).concrete.sites (Enclosure.placedAll enclosing ++ base)
        offset) = Site.shown (tag.concrete.sites
          (⟨offset, (strayEnd tag).concrete⟩ :: (Enclosure.placedAll enclosing ++ base)) offset) := by
      rw [sites_strayEnd]
      rfl
    rw [hself, EndTag.shown_sites]
    rfl
  | .element tag content endTag => by
    let e : Element := ⟨offset, tag, content, endTag⟩
    let x : Enclosure := ⟨e, before, after⟩
    -- The parts of an element are its start tag, its content and its end tag.
    have htag : Site.shown (tag.concrete.sites (Enclosure.placedAll (x :: enclosing) ++ base) offset) =
        (TagItem.viewsOfAll (x :: enclosing) [] e.itemsStart tag.items).map (View.site base) := by
      rw [StartTag.shown_sites]
      exact TagItem.shown_sitesOfAll base x enclosing [] e.itemsStart tag.items
    have hcontent := shown_sitesOfAll base (x :: enclosing) [] e.children e.startTagSpan.stop content
    have hend : Site.shown (endTagSites (Enclosure.placedAll (x :: enclosing) ++ base)
        (offset + tag.text.width + widthOfAll content) endTag) = [] := by
      cases endTag with
      | none => rfl
      | some closer => exact closer.shown_sites _ _
    have hself : Site.shown ((Node.element tag content endTag).concrete.sites
        (Enclosure.placedAll enclosing ++ base) offset) =
        View.site base ⟨.element e, before, after, enclosing⟩ ::
          Site.shown (tag.concrete.sites (Enclosure.placedAll (x :: enclosing) ++ base) offset ++
            (Concrete.sitesOfAll (Enclosure.placedAll (x :: enclosing) ++ base)
                (offset + tag.text.width) (concreteOfAll content) ++
              endTagSites (Enclosure.placedAll (x :: enclosing) ++ base)
                (offset + tag.text.width + widthOfAll content) endTag)) := by
      rw [sites_element]
      rfl
    rw [hself, Site.shown_append, Site.shown_append, hend, List.append_nil, views, List.map_cons,
      List.map_append]
    have hinside := congr (congrArg HAppend.hAppend htag) hcontent
    exact congrArg (View.site base ⟨.element e, before, after, enclosing⟩ :: ·) hinside

/-- The views in nodes are what is shown of their trees. -/
theorem shown_sitesOfAll (base : List Placed) (enclosing : List Enclosure)
    (before items : List Item) (offset : Nat) : ∀ ns : List Node,
    Site.shown (Concrete.sitesOfAll (Enclosure.placedAll enclosing ++ base) offset
        (concreteOfAll ns)) =
      (viewsOfAll enclosing before items offset ns).map (View.site base)
  | [] => rfl
  | n :: ns => by
    rw [viewsOfAll, List.map_append, concreteOfAll, Concrete.sitesOfAll, Site.shown_append,
      shown_sites base enclosing, shown_sitesOfAll base enclosing, width_concrete]

end

end Node

namespace Document

/-- The place of a view in the tree of a document. -/
def siteOf (d : Document) (v : View) : Site := v.site [⟨0, d.concrete⟩]

/-- **The views of a document are what is shown of its tree**, at the same places and in the same
order. -/
theorem map_siteOf_views (d : Document) : d.views.map d.siteOf = Site.shown d.sites := by
  cases d with
  | binary t =>
    have hnone := Site.shown_hidden (hidden_leafUnlessEmpty .junk t)
      [⟨0, (Document.binary t).concrete⟩] 0
    rw [sites, concrete, Concrete.sites, Site.shown, List.filter_cons, ← Site.shown]
    exact hnone.symm
  | markup nodes =>
    have hnodes := Node.shown_sitesOfAll [⟨0, (Document.markup nodes).concrete⟩] [] []
      (Document.markup nodes).children 0 nodes
    exact hnodes.symm

end Document

end ProjectFile.Markup
