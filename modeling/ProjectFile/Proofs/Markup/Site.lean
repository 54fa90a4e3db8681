import ProjectFile.Markup.Outline

/-!
Places in a concrete tree.

A `Site` is a tree inside a larger one, with its offset and the trees around it, innermost first;
`Concrete.sites` lists those of a tree. What a document says about a tree is read off it the way an
editor does: the name of a tag is its first name leaf, the tags of an element are the first children
of their kinds. The lemmas say what these are for the trees of nodes (`Node.elementName?_concrete`,
`Node.endTag?_concrete`, `Node.isUnclosed_concrete`), and cut the sites of an element into those of
its start tag, its content and its end tag (`Node.sites_element`).
-/

namespace ProjectFile.Markup

/-- A concrete tree at an offset. -/
structure Placed where
  start : Nat
  tree : Concrete

/-- A tree inside a larger one, and the trees around it, innermost first. -/
structure Site where
  here : Placed
  around : List Placed

namespace Concrete

/-- The kind of a tree. -/
def kind : Concrete → LeafKind ⊕ BranchKind
  | .leaf kind _ => .inl kind
  | .branch kind _ => .inr kind

/-- The trees right below a tree. -/
def children : Concrete → List Concrete
  | .leaf _ _ => []
  | .branch _ children => children

/-- Trees that follow one another from `offset` on, each with its own offset. -/
def placeAll (offset : Nat) : List Concrete → List Placed
  | [] => []
  | c :: cs => ⟨offset, c⟩ :: placeAll (offset + c.width) cs

mutual

/-- The sites in a tree at `offset`, itself first. -/
def sites (around : List Placed) (offset : Nat) : Concrete → List Site
  | .leaf kind t => [⟨⟨offset, .leaf kind t⟩, around⟩]
  | .branch kind children =>
    ⟨⟨offset, .branch kind children⟩, around⟩ ::
      sitesOfAll (⟨offset, .branch kind children⟩ :: around) offset children

/-- The sites in trees that follow one another from `offset` on. -/
def sitesOfAll (around : List Placed) (offset : Nat) : List Concrete → List Site
  | [] => []
  | c :: cs => c.sites around offset ++ sitesOfAll around (offset + c.width) cs

end

/-- The text of a name leaf. -/
def asName : Concrete → Option Text
  | .leaf .name t => some t
  | _ => none

/-- The text of the first name leaf right below a tree. -/
def nameLeaf? (c : Concrete) : Option Text := c.children.findSome? asName

/-- The start tag right below an element. -/
def startTag? (c : Concrete) : Option Concrete :=
  c.children.find? fun child => decide (child.kind = .inr .startTag)

/-- The end tag right below an element. -/
def endTag? (c : Concrete) : Option Concrete :=
  c.children.find? fun child => decide (child.kind = .inr .endTag)

/-- The name of an element. -/
def elementName? (c : Concrete) : Option Text := c.startTag?.bind nameLeaf?

/-- Whether the start tag of an element ends with `>`. -/
def endsOpen (c : Concrete) : Bool :=
  match c.startTag?.bind fun tag => tag.leaves.getLast? with
  | some (.rightAngle, _) => true
  | _ => false

/-- Whether a tree is a named element whose start tag ends with `>` and that has no end tag. -/
def isUnclosed (c : Concrete) : Bool :=
  decide (c.kind = .inr .element) && c.elementName?.isSome && c.endsOpen && c.endTag?.isNone

end Concrete

namespace Placed

/-- The offset after the tree. -/
def stop (p : Placed) : Nat := p.start + p.tree.width

/-- The trees right below, each with its own offset. -/
def children (p : Placed) : List Placed := Concrete.placeAll p.start p.tree.children

end Placed

/-- The sites in a document. -/
def Document.sites (d : Document) : List Site := d.concrete.sites [] 0

namespace Concrete

theorem sitesOfAll_append (around : List Placed) (offset : Nat) (cs ds : List Concrete) :
    sitesOfAll around offset (cs ++ ds) =
      sitesOfAll around offset cs ++ sitesOfAll around (offset + widthOfAll cs) ds := by
  induction cs generalizing offset with
  | nil => simp [sitesOfAll, widthOfAll]
  | cons c cs ih => simp [sitesOfAll, widthOfAll, ih, Nat.add_assoc]

theorem placeAll_append (offset : Nat) (cs ds : List Concrete) :
    placeAll offset (cs ++ ds) = placeAll offset cs ++ placeAll (offset + widthOfAll cs) ds := by
  induction cs generalizing offset with
  | nil => simp [placeAll, widthOfAll]
  | cons c cs ih => simp [placeAll, widthOfAll, ih, Nat.add_assoc]

theorem textOfAll_append (cs ds : List Concrete) :
    textOfAll (cs ++ ds) = textOfAll cs ++ textOfAll ds := by
  induction cs with
  | nil => rfl
  | cons c cs ih => simp [textOfAll, ih]

theorem leavesOfAll_append (cs ds : List Concrete) :
    leavesOfAll (cs ++ ds) = leavesOfAll cs ++ leavesOfAll ds := by
  induction cs with
  | nil => rfl
  | cons c cs ih => simp [leavesOfAll, ih]

/-! ## Statements about every tree in a tree -/

mutual

/-- Whether a tree and all trees in it satisfy `p`. -/
def Forall (p : Concrete → Prop) : Concrete → Prop
  | .leaf kind t => p (.leaf kind t)
  | .branch kind children => p (.branch kind children) ∧ ForallOfAll p children

/-- Whether some trees and all trees in them satisfy `p`. -/
def ForallOfAll (p : Concrete → Prop) : List Concrete → Prop
  | [] => True
  | c :: cs => c.Forall p ∧ ForallOfAll p cs

end

mutual

theorem forall_sites {p : Concrete → Prop} (around : List Placed) (offset : Nat) :
    ∀ c : Concrete, (∀ s ∈ c.sites around offset, p s.here.tree) ↔ c.Forall p
  | .leaf kind t => by simp [sites, Forall]
  | .branch kind children => by
    rw [sites, List.forall_mem_cons, Forall, forall_sitesOfAll _ offset children]

/-- A statement about the trees at all sites is one about all trees in a tree. -/
theorem forall_sitesOfAll {p : Concrete → Prop} (around : List Placed) (offset : Nat) :
    ∀ cs : List Concrete,
      (∀ s ∈ sitesOfAll around offset cs, p s.here.tree) ↔ ForallOfAll p cs
  | [] => by simp [sitesOfAll, ForallOfAll]
  | c :: cs => by
    rw [sitesOfAll, List.forall_mem_append, ForallOfAll, forall_sites around offset c,
      forall_sitesOfAll around _ cs]

end

theorem forallOfAll_append {p : Concrete → Prop} {cs ds : List Concrete} :
    ForallOfAll p (cs ++ ds) ↔ ForallOfAll p cs ∧ ForallOfAll p ds := by
  induction cs with
  | nil => simp [ForallOfAll]
  | cons c cs ih => simp [ForallOfAll, ih, and_assoc]

theorem forallOfAll_iff {p : Concrete → Prop} {cs : List Concrete} :
    ForallOfAll p cs ↔ ∀ c ∈ cs, c.Forall p := by
  induction cs with
  | nil => simp [ForallOfAll]
  | cons c cs ih => simp [ForallOfAll, ih]

end Concrete

/-! ## The text of the trees of nodes -/

open Concrete (leafUnlessEmpty textOfAll widthOfAll sites sitesOfAll)

@[simp] theorem Concrete.textOfAll_leafUnlessEmpty (kind : LeafKind) (t : Text) :
    textOfAll (leafUnlessEmpty kind t) = t := by
  unfold leafUnlessEmpty
  split
  · next h => rw [List.isEmpty_iff.1 h]; rfl
  · simp [textOfAll, Concrete.text]

theorem Quoted.text_concrete (q : Quoted) : q.concrete.text = q.text := by
  simp only [concrete, Concrete.text, textOfAll, Concrete.textOfAll_append,
    Concrete.textOfAll_leafUnlessEmpty, Quoted.text]
  split <;> simp [textOfAll, Concrete.text]

theorem Assignment.text_concrete (a : Assignment) : textOfAll a.concrete = a.text := by
  cases a with
  | absent => rfl
  | bare before =>
    simp [concrete, text, Concrete.textOfAll_append, textOfAll, Concrete.text]
  | value before after quoted =>
    simp [concrete, text, Concrete.textOfAll_append, textOfAll, Concrete.text,
      Quoted.text_concrete]

theorem Filler.text_concrete (f : Filler) : f.concrete.text = f.text := by
  cases f <;> simp [concrete, text, Concrete.text, textOfAll]

theorem TagItem.text_concrete : ∀ i : TagItem, i.concrete.text = i.text
  | .attribute a => by
    simp [concrete, text, Attribute.text, Concrete.text, textOfAll, Assignment.text_concrete]
  | .filler f => f.text_concrete

theorem TagEnding.text_concrete (ending : TagEnding) : textOfAll ending.concrete = ending.text := by
  cases ending <;> rfl

theorem textOfAll_nameLeaf (name : Option Text) : textOfAll (nameLeaf name) = name.getD [] := by
  cases name <;> simp [nameLeaf, textOfAll, Concrete.text]

/-- Trees of things that follow one another have the text of the things. -/
theorem Concrete.textOfAll_map {α : Type} {tree : α → Concrete} {text : α → Text}
    (h : ∀ a, (tree a).text = text a) (as : List α) :
    textOfAll (as.map tree) = as.flatMap text := by
  induction as with
  | nil => rfl
  | cons a as ih => simp [textOfAll, h, ih]

theorem StartTag.text_concrete (tag : StartTag) : tag.concrete.text = tag.text := by
  simp only [concrete, Concrete.text, textOfAll, Concrete.textOfAll_append, textOfAll_nameLeaf,
    Concrete.textOfAll_map TagItem.text_concrete, TagEnding.text_concrete, StartTag.text,
    List.append_assoc]

theorem EndTag.text_concrete (tag : EndTag) : tag.concrete.text = tag.text := by
  simp only [concrete, Concrete.text, textOfAll, Concrete.textOfAll_append, textOfAll_nameLeaf,
    Concrete.textOfAll_map Filler.text_concrete, EndTag.text, List.append_assoc]
  split <;> rfl

theorem EndTag.textOfAll_toList (endTag : Option EndTag) :
    textOfAll (endTag.map EndTag.concrete).toList = (endTag.map EndTag.text).getD [] := by
  cases endTag with
  | none => rfl
  | some tag => simp [textOfAll, tag.text_concrete]

namespace Node

mutual

theorem text_concrete : ∀ n : Node, n.concrete.text = n.text
  | .element tag content endTag => by
    simp [concrete, text, Concrete.text, Concrete.textOfAll, Concrete.textOfAll_append,
      StartTag.text_concrete, EndTag.textOfAll_toList, text_concreteOfAll content]
  | .strayEnd tag => by
    simp [concrete, text, Concrete.text, Concrete.textOfAll, EndTag.text_concrete]
  | .run kind t => by simp [concrete, text, Concrete.text, Concrete.textOfAll]

/-- The trees of nodes have the text of the nodes. -/
theorem text_concreteOfAll : ∀ ns : List Node,
    Concrete.textOfAll (concreteOfAll ns) = textOfAll ns
  | [] => rfl
  | n :: ns => by
    rw [concreteOfAll, Concrete.textOfAll, textOfAll, text_concrete n, text_concreteOfAll ns]

end

theorem width_concrete (n : Node) : n.concrete.width = n.width := by
  rw [Concrete.width_eq, text_concrete, width_eq]

theorem width_concreteOfAll (ns : List Node) :
    Concrete.widthOfAll (concreteOfAll ns) = widthOfAll ns := by
  rw [Concrete.widthOfAll_eq, text_concreteOfAll, widthOfAll_eq]

end Node

theorem StartTag.width_concrete (tag : StartTag) : tag.concrete.width = tag.text.width := by
  rw [Concrete.width_eq, text_concrete]

theorem EndTag.width_concrete (tag : EndTag) : tag.concrete.width = tag.text.width := by
  rw [Concrete.width_eq, text_concrete]

/-! ## The sites of an element -/

namespace Node

/-- The sites in the end tag that an element may have. -/
def endTagSites (around : List Placed) (offset : Nat) : Option EndTag → List Site
  | none => []
  | some tag => tag.concrete.sites around offset

/-- The sites in a stray end tag: the error around it, and those of the tag. -/
theorem sites_strayEnd (around : List Placed) (offset : Nat) (tag : EndTag) :
    let here : Placed := ⟨offset, (Node.strayEnd tag).concrete⟩
    here.tree.sites around offset = ⟨here, around⟩ :: tag.concrete.sites (here :: around) offset := by
  simp only [concrete, sites, sitesOfAll, List.append_nil]

/-- The sites in an element: itself, and those in its start tag, its content and its end tag. -/
theorem sites_element (around : List Placed) (offset : Nat) (tag : StartTag) (content : List Node)
    (endTag : Option EndTag) :
    let here : Placed := ⟨offset, (Node.element tag content endTag).concrete⟩
    let inside := offset + tag.text.width
    here.tree.sites around offset =
      ⟨here, around⟩ :: (tag.concrete.sites (here :: around) offset ++
        (sitesOfAll (here :: around) inside (concreteOfAll content) ++
          endTagSites (here :: around) (inside + Node.widthOfAll content) endTag)) := by
  simp only [concrete, sites, sitesOfAll, Concrete.sitesOfAll_append, StartTag.width_concrete,
    width_concreteOfAll]
  cases endTag <;> simp [endTagSites, sitesOfAll]

/-! ## What an element's tree tells -/

end Node

/-- The name of a tag is the first name leaf below it if no other part of the tag is one. -/
theorem Concrete.nameLeaf?_branch {kind : BranchKind} {first : Concrete} {name : Option Text}
    {rest : List Concrete} (hfirst : first.asName = none) (hrest : ∀ c ∈ rest, c.asName = none) :
    (Concrete.branch kind (first :: (nameLeaf name ++ rest))).nameLeaf? = name := by
  have hnone : rest.findSome? asName = none := List.findSome?_eq_none_iff.2 hrest
  rw [nameLeaf?, children, List.findSome?_cons, hfirst, List.findSome?_append, hnone, Option.or_none]
  cases name <;> rfl

theorem Filler.asName_concrete (f : Filler) : f.concrete.asName = none := by
  cases f <;> rfl

theorem TagItem.asName_concrete : ∀ i : TagItem, i.concrete.asName = none
  | .attribute _ => rfl
  | .filler f => f.asName_concrete

theorem TagEnding.asName_of_mem_concrete {ending : TagEnding} {c : Concrete}
    (h : c ∈ ending.concrete) : c.asName = none := by
  cases ending with
  | content => rw [List.mem_singleton.1 h]; rfl
  | selfClosed => rw [List.mem_singleton.1 h]; rfl
  | missing => cases h

theorem StartTag.nameLeaf?_concrete (tag : StartTag) : tag.concrete.nameLeaf? = tag.name := by
  rw [concrete, List.append_assoc]
  refine Concrete.nameLeaf?_branch rfl ?_
  intro c hc
  rcases List.mem_append.1 hc with hc | hc
  · obtain ⟨i, -, rfl⟩ := List.mem_map.1 hc
    exact i.asName_concrete
  · exact tag.ending.asName_of_mem_concrete hc

theorem EndTag.nameLeaf?_concrete (tag : EndTag) : tag.concrete.nameLeaf? = tag.name := by
  rw [concrete, List.append_assoc]
  refine Concrete.nameLeaf?_branch rfl ?_
  intro c hc
  rcases List.mem_append.1 hc with hc | hc
  · obtain ⟨f, -, rfl⟩ := List.mem_map.1 hc
    exact f.asName_concrete
  · split at hc
    · rw [List.mem_singleton.1 hc]
      rfl
    · cases hc

/-- The only `>` among the leaves of a start tag is its ending. -/
theorem TagItem.leaf_ne_rightAngle : ∀ i : TagItem, ∀ l ∈ i.concrete.leaves, l.1 ≠ .rightAngle
  | .filler f => by
    cases f <;> simp [concrete, Filler.concrete, Concrete.leaves, Concrete.leavesOfAll]
  | .attribute ⟨name, assignment⟩ => by
    have hspace (kind : LeafKind) (hkind : kind ≠ .rightAngle) (t : Text) :
        ∀ l ∈ Concrete.leavesOfAll (leafUnlessEmpty kind t), l.1 ≠ .rightAngle := by
      unfold leafUnlessEmpty
      split <;> simp [Concrete.leavesOfAll, Concrete.leaves, hkind]
    cases assignment with
    | absent => simp [concrete, Assignment.concrete, Concrete.leaves, Concrete.leavesOfAll]
    | bare before =>
      simp only [concrete, Assignment.concrete, Concrete.leaves, Concrete.leavesOfAll,
        Concrete.leavesOfAll_append, List.forall_mem_append]
      exact ⟨by simp, hspace _ (by simp) before, by simp⟩
    | value before after quoted =>
      simp only [concrete, Assignment.concrete, Quoted.concrete, Concrete.leaves,
        Concrete.leavesOfAll, Concrete.leavesOfAll_append, List.forall_mem_append]
      refine ⟨by simp, hspace _ (by simp) before, by simp, hspace _ (by simp) after, ?_, by simp⟩
      refine ⟨by simp, hspace _ (by simp) quoted.body, ?_⟩
      split <;> simp [Concrete.leavesOfAll, Concrete.leaves]

theorem Concrete.mem_leavesOfAll {cs : List Concrete} {l : LeafKind × Text} :
    l ∈ leavesOfAll cs ↔ ∃ c ∈ cs, l ∈ c.leaves := by
  induction cs with
  | nil => simp [leavesOfAll]
  | cons c cs ih => simp [leavesOfAll, ih]

theorem StartTag.getLast?_leaves_concrete (tag : StartTag) :
    (∃ t, tag.concrete.leaves.getLast? = some (.rightAngle, t)) ↔ tag.ending = .content := by
  -- A tag cut short ends in some leaf of its front, so what those are not matters.
  obtain ⟨front, hleaves, hfront⟩ : ∃ front,
      tag.concrete.leaves = front ++ Concrete.leavesOfAll tag.ending.concrete ∧
        ∀ l ∈ front, l.1 ≠ .rightAngle := by
    refine ⟨(.leftAngle, tag.opener) :: (Concrete.leavesOfAll (nameLeaf tag.name) ++
      Concrete.leavesOfAll (tag.items.map TagItem.concrete)), ?_, ?_⟩
    · simp [concrete, Concrete.leaves, Concrete.leavesOfAll, Concrete.leavesOfAll_append]
    · rw [List.forall_mem_cons, List.forall_mem_append]
      refine ⟨by simp, ?_, ?_⟩
      · cases tag.name <;> simp [nameLeaf, Concrete.leavesOfAll, Concrete.leaves]
      · intro l hl
        obtain ⟨c, hc, hlc⟩ := Concrete.mem_leavesOfAll.1 hl
        obtain ⟨i, -, rfl⟩ := List.mem_map.1 hc
        exact i.leaf_ne_rightAngle l hlc
  rw [hleaves]
  cases tag.ending with
  | content =>
    refine ⟨fun _ => rfl, fun _ => ⟨['>'], ?_⟩⟩
    exact List.getLast?_concat
  | selfClosed =>
    have hlast : (front ++ Concrete.leavesOfAll (TagEnding.concrete .selfClosed)).getLast? =
        some (.slashRightAngle, ['/', '>']) := List.getLast?_concat
    rw [hlast]
    simp
  | missing =>
    refine ⟨?_, fun h => nomatch h⟩
    intro h
    obtain ⟨t, hlast⟩ := h
    rw [TagEnding.concrete, Concrete.leavesOfAll, List.append_nil] at hlast
    exact absurd rfl (hfront _ (List.mem_of_getLast? hlast))

namespace Node

theorem startTag?_concrete (tag : StartTag) (content : List Node) (endTag : Option EndTag) :
    (Node.element tag content endTag).concrete.startTag? = some tag.concrete := rfl

theorem elementName?_concrete (tag : StartTag) (content : List Node) (endTag : Option EndTag) :
    (Node.element tag content endTag).concrete.elementName? = tag.name := by
  rw [Concrete.elementName?, startTag?_concrete, Option.bind_some, tag.nameLeaf?_concrete]

/-- No node's tree is an end tag. -/
theorem kind_concrete_ne_endTag (n : Node) : n.concrete.kind ≠ .inr .endTag := by
  cases n <;> simp [concrete, Concrete.kind]

theorem mem_concreteOfAll {ns : List Node} {c : Concrete} :
    c ∈ concreteOfAll ns ↔ ∃ n ∈ ns, n.concrete = c := by
  induction ns with
  | nil => simp [concreteOfAll]
  | cons n ns ih => simp [concreteOfAll, ih, eq_comm]

theorem endTag?_concrete (tag : StartTag) (content : List Node) (endTag : Option EndTag) :
    (Node.element tag content endTag).concrete.endTag? = endTag.map EndTag.concrete := by
  have hcontent : (concreteOfAll content).find? (fun c => decide (c.kind = .inr .endTag)) = none := by
    refine List.find?_eq_none.2 fun c hc => ?_
    obtain ⟨n, -, rfl⟩ := mem_concreteOfAll.1 hc
    simpa using n.kind_concrete_ne_endTag
  have hstart : decide (tag.concrete.kind = .inr .endTag) = false := rfl
  rw [Concrete.endTag?, concrete, Concrete.children, List.find?_cons, hstart, List.find?_append,
    hcontent, Option.none_or]
  cases endTag <;> rfl

/-- An element lacks its end tag if its start tag opens it and nothing closes it. -/
theorem isUnclosed_concrete (tag : StartTag) (content : List Node) (endTag : Option EndTag) :
    (Node.element tag content endTag).concrete.isUnclosed = (tag.opens && endTag.isNone) := by
  have hends : (Node.element tag content endTag).concrete.endsOpen = (tag.ending == .content) := by
    rw [Bool.eq_iff_iff, beq_iff_eq, ← tag.getLast?_leaves_concrete, Concrete.endsOpen,
      startTag?_concrete, Option.bind_some]
    split
    · next t h => simp [h]
    · next h =>
      refine ⟨fun hfalse => (Bool.false_ne_true hfalse).elim, ?_⟩
      intro hlast
      obtain ⟨t, ht⟩ := hlast
      exact absurd ht (h t)
  have hkind : (Node.element tag content endTag).concrete.kind = .inr .element := rfl
  rw [Concrete.isUnclosed, hends, hkind, elementName?_concrete, endTag?_concrete, StartTag.opens,
    Option.isNone_map]
  rfl

end Node

end ProjectFile.Markup
