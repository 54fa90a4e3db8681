import ProjectFile.Editor.Location
import ProjectFile.Proofs.Markup.Nesting
import ProjectFile.Proofs.Markup.Seam
import ProjectFile.Proofs.Markup.Signs

/-!
Where the things stand that an offset is said to be on.

`LocationKind.Fits` says for each kind of location what its node is and how the offset lies to it;
`inspect_fits` says that every answer fits, for every text and every offset.

An answer depends on one leaf and the offset, so it is enough that every leaf gives fitting answers
at all offsets in it and at its ends (`FitsOn`). That is shown along the nodes: around a node the
offsets before and after it are seams of the container (`Known`), and so they are around each node
in it.
-/

namespace ProjectFile.Editor

open Markup

/-- How an offset lies to the item that it is said to be on. -/
def LocationKind.Fits (d : Document) (offset : Nat) : LocationKind → Option Item → Prop
  | .elementName false, some (.element e) =>
    e.start < offset ∧ offset ≤ (e.nameSpan.map Span.stop).getD (e.start + 1)
  | .elementName true, some (.element e) => ∃ s, e.endTagSpan = some s ∧
    s.start < offset ∧ offset ≤ (e.endNameSpan.map Span.stop).getD (s.start + 2)
  | .attributeName, some (.attribute a) => a.nameSpan.touches offset = true
  | .attributeValue, some (.attribute a) => ∃ s, a.valueSpan = some s ∧ s.touches offset = true
  | .elementContent, some (.content _ start t) => (Span.ofSize start t.width).touches offset = true
  | .gap .attributes, some (.element e) => e.start < offset ∧ offset ≤ e.startTagSpan.stop ∧
    ∀ a ∈ e.attributes, a.span.stop ≤ offset ∨ offset ≤ a.span.start
  | .gap .content, none => Item.Divides d.children offset
  | .gap .content, some (.element e) =>
    (∃ s, e.contentSpan = some s ∧ s.touches offset = true) ∧ Item.Divides e.children offset
  | .nothing, _ => True
  | _, _ => False

/-- An answer that fits: its node is in the document, a gap in content is between nodes, and one in a
start tag is between attributes. -/
structure Located (d : Document) (offset : Nat) (answer : LocationKind × Option View) : Prop where
  node : ∀ v ∈ answer.2, v ∈ d.views
  fits : answer.1.Fits d offset (answer.2.map View.item)
  seam : answer.1 = .gap .content → d.HasSeam offset answer.2
  gap : answer.1 = .gap .attributes → ∃ v ∈ answer.2, ∃ e, v.item = .element e ∧ e.HasGap offset

variable {d : Document}

theorem Located.of_seam {offset : Nat} {container : Option View} (h : d.HasSeam offset container) :
    Located d offset (contentGap container) where
  node := by
    intro v hv
    cases hv
    exact h.1
  fits := by
    cases container with
    | none => exact Node.SeamOfAll.divides h
    | some v =>
      obtain ⟨-, e, hitem, hending, hseam⟩ := h
      show LocationKind.Fits d offset (.gap .content) (some v.item)
      rw [hitem]
      refine ⟨⟨_, if_pos hending, Span.touches_iff.2 ?_⟩, hseam.divides⟩
      obtain ⟨pre, post, hcontent, rfl⟩ := hseam
      rw [Element.contentStop, hcontent, Node.widthOfAll_append]
      dsimp only
      omega
  seam := fun _ => h
  gap := nofun

theorem Located.of_view {offset : Nat} {kind : LocationKind} {v : View} (hv : v ∈ d.views)
    (hkind : ∀ gap, kind ≠ .gap gap) (h : kind.Fits d offset (some v.item)) :
    Located d offset (kind, some v) where
  node := by
    intro w hw
    cases hw
    exact hv
  fits := h
  seam := fun hgap => absurd hgap (hkind _)
  gap := fun hgap => absurd hgap (hkind _)

theorem Located.of_gap {offset : Nat} {v : View} {e : Element} (hv : v ∈ d.views)
    (hitem : v.item = .element e) (hopener : e.tag.opener ≠ []) (h : e.HasGap offset) :
    Located d offset (.gap .attributes, some v) where
  node := by
    intro w hw
    cases hw
    exact hv
  fits := by
    show LocationKind.Fits d offset (.gap .attributes) (some v.item)
    rw [hitem]
    exact ⟨(h.span hopener).1, (h.span hopener).2, h.divides⟩
  seam := nofun
  gap := fun _ => ⟨v, rfl, e, hitem, h⟩

theorem Located.nothing {offset : Nat} {node : Option View} (h : ∀ v ∈ node, v ∈ d.views) :
    Located d offset (.nothing, node) := ⟨h, by cases node <;> trivial, nofun, nofun⟩

/-! ## The leaves of a tag -/

/-- Whether the answers on a leaf fit, from where it starts to where it stops. -/
def FitsOn (d : Document) (l : Leaf) : Prop :=
  ∀ offset, l.span.start ≤ offset → offset ≤ l.span.stop → Located d offset (classify l offset)

theorem forall_ofTexts_cons {P : Leaf → Prop} {owner : Option View} {start : Nat} {role : Role}
    {t : Text} {rest : List (Role × Text)} :
    (∀ l ∈ Leaf.ofTexts owner start ((role, t) :: rest), P l) ↔
      (t ≠ [] → P ⟨role, start, t, owner⟩) ∧
        ∀ l ∈ Leaf.ofTexts owner (start + t.width) rest, P l := by
  rw [Leaf.ofTexts, List.forall_mem_append]
  cases t <;> simp

theorem forall_ofTexts_singleton {P : Leaf → Prop} {owner : Option View} {start : Nat} {role : Role}
    {t : Text} : (∀ l ∈ Leaf.ofTexts owner start [(role, t)], P l) ↔
      (t ≠ [] → P ⟨role, start, t, owner⟩) := by
  rw [forall_ofTexts_cons]
  exact ⟨And.left, fun h => ⟨h, List.forall_mem_nil _⟩⟩

/-- On the leaves of a value an offset is on the value, behind it, or on nothing. -/
theorem fitsOn_value {v around : View} {a : PlacedAttribute} {before after : Text} {q : Quoted}
    (hv : v ∈ d.views) (hitem : v.item = .attribute a) (hparent : v.parent? = some around)
    (hgap : Located d a.span.stop (.gap .attributes, some around))
    (hassignment : a.attr.assignment = .value before after q) (hquote : IsQuote q.quote) :
    let inside := a.nameSpan.stop + before.width + 1 + after.width + 1
    FitsOn d ⟨.openingQuote, a.nameSpan.stop + before.width + 1 + after.width, [q.quote], some v⟩ ∧
      FitsOn d ⟨.valueText, inside, q.body, some v⟩ ∧
      (q.closed = true → FitsOn d ⟨.closingQuote, inside + q.body.width, [q.quote], some v⟩) := by
  intro inside
  have hsize := hquote.utf8Size
  have hone : Text.width [q.quote] = 1 := by rw [Text.width_cons, hsize, Text.width_nil]
  have hvalue : a.valueSpan = some (.ofSize inside q.body.width) := by
    rw [PlacedAttribute.valueSpan, hassignment]
    simp only [hsize, inside]
  have hinside {offset : Nat} (hstart : inside ≤ offset) (hstop : offset ≤ inside + q.body.width) :
      Located d offset (.attributeValue, some v) := by
    refine .of_view hv nofun ?_
    rw [hitem]
    exact ⟨_, hvalue, Span.touches_iff.2 ⟨hstart, hstop⟩⟩
  refine ⟨fun offset hstart hstop => ?_, fun offset hstart hstop => hinside hstart hstop,
    fun hclosed offset hstart hstop => ?_⟩
  · simp only [Leaf.span, Span.ofSize, hone] at hstart hstop
    unfold classify
    simp only [Leaf.span, Span.ofSize, hone, beq_iff_eq]
    split
    · exact hinside (by omega) (by omega)
    · exact .nothing fun w hw => by cases hw; exact hv
  · simp only [Leaf.span, Span.ofSize, hone] at hstart hstop
    unfold classify
    simp only [Leaf.span, Span.ofSize, hone, beq_iff_eq]
    split
    · next h =>
      have hequals : '='.utf8Size = 1 := rfl
      have hstop : a.span.stop = inside + q.body.width + 1 := by
        simp only [PlacedAttribute.span, PlacedAttribute.nameSpan, Span.ofSize, Attribute.text,
          hassignment, Assignment.text, Quoted.text, hclosed, if_true, Text.width_append,
          Text.width_cons, Text.width_nil, hsize, hequals, inside]
        omega
      rw [h, ← hstop, Option.bind_some, hparent]
      exact hgap
    · exact hinside (by omega) (by omega)

/-- On the leaves of an attribute an offset is on its name, on its value, behind it, or on nothing. -/
theorem fitsOn_attribute {v around : View} {a : PlacedAttribute} (hv : v ∈ d.views)
    (hitem : v.item = .attribute a) (hparent : v.parent? = some around)
    (hgap : Located d a.span.stop (.gap .attributes, some around))
    (hquote : ∀ before after q, a.attr.assignment = .value before after q → IsQuote q.quote) :
    ∀ l ∈ Leaf.ofTexts (some v) a.start a.attr.roles, FitsOn d l := by
  have hnothing (offset : Nat) : Located d offset (.nothing, some v) :=
    .nothing fun w hw => by cases hw; exact hv
  have hname : FitsOn d ⟨.attributeName, a.start, a.attr.name, some v⟩ := by
    intro offset hstart hstop
    refine .of_view hv nofun ?_
    rw [hitem]
    exact Span.touches_iff.2 ⟨hstart, hstop⟩
  unfold Attribute.roles
  rw [forall_ofTexts_cons]
  refine ⟨fun _ => hname, ?_⟩
  cases hassignment : a.attr.assignment with
  | absent => exact List.forall_mem_nil _
  | bare before =>
    dsimp only
    rw [forall_ofTexts_cons, forall_ofTexts_singleton]
    exact ⟨fun _ offset _ _ => hnothing offset, fun _ offset _ _ => hnothing offset⟩
  | value before after q =>
    obtain ⟨hopening, hbody, hclosing⟩ :=
      fitsOn_value hv hitem hparent hgap hassignment (hquote before after q hassignment)
    have hone : Text.width [q.quote] = 1 := (hquote before after q hassignment).utf8Size
    have hequals : Text.width ['='] = 1 := rfl
    dsimp only
    rw [forall_ofTexts_cons, forall_ofTexts_cons, forall_ofTexts_cons, forall_ofTexts_cons,
      forall_ofTexts_cons, forall_ofTexts_singleton, hone, hequals]
    refine ⟨fun _ offset _ _ => hnothing offset, fun _ offset _ _ => hnothing offset,
      fun _ offset _ _ => hnothing offset, fun _ => hopening, fun _ => hbody, fun hne => ?_⟩
    cases hclosed : q.closed with
    | false =>
      rw [hclosed] at hne
      exact absurd rfl hne
    | true => exact hclosing hclosed

/-- On the items of a start tag an offset is on an attribute or among the attributes. -/
theorem fitsOn_items {e : Element} {before' after' : List Item} {enclosing : List Enclosure}
    (haround : ⟨.element e, before', after', enclosing⟩ ∈ d.views) (hopener : e.tag.opener ≠ [])
    (hsigned : e.tag.Signed) (items : List TagItem) (before : List Item) (front : List TagItem)
    (hitems : e.tag.items = front ++ items)
    (hviews : ∀ v ∈ TagItem.viewsOfAll (⟨e, before', after'⟩ :: enclosing) before
      (e.itemsStart + TagItem.widthOfAll front) items, v ∈ d.views) :
    ∀ l ∈ TagItem.leavesOfAll (⟨e, before', after'⟩ :: enclosing) before
      (e.itemsStart + TagItem.widthOfAll front) items, FitsOn d l := by
  have hgap {offset : Nat} (h : e.HasGap offset) :
      Located d offset (.gap .attributes, some ⟨.element e, before', after', enclosing⟩) :=
    .of_gap haround rfl hopener h
  induction items generalizing before front with
  | nil => exact List.forall_mem_nil _
  | cons i items ih =>
    have hnext : e.tag.items = (front ++ [i]) ++ items := by simp [hitems]
    have hwidth : e.itemsStart + TagItem.widthOfAll (front ++ [i]) =
        e.itemsStart + TagItem.widthOfAll front + i.text.width := by
      simp [TagItem.widthOfAll, Nat.add_assoc]
    rcases i with a | f
    · rw [TagItem.viewsOfAll, List.forall_mem_cons] at hviews
      rw [TagItem.leavesOfAll, List.forall_mem_append]
      have hrest := ih (.attribute ⟨e.itemsStart + TagItem.widthOfAll front, a⟩ :: before)
        (front ++ [.attribute a]) hnext
      rw [hwidth] at hrest
      refine ⟨fitsOn_attribute hviews.1 rfl rfl (hgap ?_) ?_, hrest hviews.2⟩
      · refine ⟨front ++ [.attribute a], [], items, hnext, List.forall_mem_nil _, ?_, ?_⟩
        · exact Nat.le_of_eq hwidth
        · exact Nat.le_of_eq hwidth.symm
      · exact hsigned.quotes a (by simp [hitems])
    · rw [TagItem.leavesOfAll, List.forall_mem_append, forall_ofTexts_singleton]
      have hrest := ih before (front ++ [.filler f]) hnext
      rw [hwidth] at hrest
      refine ⟨fun _ offset hstart hstop => ?_, hrest hviews⟩
      cases f with
      | space t =>
        refine hgap ⟨front, [.filler (.space t)], items, hitems, by simp [TagItem.attribute?],
          hstart, ?_⟩
        simpa [TagItem.widthOfAll, TagItem.text, Leaf.span, Span.ofSize] using hstop
      | junk t => exact .nothing fun w hw => by cases hw; exact haround

/-! ## The leaves of nodes -/

/-- What is known of a place in a document where a node stands: the views in the node are in the
document, and nothing is split before and after it. -/
structure Known (d : Document) (enclosing : List Enclosure) (before after : List Item)
    (start : Nat) (n : Node) : Prop where
  views : ∀ v ∈ n.views enclosing before after start, v ∈ d.views
  seamBefore : d.HasSeam start (View.ofEnclosing enclosing)
  seamAfter : d.HasSeam (start + n.width) (View.ofEnclosing enclosing)

/-- What is known of a place in a document where nodes follow one another. -/
structure KnownAll (d : Document) (enclosing : List Enclosure) (before items : List Item)
    (start : Nat) (ns : List Node) : Prop where
  views : ∀ v ∈ Node.viewsOfAll enclosing before items start ns, v ∈ d.views
  seams : ∀ offset, Node.SeamOfAll start ns offset → d.HasSeam offset (View.ofEnclosing enclosing)

section

variable {enclosing : List Enclosure} {before after items : List Item} {start : Nat}

theorem KnownAll.head {n : Node} {ns : List Node}
    (h : KnownAll d enclosing before items start (n :: ns)) :
    Known d enclosing before (items.drop (Item.ofNode? (start, n)).toList.length) start n where
  views := fun v hv => h.views v (List.mem_append_left _ hv)
  seamBefore := h.seams _ (Node.seamOfAll_start _ _)
  seamAfter := h.seams _ (Node.seamOfAll_start _ _).cons

theorem KnownAll.tail {n : Node} {ns : List Node}
    (h : KnownAll d enclosing before items start (n :: ns)) :
    KnownAll d enclosing ((Item.ofNode? (start, n)).toList ++ before)
      (items.drop (Item.ofNode? (start, n)).toList.length) (start + n.width) ns where
  views := fun v hv => h.views v (List.mem_append_right _ hv)
  seams := fun _ hseam => h.seams _ hseam.cons

/-- The view of the element around a place where nothing is split is in the document. -/
theorem mem_of_hasSeam {offset : Nat} {container : Option View} (h : d.HasSeam offset container) :
    ∀ v ∈ container, v ∈ d.views := by
  intro v hv
  cases hv
  exact h.1

variable {tag : StartTag} {content : List Node} {endTag : Option EndTag}

theorem Known.mem (h : Known d enclosing before after start (.element tag content endTag)) :
    ⟨.element ⟨start, tag, content, endTag⟩, before, after, enclosing⟩ ∈ d.views :=
  h.views _ List.mem_cons_self

theorem Known.inside (h : Known d enclosing before after start (.element tag content endTag))
    (hending : tag.ending = .content) :
    let e : Element := ⟨start, tag, content, endTag⟩
    KnownAll d (⟨e, before, after⟩ :: enclosing) [] e.children e.startTagSpan.stop content where
  views := fun v hv => h.views v (List.mem_cons_of_mem _ (List.mem_append_right _ hv))
  seams := fun _ hseam => ⟨h.mem, _, rfl, hending, hseam⟩

/-- On the leaves before the items of a start tag an offset is on its name or in front of it. -/
theorem Known.fitsOn_opening (h : Known d enclosing before after start (.element tag content endTag))
    (hsolid : tag.Solid) (hsigned : tag.Signed) :
    let e : Element := ⟨start, tag, content, endTag⟩
    ∀ l ∈ Leaf.ofTexts (View.ofEnclosing (⟨e, before, after⟩ :: enclosing)) start
      [(.startOpener, tag.opener), (.startName, e.name)], FitsOn d l := by
  intro e
  have hpos : 0 < tag.opener.width :=
    Nat.pos_of_ne_zero fun h => hsolid.opener (Text.width_eq_zero.1 h)
  have hname {offset : Nat} (hstart : start < offset)
      (hstop : offset ≤ start + tag.opener.width + e.name.width) : Located d offset
        (.elementName false, View.ofEnclosing (⟨e, before, after⟩ :: enclosing)) := by
    refine .of_view h.mem nofun ⟨hstart, ?_⟩
    cases hnamed : tag.name with
    | none =>
      have hone : tag.opener.width = 1 := by
        rw [hsigned.opener hnamed]
        rfl
      simp [e, Element.nameSpan, Element.name, hnamed] at hstop ⊢
      omega
    | some n => simpa [e, Element.nameSpan, Element.name, hnamed, Span.ofSize] using hstop
  rw [forall_ofTexts_cons, forall_ofTexts_singleton]
  constructor
  · intro _ offset hstart hstop
    simp only [Leaf.span, Span.ofSize] at hstart hstop
    unfold classify
    simp only [Leaf.span, Span.ofSize, beq_iff_eq]
    split
    · next heq =>
      subst heq
      exact .of_seam h.seamBefore
    · exact hname (by omega) (by omega)
  · intro _ offset hstart hstop
    simp only [Leaf.span, Span.ofSize] at hstart hstop
    exact hname (by omega) hstop

/-- In front of the ending of a start tag an offset is behind the attributes. -/
theorem Known.gap_ending (h : Known d enclosing before after start (.element tag content endTag))
    (hsolid : tag.Solid) :
    let e : Element := ⟨start, tag, content, endTag⟩
    Located d (e.startTagSpan.stop - tag.ending.text.width)
      (.gap .attributes, View.ofEnclosing (⟨e, before, after⟩ :: enclosing)) := by
  intro e
  have hgap : e.HasGap (e.startTagSpan.stop - tag.ending.text.width) := by
    have hwidth := e.itemsStart_add_width
    exact ⟨tag.items, [], [], by simp [e], nofun, Nat.le_of_eq hwidth, Nat.le_of_eq hwidth.symm⟩
  exact .of_gap h.mem rfl hsolid.opener hgap

/-- At the ends of the leaf that ends a start tag an offset is behind the attributes or in front of
what follows the tag. -/
theorem Known.fitsOn_ending (h : Known d enclosing before after start (.element tag content endTag))
    (hsolid : tag.Solid) (hempty : tag.ending = .content ∨ content = [] ∧ endTag = none) :
    let e : Element := ⟨start, tag, content, endTag⟩
    ∀ l ∈ Leaf.ofTexts (View.ofEnclosing (⟨e, before, after⟩ :: enclosing))
      (e.startTagSpan.stop - tag.ending.text.width) [tag.ending.role], FitsOn d l := by
  intro e
  have hgap := h.gap_ending hsolid
  have hstop : e.startTagSpan.stop - tag.ending.text.width + tag.ending.text.width =
      e.startTagSpan.stop := e.stop_sub_add_ending
  have hends {answer : LocationKind × Option View}
      (hanswer : Located d e.startTagSpan.stop answer) (offset : Nat) : Located d offset
        (if offset = e.startTagSpan.stop - tag.ending.text.width then
          (.gap .attributes, View.ofEnclosing (⟨e, before, after⟩ :: enclosing))
        else if offset = e.startTagSpan.stop then answer
        else (.nothing, View.ofEnclosing (⟨e, before, after⟩ :: enclosing))) := by
    split
    · next heq =>
      rw [heq]
      exact hgap
    split
    · next heq =>
      rw [heq]
      exact hanswer
    · exact .nothing fun w hw => by cases hw; exact h.mem
  rw [TagEnding.role, forall_ofTexts_singleton]
  intro hne offset _ _
  cases hending : tag.ending with
  | missing =>
    rw [hending] at hne
    exact absurd rfl hne
  | content =>
    have hinside : d.HasSeam e.startTagSpan.stop
        (View.ofEnclosing (⟨e, before, after⟩ :: enclosing)) :=
      ⟨h.mem, e, rfl, hending, Node.seamOfAll_start _ _⟩
    have hall := hends (.of_seam hinside) offset
    rw [hending] at hall hstop
    simpa [classify, Leaf.span, Span.ofSize, hstop] using hall
  | selfClosed =>
    obtain ⟨rfl, rfl⟩ := hempty.resolve_left (by simp [hending])
    have hwidth : e.startTagSpan.stop = start + (Node.element tag [] none).width := by
      simp [e, Element.startTagSpan, Span.ofSize, Node.width, Node.widthOfAll]
    have houtside : d.HasSeam e.startTagSpan.stop
        ((View.ofEnclosing (⟨e, before, after⟩ :: enclosing)).bind View.parent?) := by
      rw [hwidth]
      exact h.seamAfter
    have hall := hends (.of_seam houtside) offset
    rw [hending] at hall hstop
    simpa [classify, Leaf.span, Span.ofSize, hstop] using hall

end

theorem ofTexts_append (owner : Option View) (start : Nat) (xs ys : List (Role × Text)) :
    Leaf.ofTexts owner start (xs ++ ys) =
      Leaf.ofTexts owner start xs ++
        Leaf.ofTexts owner (start + Text.width (xs.flatMap Prod.snd)) ys := by
  induction xs generalizing start with
  | nil => rfl
  | cons x xs ih =>
    rw [List.cons_append, Leaf.ofTexts, Leaf.ofTexts, ih, List.flatMap_cons, Text.width_append,
      List.append_assoc, Nat.add_assoc]

theorem fitsOn_fillers {owner : Option View} (hnode : ∀ v ∈ owner, v ∈ d.views) (start : Nat)
    (fillers : List Filler) :
    ∀ l ∈ Leaf.ofTexts owner start (fillers.map fun f => (f.endRole, f.text)), FitsOn d l := by
  induction fillers generalizing start with
  | nil => exact List.forall_mem_nil _
  | cons f fillers ih =>
    rw [List.map_cons, forall_ofTexts_cons]
    refine ⟨fun _ offset _ _ => ?_, ih _⟩
    match f with
    | .space t => exact .nothing hnode
    | .junk t => exact .nothing hnode

/-- On the leaves of an end tag an offset is in front of it, on its name, on nothing or behind it. -/
theorem fitsOn_endTag {owner : Option View} {stray : Bool} {tag : EndTag} {start : Nat}
    (hnode : ∀ v ∈ owner, v ∈ d.views) (hbefore : d.HasSeam start owner)
    (hname : ∀ offset, start < offset → offset ≤ start + 2 + (tag.name.getD []).width →
      Located d offset (if stray then .nothing else .elementName true, owner))
    (hafter : d.HasSeam (start + tag.text.width) (if stray then owner else owner.bind View.parent?)) :
    ∀ l ∈ Leaf.ofTexts owner start (tag.roles stray), FitsOn d l := by
  have hopener : Text.width EndTag.opener = 2 := rfl
  rw [EndTag.roles, forall_ofTexts_cons, forall_ofTexts_cons, ofTexts_append, List.forall_mem_append,
    forall_ofTexts_singleton, hopener]
  refine ⟨fun _ => ?opener, fun _ => ?name, fitsOn_fillers hnode _ tag.fillers, fun hne => ?closer⟩
  case opener =>
    intro offset hstart hstop
    simp only [Leaf.span, Span.ofSize, hopener] at hstart hstop
    unfold classify
    simp only [Leaf.span, beq_iff_eq, Span.ofSize]
    split
    · next heq =>
      rw [heq]
      exact .of_seam hbefore
    · exact hname offset (by omega) (by omega)
  case name =>
    intro offset hstart hstop
    simp only [Leaf.span, Span.ofSize] at hstart hstop
    exact hname offset (by omega) hstop
  case closer =>
    cases hclosed : tag.closed with
    | false =>
      rw [hclosed] at hne
      exact absurd rfl hne
    | true =>
      have hone : Text.width ['>'] = 1 := rfl
      have hstop : start + 2 + (tag.name.getD []).width +
          Text.width ((tag.fillers.map fun f => (f.endRole, f.text)).flatMap Prod.snd) + 1 =
            start + tag.text.width := by
        rw [EndTag.text, hclosed, Filler.flatMap_endRoles, Text.width_append, Text.width_append,
          Text.width_append, hopener, if_pos rfl, hone]
        omega
      intro offset hstart _
      unfold classify
      simp only [Leaf.span, Span.ofSize, beq_iff_eq, if_true, hone, hstop]
      split
      · next heq =>
        rw [heq]
        exact .of_seam hafter
      · exact .nothing hnode

/-- On a run an offset is in it, or at an end of it that nothing can be typed to. -/
theorem Known.fitsOn_run {enclosing : List Enclosure} {before after : List Item} {start : Nat}
    {kind : RunKind} {t : Text} (h : Known d enclosing before after start (.run kind t)) :
    ∀ l ∈ (Node.run kind t).leaves enclosing before after start, FitsOn d l := by
  have hafter : d.HasSeam (start + t.width) (View.ofEnclosing enclosing) := h.seamAfter
  have hshown {k : ContentKind} (hk : kind.content? = some k) {offset : Nat}
      (hstart : start ≤ offset) (hstop : offset ≤ start + t.width) : Located d offset
        (.elementContent, some ⟨.content k start t, before, after, enclosing⟩) := by
    refine .of_view (h.views _ ?_) nofun (Span.touches_iff.2 ⟨hstart, hstop⟩)
    rw [Node.views, hk]
    exact List.mem_singleton_self _
  have hhidden {offset : Nat} : Located d offset
      (if offset = start then contentGap (View.ofEnclosing enclosing)
        else (.nothing, View.ofEnclosing enclosing)) := by
    split
    · next heq =>
      rw [heq]
      exact .of_seam h.seamBefore
    · exact .nothing (mem_of_hasSeam h.seamBefore)
  have hclosable {k : ContentKind} (hk : kind.content? = some k) {offset : Nat}
      (hstart : start ≤ offset) (hstop : offset ≤ start + t.width) : Located d offset
        (if offset = start ∨ offset = start + t.width ∧ kind.isTerminated t = true then
          contentGap (View.ofEnclosing enclosing)
        else (.elementContent, some ⟨.content k start t, before, after, enclosing⟩)) := by
    split
    · next hends =>
      rcases hends with heq | ⟨heq, -⟩
      · rw [heq]
        exact .of_seam h.seamBefore
      · rw [heq]
        exact .of_seam hafter
    · exact hshown hk hstart hstop
  rw [Node.leaves, forall_ofTexts_singleton]
  intro _ offset hstart hstop
  cases kind with
  | text => exact hshown rfl hstart hstop
  | blank => exact hshown rfl hstart hstop
  | comment =>
    have hends := hclosable rfl hstart hstop
    simpa [classify, Leaf.span, Span.ofSize, RunKind.content?, View.parent?] using hends
  | cdata =>
    have hends := hclosable rfl hstart hstop
    simpa [classify, Leaf.span, Span.ofSize, RunKind.content?, View.parent?] using hends
  | instruction => simpa [classify, Leaf.span, Span.ofSize, RunKind.content?] using hhidden
  | doctype => simpa [classify, Leaf.span, Span.ofSize, RunKind.content?] using hhidden

mutual

/-- On every leaf of a node the answers fit, if the node stands where nothing is split. -/
theorem fitsOn_leaves {tags : List StartTag} {next : Next} (enclosing : List Enclosure)
    (before after : List Item) (start : Nat) : ∀ n : Node, n.Nested tags next →
    (∀ p ∈ n.pieces, p.Solid ∧ p.Signed) → Known d enclosing before after start n →
    ∀ l ∈ n.leaves enclosing before after start, FitsOn d l
  | .run kind t, _, _, h => h.fitsOn_run
  | .strayEnd tag, _, _, h =>
    fitsOn_endTag (mem_of_hasSeam h.seamBefore) h.seamBefore
      (fun _ _ _ => .nothing (mem_of_hasSeam h.seamBefore)) h.seamAfter
  | .element tag content endTag, hnested, hpieces, h => by
    let e : Element := ⟨start, tag, content, endTag⟩
    obtain ⟨⟨next', hcontent⟩, hempty⟩ := hnested.inside
    rw [Node.pieces, List.forall_mem_cons, List.forall_mem_append] at hpieces
    obtain ⟨⟨hsolid, hsigned⟩, hinner, -⟩ := hpieces
    have hitems := fitsOn_items h.mem hsolid.opener hsigned tag.items [] [] rfl fun v hv =>
      h.views v (List.mem_cons_of_mem _ (List.mem_append_left _ hv))
    rw [Node.leaves.eq_def]
    simp only [List.forall_mem_append]
    refine ⟨h.fitsOn_opening hsolid hsigned, hitems, h.fitsOn_ending hsolid hempty, ?inside, ?closer⟩
    case inside =>
      rcases hempty with hending | ⟨rfl, -⟩
      · exact fitsOn_leavesOfAll _ _ _ _ content hcontent hinner (h.inside hending)
      · exact List.forall_mem_nil _
    case closer =>
      cases endTag with
      | none => exact List.forall_mem_nil _
      | some closer =>
        have hending := hempty.resolve_right nofun
        have hstop : e.contentStop + closer.text.width =
            start + (Node.element tag content (some closer)).width := e.contentStop_add_width
        refine fitsOn_endTag (fun v hv => by cases hv; exact h.mem) ?_ ?_ ?_
        · exact ⟨h.mem, e, rfl, hending, Node.seamOfAll_stop _ _⟩
        · intro offset hlt hle
          have hopener : Text.width EndTag.opener = 2 := rfl
          refine .of_view h.mem nofun ⟨_, rfl, hlt, ?_⟩
          cases hnamed : closer.name with
          | none => simpa [Element.endNameSpan, hnamed, Span.ofSize] using hle
          | some n => simpa [Element.endNameSpan, hnamed, Span.ofSize, hopener] using hle
        · rw [hstop]
          exact h.seamAfter

theorem fitsOn_leavesOfAll {tags : List StartTag} {next : Next} (enclosing : List Enclosure)
    (before items : List Item) (start : Nat) : ∀ ns : List Node, Node.NestedAll tags next ns →
    (∀ p ∈ Node.piecesOfAll ns, p.Solid ∧ p.Signed) → KnownAll d enclosing before items start ns →
    ∀ l ∈ Node.leavesOfAll enclosing before items start ns, FitsOn d l
  | [], _, _, _ => List.forall_mem_nil _
  | n :: ns, hnested, hpieces, h => by
    rw [Node.piecesOfAll, List.forall_mem_append] at hpieces
    rw [Node.leavesOfAll, List.forall_mem_append]
    exact ⟨fitsOn_leaves _ _ _ _ n hnested.1 hpieces.1 h.head,
      fitsOn_leavesOfAll _ _ _ _ ns hnested.2 hpieces.2 h.tail⟩

end

/-! ## The whole document -/

theorem fitsOn_leaves_parse (t : Text) :
    ∀ l ∈ (Document.parse t).leaves, FitsOn (Document.parse t) l := by
  unfold Document.parse
  split
  · -- A text that is not markup is one leaf, and nothing is said of it.
    rw [Document.leaves, forall_ofTexts_singleton]
    intro _ offset _ _
    exact .nothing nofun
  · have hpieces := Node.piecesOfAll_ofPieces (Piece.ofText t)
    refine fitsOn_leavesOfAll [] [] _ 0 _ (Node.nestedAll_ofPieces _) ?_ ⟨fun _ hv => hv, fun _ h => h⟩
    rw [hpieces]
    exact fun p hp => ⟨Piece.solid_ofText t p hp, Piece.signed_ofText t p hp⟩

/-- Of two leaves at an offset one is chosen, and none only where there is none. -/
theorem chooseLeaf_eq (left right : Option Leaf) :
    chooseLeaf left right = left ∨ chooseLeaf left right = right ∧ (right = none → left = none) := by
  unfold chooseLeaf
  split
  · split
    · exact .inl rfl
    · exact .inr ⟨rfl, nofun⟩
  · exact .inl rfl
  · exact .inr ⟨rfl, fun _ => rfl⟩

/-- The leaf of a location is at its offset, and only an empty document has none. -/
theorem leaf_inspect (d : Document) (offset : Nat) :
    let loc := inspect d offset
    (∀ l, loc.leaf = some l → l ∈ d.leaves ∧ l.span.start ≤ loc.offset ∧ loc.offset ≤ l.span.stop) ∧
      (loc.leaf = none → loc.offset = 0) := by
  intro loc
  have hleft {l : Leaf} (h : loc.left = some l) :
      l ∈ d.leaves ∧ l.span.start < loc.offset ∧ loc.offset ≤ l.span.stop := by
    have hspan := List.find?_some h
    rw [Bool.and_eq_true, decide_eq_true_eq, decide_eq_true_eq] at hspan
    exact ⟨List.mem_of_find?_eq_some h, hspan⟩
  have hright {l : Leaf} (h : loc.right = some l) :
      l ∈ d.leaves ∧ l.span.start ≤ loc.offset ∧ loc.offset < l.span.stop := by
    have hspan := List.find?_some h
    rw [Span.contains, Bool.and_eq_true, decide_eq_true_eq, decide_eq_true_eq] at hspan
    exact ⟨List.mem_of_find?_eq_some h, hspan⟩
  have hchosen : loc.leaf = loc.left ∨ loc.leaf = loc.right ∧ (loc.right = none → loc.left = none) :=
    chooseLeaf_eq loc.left loc.right
  constructor
  · intro l hl
    rcases hchosen with heq | ⟨heq, -⟩
    · obtain ⟨hmem, hlt, hle⟩ := hleft (heq ▸ hl)
      exact ⟨hmem, Nat.le_of_lt hlt, hle⟩
    · obtain ⟨hmem, hle, hlt⟩ := hright (heq ▸ hl)
      exact ⟨hmem, hle, Nat.le_of_lt hlt⟩
  · intro hnone
    have hleft : loc.left = none := by
      rcases hchosen with heq | ⟨heq, hboth⟩
      · exact heq ▸ hnone
      · exact hboth (heq ▸ hnone)
    -- Past the start of the document there is a leaf to the left.
    cases hoffset : loc.offset with
    | zero => rfl
    | succ n =>
      obtain ⟨l, hl, hlt, hle⟩ := d.isTiling_leaves.exists_left (o := loc.offset) (by omega)
        (Nat.min_le_right offset d.width)
      have hnot := List.find?_eq_none.1 hleft l hl
      rw [Bool.and_eq_true, decide_eq_true_eq, decide_eq_true_eq] at hnot
      exact absurd ⟨hlt, hle⟩ hnot

theorem answer_inspect (d : Document) (offset : Nat) :
    let loc := inspect d offset
    (loc.kind, loc.node) =
      match loc.leaf with
      | some l => classify l loc.offset
      | none => contentGap none := rfl

/-- Every answer fits, and a gap in content is a seam. -/
theorem located_inspect (t : Text) (offset : Nat) :
    let loc := inspect (Document.parse t) offset
    Located (Document.parse t) loc.offset (loc.kind, loc.node) := by
  intro loc
  obtain ⟨hsome, hnone⟩ := leaf_inspect (Document.parse t) offset
  have hanswer := answer_inspect (Document.parse t) offset
  dsimp only at hanswer
  rw [hanswer]
  cases hleaf : loc.leaf with
  | none =>
    rw [hnone hleaf]
    exact .of_seam (Node.seamOfAll_start _ _)
  | some l =>
    obtain ⟨hl, hstart, hstop⟩ := hsome l hleaf
    exact fitsOn_leaves_parse t l hl _ hstart hstop

theorem offset_inspect (t : Text) (offset : Nat) :
    (inspect (Document.parse t) offset).offset = min offset t.width := by
  rw [← Document.width_parse]
  rfl

/-- **Every location fits.** Its offset is the one asked for, or the end of the text; its node is
in the document, and the offset lies to it as the kind of the location says. -/
theorem inspect_fits (t : Text) (offset : Nat) :
    let d := Document.parse t
    let loc := inspect d offset
    loc.offset = min offset t.width ∧ (∀ v ∈ loc.node, v ∈ d.views) ∧
      loc.kind.Fits d loc.offset (loc.node.map View.item) := by
  have hlocated := located_inspect t offset
  exact ⟨offset_inspect t offset, hlocated.node, hlocated.fits⟩

end ProjectFile.Editor
