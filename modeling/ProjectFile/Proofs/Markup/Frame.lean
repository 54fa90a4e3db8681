import ProjectFile.Proofs.Markup.Seam
import ProjectFile.Proofs.Markup.Sound

/-!
Places between nodes.

A place in a document has elements around it, each with nodes before and after it: its `Frame`s,
outermost first. `Frame.plug` puts nodes into frames, so a document that differs from another in
one place is the same frames with other nodes in them.

1. What is inside is independent of what is around: the pieces, the errors and the rules of nesting
   of plugged nodes are those of the nodes between those of the frames (`piecesOfAll_plug`,
   `errorsOfAll_plug`, `nestedAll_plug`).
2. The frames of a view are the elements around it (`Node.standsIn_viewsOfAll`), and what stands in
   frames has a view with those elements around it (`Frame.exists_view`).
-/

namespace ProjectFile.Markup

/-! ## Nodes that follow one another -/

namespace Node

theorem errorsOfAll_append (length offset : Nat) (ms ns : List Node) :
    errorsOfAll length offset (ms ++ ns) =
      errorsOfAll length offset ms ++ errorsOfAll length (offset + widthOfAll ms) ns := by
  induction ms generalizing offset with
  | nil => simp [errorsOfAll, widthOfAll]
  | cons m ms ih => simp [errorsOfAll, widthOfAll, ih, Nat.add_assoc]

/-- Nodes in front of others are nested as before a sibling. -/
theorem nestedAll_append {around : List StartTag} {next : Next} {ms ns : List Node}
    (hms : NestedAll around .sibling ms) (hns : NestedAll around next ns) :
    NestedAll around next (ms ++ ns) := by
  induction ms with
  | nil => exact hns
  | cons m ms ih =>
    obtain ⟨hm, hms⟩ := hms
    refine ⟨?_, ih hms⟩
    rw [ite_self] at hm
    exact hm.of_sibling _

end Node

/-! ## Frames -/

/-- An element around a place, with the nodes in it before and after the place. -/
structure Frame where
  tag : StartTag
  before : List Node
  after : List Node
  closer : EndTag

namespace Frame

/-- The nodes that have `inner` in the innermost of some frames. The nodes beside a frame are those
of the frame around it, so `before` and `after` of a frame stand next to its element. -/
def plug : List Frame → List Node → List Node
  | [], inner => inner
  | f :: fs, inner => f.before ++ .element f.tag (plug fs inner) (some f.closer) :: f.after

/-- The offset of what is plugged into frames that start at `offset`. -/
def start (offset : Nat) : List Frame → Nat
  | [] => offset
  | f :: fs => start (offset + Node.widthOfAll f.before + f.tag.text.width) fs

/-- The pieces of frames in front of what is plugged in. -/
def opening : List Frame → List Piece
  | [] => []
  | f :: fs => Node.piecesOfAll f.before ++ .start f.tag :: opening fs

/-- The pieces of frames behind what is plugged in. -/
def closing : List Frame → List Piece
  | [] => []
  | f :: fs => closing fs ++ .stop f.closer :: Node.piecesOfAll f.after

/-- What comes right after what is plugged in, where `next` comes after the frames. -/
def next (after : Next) : List Frame → Next
  | [] => after
  | f :: fs => next (.endTag f.closer.name) fs

/-- The start tags of frames, innermost first. -/
def tags (fs : List Frame) : List StartTag := (fs.map Frame.tag).reverse

/-- The elements that frames from `offset` on are with `inner` plugged in, outermost first. -/
def elements (offset : Nat) (inner : List Node) : List Frame → List Element
  | [] => []
  | f :: fs =>
    let here := offset + Node.widthOfAll f.before
    ⟨here, f.tag, plug fs inner, some f.closer⟩ :: elements (here + f.tag.text.width) inner fs

theorem plug_append (fs gs : List Frame) (inner : List Node) :
    plug (fs ++ gs) inner = plug fs (plug gs inner) := by
  induction fs with
  | nil => rfl
  | cons f fs ih => simp [plug, ih]

theorem closing_append (fs gs : List Frame) : closing (fs ++ gs) = closing gs ++ closing fs := by
  induction fs with
  | nil => simp [closing]
  | cons f fs ih => simp [closing, ih]

theorem next_append (after : Next) (fs gs : List Frame) :
    next after (fs ++ gs) = next (next after fs) gs := by
  induction fs generalizing after with
  | nil => rfl
  | cons f fs ih => exact ih _

theorem start_append (offset : Nat) (fs gs : List Frame) :
    start offset (fs ++ gs) = start (start offset fs) gs := by
  induction fs generalizing offset with
  | nil => rfl
  | cons f fs ih => exact ih _

theorem elements_append (offset : Nat) (inner : List Node) (fs gs : List Frame) :
    elements offset inner (fs ++ gs) =
      elements offset (plug gs inner) fs ++ elements (start offset fs) inner gs := by
  induction fs generalizing offset with
  | nil => rfl
  | cons f fs ih => simp [elements, plug_append, ih, start]

/-- A frame element's tag does not depend on what is plugged in. -/
theorem map_tag_elements (offset : Nat) (inner : List Node) (fs : List Frame) :
    (elements offset inner fs).map Element.tag = fs.map Frame.tag := by
  induction fs generalizing offset with
  | nil => rfl
  | cons f fs ih => simp [elements, ih]

theorem offset_le_start (offset : Nat) (fs : List Frame) : offset ≤ start offset fs := by
  induction fs generalizing offset with
  | nil => exact Nat.le_refl offset
  | cons f fs ih =>
    have h := ih (offset + Node.widthOfAll f.before + f.tag.text.width)
    rw [start]
    omega

/-- Elements around a place start in front of it. -/
theorem within_elements {offset : Nat} {inner : List Node} {fs : List Frame} {e : Element}
    (h : e ∈ elements offset inner fs) : offset ≤ e.start ∧ e.start ≤ start offset fs := by
  induction fs generalizing offset with
  | nil => cases h
  | cons f fs ih =>
    rw [start]
    rcases List.mem_cons.1 h with rfl | h
    · have hinside := offset_le_start (offset + Node.widthOfAll f.before + f.tag.text.width) fs
      dsimp only
      omega
    · have hwithin := ih h
      omega

/-- What is plugged in ends inside the whole. -/
theorem start_add_le (offset : Nat) (fs : List Frame) (inner : List Node) :
    start offset fs + Node.widthOfAll inner ≤ offset + Node.widthOfAll (plug fs inner) := by
  induction fs generalizing offset with
  | nil => exact Nat.le_refl _
  | cons f fs ih =>
    have h := ih (offset + Node.widthOfAll f.before + f.tag.text.width)
    simp only [plug, Node.widthOfAll_append, Node.widthOfAll, Node.width, start] at h ⊢
    omega

/-- What is plugged in grows the whole by as much as it grows itself. -/
theorem widthOfAll_plug {inner inner' : List Node} {more : Nat}
    (h : Node.widthOfAll inner' = Node.widthOfAll inner + more) (fs : List Frame) :
    Node.widthOfAll (plug fs inner') = Node.widthOfAll (plug fs inner) + more := by
  induction fs with
  | nil => exact h
  | cons f fs ih =>
    simp only [plug, Node.widthOfAll_append, Node.widthOfAll, Node.width]
    omega

theorem piecesOfAll_plug (fs : List Frame) (inner : List Node) :
    Node.piecesOfAll (plug fs inner) = opening fs ++ (Node.piecesOfAll inner ++ closing fs) := by
  induction fs with
  | nil => simp [plug, opening, closing]
  | cons f fs ih =>
    simp [plug, opening, closing, Node.piecesOfAll_append, Node.piecesOfAll, Node.pieces, ih]

/-- The offset inside frames is the width of the pieces in front. -/
theorem start_eq (offset : Nat) (fs : List Frame) :
    start offset fs = offset + Text.width ((opening fs).flatMap Piece.text) := by
  induction fs generalizing offset with
  | nil => simp [start, opening]
  | cons f fs ih =>
    simp [start, opening, ih, Node.widthOfAll_eq, Node.textOfAll_eq, Piece.text, Nat.add_assoc]

/-! ## Sound frames -/

/-- Whether the element of a frame and the nodes beside it are well formed by themselves. -/
structure Sound (f : Frame) : Prop where
  tag : f.tag.Sound
  opens : f.tag.opens = true
  closer : f.closer.Fits f.tag
  before : Node.SoundAll f.before
  after : Node.SoundAll f.after

theorem soundAll_plug {fs : List Frame} {inner : List Node} :
    Node.SoundAll (plug fs inner) ↔ (∀ f ∈ fs, f.Sound) ∧ Node.SoundAll inner := by
  induction fs with
  | nil => simp [plug]
  | cons f fs ih =>
    rw [plug, Node.soundAll_append, Node.soundAll_cons, Node.Sound, ih, List.forall_mem_cons]
    constructor
    · intro h
      obtain ⟨hbefore, ⟨htag, hopens, hcloser, hfs, hinner⟩, hafter⟩ := h
      exact ⟨⟨⟨htag, hopens, hcloser, hbefore, hafter⟩, hfs⟩, hinner⟩
    · intro h
      obtain ⟨⟨hf, hfs⟩, hinner⟩ := h
      exact ⟨hf.before, ⟨hf.tag, hf.opens, hf.closer, hfs, hinner⟩, hf.after⟩

variable {fs : List Frame} (hfs : ∀ f ∈ fs, f.Sound)

include hfs

/-- In sound frames nothing but what is plugged in can break the rules of nesting. -/
theorem nestedAll_plug {around : List StartTag} {after : Next} {inner : List Node}
    (h : Node.NestedAll (tags fs ++ around) (next after fs) inner) :
    Node.NestedAll around after (plug fs inner) := by
  induction fs generalizing around after with
  | nil => exact h
  | cons f fs ih =>
    obtain ⟨hf, hfs⟩ := List.forall_mem_cons.1 hfs
    have hinner : Node.NestedAll (tags fs ++ f.tag :: around) (next after (f :: fs)) inner := by
      simpa [tags] using h
    refine Node.nestedAll_append (Node.SoundAll.nestedAll _ _ _ hf.before) ⟨?_, ?_⟩
    · exact ⟨hf.opens, .inr hf.closer.name, ih hfs hinner⟩
    · exact Node.SoundAll.nestedAll _ _ _ hf.after

/-- In sound frames nothing but what is plugged in has errors. -/
theorem errorsOfAll_plug (length offset : Nat) (inner : List Node) :
    Node.errorsOfAll length offset (plug fs inner) =
      Node.errorsOfAll length (start offset fs) inner := by
  induction fs generalizing offset with
  | nil => rfl
  | cons f fs ih =>
    obtain ⟨hf, hfs⟩ := List.forall_mem_cons.1 hfs
    obtain ⟨n, hn, -⟩ := hf.tag.name
    have hcloser (at' : Nat) : f.closer.errors f.tag.name at' = [] := by
      rw [hn, EndTag.errors_eq_nil_iff]
      refine ⟨?_, hf.closer.clean, hf.closer.closed⟩
      rw [hf.closer.name, hn]
      nofun
    rw [plug, Node.errorsOfAll_append, hf.before.errorsOfAll, Node.errorsOfAll,
      hf.after.errorsOfAll, Node.errors]
    simp only [StartTag.errors_eq_nil_iff.2 hf.tag, hcloser, ih hfs, start, List.nil_append,
      List.append_nil]

theorem isClosed_opening : ∀ p ∈ opening fs, p.IsClosed := by
  induction fs with
  | nil => nofun
  | cons f fs ih =>
    obtain ⟨hf, hfs⟩ := List.forall_mem_cons.1 hfs
    rw [opening, List.forall_mem_append, List.forall_mem_cons]
    exact ⟨Node.SoundAll.isClosed _ hf.before, hf.tag.ending, ih hfs⟩

end Frame

/-! ## Views and frames -/

theorem Item.element?_eq_some {i : Item} {e : Element} (h : i.element? = some e) :
    i = .element e := by
  match i with
  | .element _ => rw [element?, Option.some.injEq] at h; rw [h]
  | .attribute _ => cases h
  | .content _ _ _ => cases h

/-- The elements of a document are those that its views show. -/
theorem Document.mem_elements_iff {d : Document} {e : Element} :
    e ∈ d.elements ↔ ∃ v ∈ d.views, v.item = .element e := by
  rw [elements, List.mem_filterMap]
  constructor
  · rintro ⟨v, hv, hshown⟩
    exact ⟨v, hv, Item.element?_eq_some hshown⟩
  · rintro ⟨v, hv, hitem⟩
    exact ⟨v, hv, by rw [hitem]; rfl⟩

namespace Item

/-- A node that is shown as an element is that element's node, at its offset. -/
theorem ofNode?_eq_element {offset : Nat} {n : Node} {e : Element}
    (h : ofNode? (offset, n) = some (.element e)) : n = e.node ∧ offset = e.start := by
  match n with
  | .element tag inside endTag => cases h; exact ⟨rfl, rfl⟩
  | .strayEnd tag => cases h
  | .run kind t =>
    obtain ⟨k, -, hk⟩ := Option.map_eq_some_iff.1 h
    cases hk

/-- A node that is shown as content is a run of that kind, at the offset of the content. -/
theorem ofNode?_eq_content {offset start : Nat} {n : Node} {kind : ContentKind} {t : Text}
    (h : ofNode? (offset, n) = some (.content kind start t)) :
    ∃ k : RunKind, k.content? = some kind ∧ n = .run k t ∧ offset = start := by
  match n with
  | .element tag inside endTag => cases h
  | .strayEnd tag => cases h
  | .run k u =>
    obtain ⟨kind', hk, heq⟩ := Option.map_eq_some_iff.1 h
    cases heq
    exact ⟨k, hk, rfl, rfl⟩

end Item

namespace Node

/-- A view in a start tag is of an attribute. -/
theorem isAttribute_of_mem_viewsOfAll {enclosing : List Enclosure} {before : List Item}
    {offset : Nat} {items : List TagItem} {v : View}
    (h : v ∈ TagItem.viewsOfAll enclosing before offset items) : v.item.attribute?.isSome = true := by
  induction items generalizing before offset with
  | nil => cases h
  | cons i items ih =>
    match i with
    | .attribute a =>
      rw [TagItem.viewsOfAll] at h
      rcases List.mem_cons.1 h with rfl | h
      · rfl
      · exact ih h
    | .filler f => exact ih h

/-- The place of a view among nodes that start at `origin`: its frames, what is beside it, and the
elements around it. -/
def StandsIn (v : View) (enclosing : List Enclosure) (origin : Nat) (ns : List Node) : Prop :=
  ∃ fs pre m post, ns = Frame.plug fs (pre ++ m :: post) ∧
    Item.ofNode? (Frame.start origin fs + widthOfAll pre, m) = some v.item ∧
    v.enclosing.map Enclosure.element =
      (Frame.elements origin (pre ++ m :: post) fs).reverse ++ enclosing.map Enclosure.element

mutual

theorem standsIn_views {v : View} (hitem : v.item.attribute? = none)
    (enclosing : List Enclosure) (before after : List Item) (origin offset : Nat)
    (front back : List Node) (horigin : offset = origin + widthOfAll front) : ∀ n : Node, n.Sound →
    v ∈ n.views enclosing before after offset → StandsIn v enclosing origin (front ++ n :: back)
  | .strayEnd tag, _, hv => nomatch hv
  | .run kind t, _, hv => by
    subst horigin
    rw [views] at hv
    cases hkind : kind.content? with
    | none =>
      rw [hkind] at hv
      cases hv
    | some k =>
      rw [hkind] at hv
      rw [List.mem_singleton.1 hv]
      exact ⟨[], front, .run kind t, back, rfl, by simp [Item.ofNode?, hkind, Frame.start], rfl⟩
  | .element tag content endTag, hsound, hv => by
    subst horigin
    rw [views] at hv
    rcases List.mem_cons.1 hv with rfl | hv
    · exact ⟨[], front, .element tag content endTag, back, rfl, rfl, rfl⟩
    rcases List.mem_append.1 hv with hv | hv
    · have hattribute := isAttribute_of_mem_viewsOfAll hv
      rw [hitem] at hattribute
      cases hattribute
    · cases endTag with
      | none =>
        obtain ⟨-, -, rfl⟩ := hsound
        cases hv
      | some closer =>
        obtain ⟨-, -, -, hcontent⟩ := hsound
        obtain ⟨fs, pre, m, post, heq, hshown, haround⟩ := standsIn_viewsOfAll hitem _ _ _
          (origin + widthOfAll front + tag.text.width) _ [] rfl content hcontent hv
        rw [List.nil_append] at heq
        refine ⟨⟨tag, front, back, closer⟩ :: fs, pre, m, post, ?_, hshown, ?_⟩
        · rw [Frame.plug, ← heq]
        · rw [haround, Frame.elements, ← heq]
          simp

/-- Every view of sound nodes that is not of an attribute stands in frames. -/
theorem standsIn_viewsOfAll {v : View} (hitem : v.item.attribute? = none)
    (enclosing : List Enclosure) (before items : List Item) (origin offset : Nat)
    (front : List Node) (horigin : offset = origin + widthOfAll front) : ∀ ns : List Node,
    SoundAll ns → v ∈ viewsOfAll enclosing before items offset ns →
    StandsIn v enclosing origin (front ++ ns)
  | [], _, hv => nomatch hv
  | n :: ns, hsound, hv => by
    rw [viewsOfAll] at hv
    rcases List.mem_append.1 hv with hv | hv
    · exact standsIn_views hitem _ _ _ origin offset front ns horigin n hsound.1 hv
    · have hnext : offset + n.width = origin + widthOfAll (front ++ [n]) := by
        rw [widthOfAll_append, widthOfAll, widthOfAll]
        omega
      have hrest := standsIn_viewsOfAll hitem _ _ _ origin (offset + n.width) (front ++ [n]) hnext
        ns hsound.2 hv
      rwa [List.append_assoc] at hrest

end

/-- The elements around one of some nodes are those around all of them and others, which start among
the nodes and no later than it. -/
theorem exists_enclosing_eq {v : View} {e : Element} (hitem : v.item = .element e)
    (enclosing : List Enclosure) (before items : List Item) (origin : Nat) {ns : List Node}
    (hsound : SoundAll ns) (hv : v ∈ viewsOfAll enclosing before items origin ns) :
    ∃ inner : List Element,
      v.enclosing.map Enclosure.element = inner ++ enclosing.map Enclosure.element ∧
      ∀ x ∈ inner, origin ≤ x.start ∧ x.start ≤ e.start := by
  have hattribute : v.item.attribute? = none := by rw [hitem]; rfl
  obtain ⟨fs, pre, m, post, -, hshown, haround⟩ :=
    standsIn_viewsOfAll hattribute enclosing before items origin origin [] rfl ns hsound hv
  rw [hitem] at hshown
  obtain ⟨-, hstart⟩ := Item.ofNode?_eq_element hshown
  refine ⟨_, haround, fun x hx => ?_⟩
  have hwithin := Frame.within_elements (List.mem_reverse.1 hx)
  omega

/-- A node among others has its views among theirs. -/
theorem exists_views_subset (enclosing : List Enclosure) (before items : List Item) (offset : Nat)
    (ms : List Node) (n : Node) (ns : List Node) : ∃ before' after,
    ∀ v ∈ n.views enclosing before' after (offset + widthOfAll ms),
      v ∈ viewsOfAll enclosing before items offset (ms ++ n :: ns) := by
  induction ms generalizing before items offset with
  | nil => exact ⟨_, _, fun v hv => List.mem_append_left _ hv⟩
  | cons m ms ih =>
    obtain ⟨before', after, hall⟩ := ih ((Item.ofNode? (offset, m)).toList ++ before)
      (items.drop (Item.ofNode? (offset, m)).toList.length) (offset + m.width)
    rw [Nat.add_assoc] at hall
    exact ⟨before', after, fun v hv => List.mem_append_right _ (hall v hv)⟩

end Node

/-- **What stands in frames has a view with the elements of the frames around it.** -/
theorem Frame.exists_view (enclosing : List Enclosure) (before items : List Item) (offset : Nat)
    (fs : List Frame) {pre post : List Node} {m : Node} {i : Item}
    (hshown : Item.ofNode? (start offset fs + Node.widthOfAll pre, m) = some i) :
    ∃ v ∈ Node.viewsOfAll enclosing before items offset (plug fs (pre ++ m :: post)), v.item = i ∧
      v.enclosing.map Enclosure.element =
        (elements offset (pre ++ m :: post) fs).reverse ++ enclosing.map Enclosure.element := by
  induction fs generalizing enclosing before items offset with
  | nil =>
    obtain ⟨before', after, hall⟩ := Node.exists_views_subset enclosing before items offset pre m post
    refine ⟨⟨i, before', after, enclosing⟩, hall _ ?_, rfl, rfl⟩
    cases m with
    | element tag content endTag =>
      cases hshown
      exact List.mem_cons_self
    | strayEnd tag => cases hshown
    | run kind t =>
      obtain ⟨k, hk, rfl⟩ := Option.map_eq_some_iff.1 hshown
      simp [Node.views, hk, Frame.start]
  | cons f fs ih =>
    let e : Element := ⟨offset + Node.widthOfAll f.before, f.tag, plug fs (pre ++ m :: post),
      some f.closer⟩
    obtain ⟨before', after, hall⟩ := Node.exists_views_subset enclosing before items offset f.before
      e.node f.after
    obtain ⟨v, hv, hitem, haround⟩ := ih (⟨e, before', after⟩ :: enclosing) [] e.children
      e.startTagSpan.stop hshown
    refine ⟨v, hall v ?_, hitem, ?_⟩
    · exact List.mem_cons_of_mem _ (List.mem_append_right _ hv)
    · have he : e.startTagSpan.stop = offset + Node.widthOfAll f.before + f.tag.text.width := rfl
      rw [haround, Frame.elements, he]
      simp [e]

end ProjectFile.Markup
