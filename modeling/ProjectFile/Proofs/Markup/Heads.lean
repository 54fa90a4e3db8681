import ProjectFile.Proofs.Markup.Slot

/-!
The elements of a document without their content.

A `Head` is an element with its place and that of its parent, but not what is in it; so an insertion
somewhere changes no head but where it stands. `Document.heads` are those of a document, in order.

1. `Node.headsOfAll_move`: nodes that are moved have their heads moved.
2. `Frame.exists_heads`: around a place that grows, heads are moved if they start behind the place
   and stay if they start before it.
3. `Slot.heads_insert`, `Slot.heads_strayEnd`, `Slot.heads_element`: the heads after an insertion
   into a slot.
-/

namespace ProjectFile.Markup

/-- An element without its content: its place, its tags, and where its parent starts. -/
structure Head where
  start : Nat
  tag : StartTag
  endTag : Option EndTag
  parent : Option Nat
  deriving DecidableEq, Repr

namespace Head

/-- The head with its places moved. -/
def move (place : Nat → Nat) (h : Head) : Head :=
  { h with start := place h.start, parent := h.parent.map place }

/-- The head with nothing known of its parent. -/
def forget (h : Head) : Head := { h with parent := none }

end Head

/-- The head of a view that is of an element. -/
def View.head? (v : View) : Option Head :=
  v.item.element?.map fun e => ⟨e.start, e.tag, e.endTag, v.parentElement?.map Element.start⟩

/-- The heads of all elements of a document, in document order. -/
def Document.heads (d : Document) : List Head := d.views.filterMap View.head?

namespace Node

mutual

/-- The heads of the elements in a node at `offset`, where `parent` is the start of the element
around it. -/
def heads (parent : Option Nat) (offset : Nat) : Node → List Head
  | .element tag content endTag =>
    ⟨offset, tag, endTag, parent⟩ ::
      headsOfAll (some offset) (offset + tag.text.width) content
  | .strayEnd _ => []
  | .run _ _ => []

/-- The heads of the elements in nodes that follow one another from `offset` on. -/
def headsOfAll (parent : Option Nat) (offset : Nat) : List Node → List Head
  | [] => []
  | n :: ns => n.heads parent offset ++ headsOfAll parent (offset + n.width) ns

end

theorem headsOfAll_append (parent : Option Nat) (offset : Nat) (ms ns : List Node) :
    headsOfAll parent offset (ms ++ ns) =
      headsOfAll parent offset ms ++ headsOfAll parent (offset + widthOfAll ms) ns := by
  induction ms generalizing offset with
  | nil => rfl
  | cons m ms ih => simp [headsOfAll, widthOfAll, ih, Nat.add_assoc]

theorem filterMap_attributes (enclosing : List Enclosure) (before : List Item) (offset : Nat)
    (items : List TagItem) :
    (TagItem.viewsOfAll enclosing before offset items).filterMap View.head? = [] := by
  induction items generalizing before offset with
  | nil => rfl
  | cons i items ih =>
    match i with
    | .attribute a => exact ih _ _
    | .filler f => exact ih _ _

mutual

theorem filterMap_views (enclosing : List Enclosure) (before after : List Item) (offset : Nat) :
    ∀ n : Node, (n.views enclosing before after offset).filterMap View.head? =
      n.heads ((enclosing.head?.map Enclosure.element).map Element.start) offset
  | .strayEnd _ => rfl
  | .run kind t => by
    rw [views]
    cases kind.content? <;> rfl
  | .element tag content endTag => by
    let e : Element := ⟨offset, tag, content, endTag⟩
    have hcontent := filterMap_viewsOfAll (⟨e, before, after⟩ :: enclosing) [] e.children
      e.startTagSpan.stop content
    have hhead : View.head? ⟨.element e, before, after, enclosing⟩ =
        some ⟨offset, tag, endTag, (enclosing.head?.map Enclosure.element).map Element.start⟩ := rfl
    rw [views, heads, List.filterMap_cons_some hhead, List.filterMap_append, filterMap_attributes,
      hcontent]
    rfl

/-- The heads of nodes are those of their views. -/
theorem filterMap_viewsOfAll (enclosing : List Enclosure) (before items : List Item) (offset : Nat) :
    ∀ ns : List Node, (viewsOfAll enclosing before items offset ns).filterMap View.head? =
      headsOfAll ((enclosing.head?.map Enclosure.element).map Element.start) offset ns
  | [] => rfl
  | n :: ns => by
    rw [viewsOfAll, headsOfAll, List.filterMap_append, filterMap_views, filterMap_viewsOfAll]

end

mutual

theorem heads_move (place : Nat → Nat) (parent : Option Nat) (offset offset' : Nat) :
    ∀ n : Node, n.Sound → (∀ d < n.width, place (offset + d) = offset' + d) →
      n.heads (parent.map place) offset' = (n.heads parent offset).map (Head.move place)
  | .run _ _, _, _ => rfl
  | .element tag content endTag, hsound, hplace => by
    obtain ⟨htag, hcontent⟩ := Sound.inside hsound
    have hpos := htag.width_pos
    rw [width] at hplace
    have hstart : place offset = offset' := hplace 0 (by omega)
    have hinner := headsOfAll_move place (some offset) (offset + tag.text.width)
      (offset' + tag.text.width) content hcontent fun d hd => by
        rw [Nat.add_assoc, hplace (tag.text.width + d) (by omega), Nat.add_assoc]
    rw [Option.map_some, hstart] at hinner
    rw [heads, heads, List.map_cons, hinner, Head.move, hstart]

/-- **Nodes that are moved have their heads moved.** -/
theorem headsOfAll_move (place : Nat → Nat) (parent : Option Nat) (offset offset' : Nat) :
    ∀ ns : List Node, SoundAll ns → (∀ d < widthOfAll ns, place (offset + d) = offset' + d) →
      headsOfAll (parent.map place) offset' ns = (headsOfAll parent offset ns).map (Head.move place)
  | [], _, _ => rfl
  | n :: ns, hsound, hplace => by
    rw [widthOfAll] at hplace
    rw [headsOfAll, headsOfAll, List.map_append,
      heads_move place parent offset offset' n hsound.1 fun d hd => hplace d (by omega),
      headsOfAll_move place parent (offset + n.width) (offset' + n.width) ns hsound.2 fun d hd => by
        rw [Nat.add_assoc, hplace (n.width + d) (by omega), Nat.add_assoc]]

end

/-- Only the parents of the outermost elements depend on what is around. -/
theorem map_forget_headsOfAll (parent parent' : Option Nat) (offset : Nat) (ns : List Node) :
    (headsOfAll parent offset ns).map Head.forget = (headsOfAll parent' offset ns).map Head.forget := by
  induction ns generalizing offset with
  | nil => rfl
  | cons n ns ih =>
    rw [headsOfAll, headsOfAll, List.map_append, List.map_append, ih]
    cases n <;> rfl

theorem Cut.headsOfAll_eq {inner front back : List Node} (h : Cut inner front back)
    (parent : Option Nat) (offset : Nat) :
    headsOfAll parent offset inner =
      headsOfAll parent offset front ++ headsOfAll parent (offset + widthOfAll front) back := by
  cases h with
  | between => exact headsOfAll_append parent offset front back
  | blank pre post =>
    simp [headsOfAll_append, headsOfAll, heads, widthOfAll_append, widthOfAll, width, Nat.add_assoc]

theorem Cut.widthOfAll_eq {inner front back : List Node} (h : Cut inner front back) :
    widthOfAll inner = widthOfAll front + widthOfAll back := by
  cases h with
  | between => exact widthOfAll_append front back
  | blank pre post => simp [widthOfAll_append, widthOfAll, width, Nat.add_assoc]

end Node

/-! ## Heads around a place -/

namespace Frame

/-- Where the innermost element around a place starts. -/
def parent (outer : Option Nat) (offset : Nat) : List Frame → Option Nat
  | [] => outer
  | f :: fs =>
    let here := offset + Node.widthOfAll f.before
    parent (some here) (here + f.tag.text.width) fs

theorem parent_append (outer : Option Nat) (offset : Nat) (fs gs : List Frame) :
    parent outer offset (fs ++ gs) = parent (parent outer offset fs) (start offset fs) gs := by
  induction fs generalizing outer offset with
  | nil => rfl
  | cons f fs ih => exact ih _ _

/-- The innermost element around a place starts before it. -/
theorem map_parent {fs : List Frame} (hfs : ∀ f ∈ fs, f.Sound) {gap : Nat} (size : Nat)
    (outer : Option Nat) (offset : Nat) (houter : outer.map (Text.moved gap size) = outer)
    (hstart : start offset fs ≤ gap) :
    (parent outer offset fs).map (Text.moved gap size) = parent outer offset fs := by
  induction fs generalizing outer offset with
  | nil => exact houter
  | cons f fs ih =>
    obtain ⟨hf, hfs⟩ := List.forall_mem_cons.1 hfs
    have hpos := hf.tag.width_pos
    have hinside := offset_le_start (offset + Node.widthOfAll f.before + f.tag.text.width) fs
    change start (offset + Node.widthOfAll f.before + f.tag.text.width) fs ≤ gap at hstart
    exact ih hfs _ _ (congrArg some (Text.moved_of_lt (by omega) size)) hstart

/-- The heads of a frame: those before its element, that of the element, and those in and after
it. -/
theorem headsOfAll_plug_cons (f : Frame) (fs : List Frame) (inner : List Node) (outer : Option Nat)
    (offset : Nat) :
    let here := offset + Node.widthOfAll f.before
    Node.headsOfAll outer offset (plug (f :: fs) inner) =
      Node.headsOfAll outer offset f.before ++ (⟨here, f.tag, some f.closer, outer⟩ ::
        (Node.headsOfAll (some here) (here + f.tag.text.width) (plug fs inner) ++ Node.headsOfAll outer
          (here + (Node.element f.tag (plug fs inner) (some f.closer)).width) f.after)) := by
  intro here
  rw [plug, Node.headsOfAll_append, Node.headsOfAll, Node.heads]
  rfl

/-- **Around a place that grows the heads behind it are moved.** The place is `gap`, among the nodes
`inner`, and the nodes `inner'` are wider by `size`. -/
theorem exists_heads {fs : List Frame} (hfs : ∀ f ∈ fs, f.Sound) {inner inner' : List Node}
    {size : Nat} (gap : Nat) (hwidth : Node.widthOfAll inner' = Node.widthOfAll inner + size)
    (outer : Option Nat) (offset : Nat) (houter : outer.map (Text.moved gap size) = outer)
    (hstart : start offset fs ≤ gap) (hstop : gap ≤ start offset fs + Node.widthOfAll inner) :
    ∃ before after : List Head,
      Node.headsOfAll outer offset (plug fs inner) = before ++
        (Node.headsOfAll (parent outer offset fs) (start offset fs) inner ++ after) ∧
      Node.headsOfAll outer offset (plug fs inner') =
        before.map (Head.move (Text.moved gap size)) ++
          (Node.headsOfAll (parent outer offset fs) (start offset fs) inner' ++
            after.map (Head.move (Text.moved gap size))) := by
  induction fs generalizing outer offset with
  | nil => exact ⟨[], [], by simp [plug, parent, start], by simp [plug, parent, start]⟩
  | cons f fs ih =>
    obtain ⟨hf, hfs⟩ := List.forall_mem_cons.1 hfs
    have hpos := hf.tag.width_pos
    let here := offset + Node.widthOfAll f.before
    change start (here + f.tag.text.width) fs ≤ gap at hstart
    have hinside := offset_le_start (here + f.tag.text.width) fs
    have hhere : here < gap := by omega
    obtain ⟨before, after, hold, hnew⟩ := ih hfs (some here) (here + f.tag.text.width)
      (congrArg some (Text.moved_of_lt hhere size)) hstart hstop
    -- What is before the frame starts before the place, and what is after it behind the place.
    have hbefore := Node.headsOfAll_move (Text.moved gap size) outer offset offset f.before
      hf.before fun d hd => Text.moved_of_lt (by omega) size
    have hplug := widthOfAll_plug hwidth fs
    have hinner := start_add_le (here + f.tag.text.width) fs inner
    have hafter := Node.headsOfAll_move (Text.moved gap size) outer
      (here + (Node.element f.tag (plug fs inner) (some f.closer)).width)
      (here + (Node.element f.tag (plug fs inner') (some f.closer)).width) f.after hf.after
      fun d hd => by
        change gap ≤ start (here + f.tag.text.width) fs + Node.widthOfAll inner at hstop
        simp only [Node.width]
        rw [Text.moved_of_le (by omega)]
        omega
    rw [houter] at hbefore hafter
    have hmoved : Head.move (Text.moved gap size) ⟨here, f.tag, some f.closer, outer⟩ =
        ⟨here, f.tag, some f.closer, outer⟩ := by
      simp only [Head.move, houter, Text.moved_of_lt hhere]
    refine ⟨Node.headsOfAll outer offset f.before ++ ⟨here, f.tag, some f.closer, outer⟩ :: before,
      after ++ Node.headsOfAll outer
        (here + (Node.element f.tag (plug fs inner) (some f.closer)).width) f.after, ?_, ?_⟩
    · rw [headsOfAll_plug_cons, hold, parent, start]
      simp [here]
    · rw [headsOfAll_plug_cons, hnew, hafter, parent, start]
      simp [here, ← hbefore, hmoved]

end Frame

/-! ## Heads and elements -/

/-- The heads of a document are those of the elements that are viewed in it. -/
theorem Document.mem_heads {d : Document} {h : Head} : h ∈ d.heads ↔ ∃ v ∈ d.views, ∃ e,
    v.item = .element e ∧ h = ⟨e.start, e.tag, e.endTag, v.parentElement?.map Element.start⟩ := by
  rw [heads, List.mem_filterMap]
  constructor
  · rintro ⟨v, hv, hhead⟩
    obtain ⟨e, he, rfl⟩ := Option.map_eq_some_iff.1 hhead
    exact ⟨v, hv, e, Item.element?_eq_some he, rfl⟩
  · rintro ⟨v, hv, e, hitem, rfl⟩
    refine ⟨v, hv, ?_⟩
    rw [View.head?, hitem]
    rfl

/-- Whether an element is well formed on its own shows in its tags. -/
theorem Element.isValid_congr {e e' : Element} (htag : e'.tag = e.tag) (hend : e'.endTag = e.endTag) :
    e'.isValid = e.isValid := by
  unfold isValid isSelfClosing
  rw [htag, hend]

theorem Document.Reading.isValid {t : Text} {ns : List Node} (h : Reading t ns) :
    ∀ e ∈ (parse t).elements, e.isValid = true := by
  rw [h.parse_eq]
  have hnested := Node.SoundAll.nestedAll [] .nothing ns h.sound
  have hflawless := (Node.soundAll_iff_flawlessAll ns hnested).1 h.sound
  intro e he
  exact (((Node.flawlessAll_iff [] [] (Item.ofNodes 0 ns) 0 ns).1 hflawless).2 e he).valid

/-! ## Heads around a slot -/

theorem Document.heads_markup (ns : List Node) :
    (Document.markup ns).heads = Node.headsOfAll none 0 ns :=
  Node.filterMap_viewsOfAll [] [] _ 0 ns

namespace Slot

variable {t : Text} (s : Slot t)

/-- The heads of a text with an insertion: those before the place, those of the nodes that are new
from there on, and those behind, moved. -/
theorem exists_heads {w : Text} {new : List Node} {size : Nat}
    (hparse : Document.parse (t.insertAt s.offset w) =
      .markup (Frame.plug s.frames (s.front ++ new)))
    (hwidth : Node.widthOfAll new = Node.widthOfAll s.back + size) :
    let parent := some (s.element []).start
    let move := Head.move (Text.moved s.offset size)
    ∃ before after : List Head,
      (Document.parse t).heads = before ++ (Node.headsOfAll parent s.offset s.back ++ after) ∧
      (Document.parse (t.insertAt s.offset w)).heads =
        before.map move ++ (Node.headsOfAll parent s.offset new ++ after.map move) := by
  intro parent move
  have hinner : Node.widthOfAll (s.front ++ new) = Node.widthOfAll s.inner + size := by
    rw [Node.widthOfAll_append, hwidth, s.cut.widthOfAll_eq, Nat.add_assoc]
  have hparent : Frame.parent none 0 s.frames = parent := by
    rw [frames, Frame.parent_append]
    rfl
  have hfixed : parent.map (Text.moved s.offset size) = parent :=
    congrArg some (Text.moved_of_lt (s.start_element_lt []) size)
  obtain ⟨before, after, hold, hnew⟩ := Frame.exists_heads s.sound_frames s.offset hinner none 0
    rfl (Nat.le_add_right _ _) (by rw [s.cut.widthOfAll_eq, offset]; omega)
  have hfront := Node.headsOfAll_move (Text.moved s.offset size) parent (Frame.start 0 s.frames)
    (Frame.start 0 s.frames) s.front s.soundAll_front fun d hd =>
      Text.moved_of_lt (by rw [offset]; omega) size
  rw [hparent] at hold hnew
  rw [hfixed] at hfront
  refine ⟨before ++ Node.headsOfAll parent (Frame.start 0 s.frames) s.front, after, ?_, ?_⟩
  · rw [s.reading.parse_eq, Document.heads_markup]
    rw [s.cut.headsOfAll_eq, List.append_assoc] at hold
    rw [List.append_assoc]
    exact hold
  · rw [hparse, Document.heads_markup, hnew, Node.headsOfAll_append, List.map_append, ← hfront]
    simp only [List.append_assoc, offset, move]

/-- The heads behind the place are moved with it. -/
theorem headsOfAll_back (size : Nat) :
    let parent := some (s.element []).start
    Node.headsOfAll parent (s.offset + size) s.back =
      (Node.headsOfAll parent s.offset s.back).map (Head.move (Text.moved s.offset size)) := by
  intro parent
  have hback := Node.headsOfAll_move (Text.moved s.offset size) parent s.offset (s.offset + size)
    s.back s.soundAll_back fun d hd => by
      rw [Text.moved_of_le (by omega)]
      omega
  rwa [Option.map_some, Text.moved_of_lt (s.start_element_lt [])] at hback

/-- **A node that is put in leaves every element what it was.** Its heads stand among those of the
text, with the element around the place for their parent. -/
theorem heads_insert {w : Text} {m : Node}
    (hparse : Document.parse (t.insertAt s.offset w) =
      .markup (Frame.plug s.frames (s.front ++ m :: s.back))) :
    let move := Head.move (Text.moved s.offset m.width)
    ∃ before after : List Head, (Document.parse t).heads = before ++ after ∧
      (Document.parse (t.insertAt s.offset w)).heads = before.map move ++
        (m.heads (some (s.element []).start) s.offset ++ after.map move) := by
  intro move
  have hwidth : Node.widthOfAll (m :: s.back) = Node.widthOfAll s.back + m.width :=
    Nat.add_comm _ _
  obtain ⟨before, after, hold, hnew⟩ := s.exists_heads hparse hwidth
  refine ⟨before, Node.headsOfAll (some (s.element []).start) s.offset s.back ++ after, hold, ?_⟩
  rw [hnew, Node.headsOfAll, s.headsOfAll_back, List.map_append, List.append_assoc]

/-- An end tag that closes nothing leaves every element what it was. -/
theorem heads_strayEnd {w : Text} {tag : EndTag}
    (hparse : Document.parse (t.insertAt s.offset w) =
      .markup (Frame.plug s.frames (s.front ++ .strayEnd tag :: s.back))) :
    (Document.parse (t.insertAt s.offset w)).heads =
      (Document.parse t).heads.map (Head.move (Text.moved s.offset tag.text.width)) := by
  obtain ⟨before, after, hold, hnew⟩ := s.heads_insert hparse
  rw [hnew, hold, List.map_append]
  rfl

/-- An element that takes in the rest of the content leaves every element what it was, but for the
parents of those in it. -/
theorem heads_element {w : Text} {tag : StartTag}
    (hparse : Document.parse (t.insertAt s.offset w) =
      .markup (Frame.plug s.frames (s.front ++ [.element tag s.back none]))) :
    let move := Head.move (Text.moved s.offset tag.text.width)
    ∃ before after : List Head, (Document.parse t).heads = before ++ after ∧
      (Document.parse (t.insertAt s.offset w)).heads.map Head.forget =
        (before.map move ++ ⟨s.offset, tag, none, none⟩ :: after.map move).map Head.forget := by
  intro move
  have hwidth : Node.widthOfAll [.element tag s.back none] =
      Node.widthOfAll s.back + tag.text.width := by
    simp only [Node.widthOfAll, Node.width, Option.map_none, Option.getD_none, Text.width_nil]
    omega
  obtain ⟨before, after, hold, hnew⟩ := s.exists_heads hparse hwidth
  have hforget := Node.map_forget_headsOfAll (some s.offset) (some (s.element []).start)
    (s.offset + tag.text.width) s.back
  refine ⟨before, Node.headsOfAll (some (s.element []).start) s.offset s.back ++ after, hold, ?_⟩
  rw [s.headsOfAll_back] at hforget
  simp only [hnew, Node.headsOfAll, Node.heads, List.append_nil, List.map_append, List.map_cons,
    hforget, List.cons_append, move]
  rfl

end Slot

end ProjectFile.Markup
