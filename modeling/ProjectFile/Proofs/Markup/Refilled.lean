import ProjectFile.Proofs.Markup.Alone
import ProjectFile.Proofs.Markup.Elements

/-!
An element with other content.

`Refilled` says of two texts that they differ in the content of one element. The pieces in front of
the element are read in both texts alike, and so are those behind it, so the two documents have the
same nodes but for the element (`Document.Reading.parse_refilled`).
-/

namespace ProjectFile

/-- The text with the bytes of a span replaced. -/
def Text.splice (t : Text) (span : Span) (s : Text) : Text :=
  t.slice 0 span.start ++ (s ++ t.slice span.stop t.width)

theorem Text.splice_append (a b c s : Text) :
    (a ++ (b ++ c)).splice ⟨a.width, a.width + b.width⟩ s = a ++ (s ++ c) := by
  have hfront := slice_append [] a (b ++ c)
  have hback := slice_append (a ++ b) c []
  simp only [List.nil_append, width_nil, Nat.zero_add] at hfront
  simp only [List.append_nil, List.append_assoc, width_append] at hback
  simp only [splice, width_append, hfront, ← Nat.add_assoc, hback]

namespace Markup

/-- Whether elements have the same name and the same attributes. -/
structure Element.Alike (e f : Element) : Prop where
  name : e.name = f.name
  attributes : e.attributes.map PlacedAttribute.attr = f.attributes.map PlacedAttribute.attr

theorem Element.Alike.trans {e f g : Element} (h : e.Alike f) (h' : f.Alike g) : e.Alike g :=
  ⟨h.name.trans h'.name, h.attributes.trans h'.attributes⟩

/-- Whether `t'` is the text `t` with `e'` in place of its element `e`, where `e'` differs from `e`
in its content only. What the element holds in the new text is its content there, so a text that
closes the element first is none. An element without content may be closed in its start tag. -/
structure Refilled (t : Text) (e : Element) (t' : Text) (e' : Element) : Prop where
  text_eq : t' = t.splice e.span e'.node.text
  mem : e' ∈ (Document.parse t').elements
  start_eq : e'.start = e.start
  alike : e.Alike e'

/-! ## Pieces -/

namespace Piece

/-- A start tag begins with a `<`. -/
theorem head?_start {tag : StartTag} {rest : Text} {qs : List Piece}
    (hread : readAll .content 0 (tag.text ++ rest) = .start tag :: qs) :
    tag.text.head? = some '<' := by
  obtain ⟨c, word, hword, hp, -⟩ := readAll_eq_cons (show readAll .content 0
    ((start tag).text ++ rest) = start tag :: qs from hread)
  rw [show tag.text = c :: word from hword, List.head?_cons]
  by_cases hc : c = '<'
  · rw [hc]
  · rw [readNext, if_neg hc] at hp
    cases hp

/-- Pieces are cut in one way at an offset. -/
theorem append_inj_of_width {ps ps' qs qs' : List Piece} (hsolid : ∀ p ∈ ps ++ qs, p.Solid)
    (h : ps ++ qs = ps' ++ qs')
    (hwidth : Text.width (ps.flatMap text) = Text.width (ps'.flatMap text)) :
    ps = ps' ∧ qs = qs' := by
  have hnone {rs : List Piece} (hrs : ∀ p ∈ rs, p.Solid) (hzero : Text.width (rs.flatMap text) = 0) :
      rs = [] := by
    cases rs with
    | nil => rfl
    | cons p rs =>
      rw [Text.width_eq_zero, List.flatMap_cons, List.append_eq_nil_iff] at hzero
      exact absurd hzero.1 (text_ne_nil (hrs p List.mem_cons_self))
  rcases List.append_eq_append_iff.1 h with ⟨rs, rfl, hqs⟩ | ⟨rs, rfl, hqs⟩
  · have hrs : rs = [] := by
      refine hnone (fun p hp => hsolid p ?_) ?_
      · rw [hqs]
        exact List.mem_append_right _ (List.mem_append_left _ hp)
      · rw [List.flatMap_append, Text.width_append] at hwidth
        omega
    subst hrs
    exact ⟨(List.append_nil _).symm, hqs⟩
  · have hrs : rs = [] := by
      refine hnone (fun p hp => hsolid p ?_) ?_
      · exact List.mem_append_left _ (List.mem_append_right _ hp)
      · rw [List.flatMap_append, Text.width_append] at hwidth
        omega
    subst hrs
    exact ⟨List.append_nil _, hqs.symm⟩

end Piece

/-! ## Pieces around an element -/

namespace Frame

/-- The name of the element of a frame. -/
def name (f : Frame) : Text := f.tag.name.getD []

theorem map_name_elements (offset : Nat) (inner : List Node) (fs : List Frame) :
    (elements offset inner fs).map Element.name = fs.map name := by
  have htags := congrArg (List.map fun tag : StartTag => tag.name.getD [])
    (map_tag_elements offset inner fs)
  rwa [List.map_map, List.map_map] at htags

/-- The pieces in front of a node that has some nodes before it in frames. -/
def front (fs : List Frame) (pre : List Node) : List Piece := opening fs ++ Node.piecesOfAll pre

/-- The pieces behind a node that has some nodes after it in frames. -/
def back (fs : List Frame) (post : List Node) : List Piece := Node.piecesOfAll post ++ closing fs

theorem piecesOfAll_plug_cons (fs : List Frame) (pre : List Node) (n : Node) (post : List Node) :
    Node.piecesOfAll (plug fs (pre ++ n :: post)) = front fs pre ++ (n.pieces ++ back fs post) := by
  simp [piecesOfAll_plug, Node.piecesOfAll_append, Node.piecesOfAll, front, back]

/-- The offset of a node is the width of the pieces in front of it. -/
theorem start_add_eq (fs : List Frame) (pre : List Node) :
    start 0 fs + Node.widthOfAll pre = Text.width ((front fs pre).flatMap Piece.text) := by
  rw [start_eq, Node.widthOfAll_eq, Node.textOfAll_eq, front, List.flatMap_append, Text.width_append,
    Nat.zero_add]

end Frame

namespace Document

section

variable {t : Text} {ns : List Node} (h : Reading t ns) {fs : List Frame} {pre post : List Node}
  {e : Element} (hns : ns = Frame.plug fs (pre ++ e.node :: post))

include h hns

/-- Frames, an element in them and the nodes beside it are sound in a sound document. -/
theorem Reading.sound_at : (∀ f ∈ fs, f.Sound) ∧ Node.SoundAll pre ∧ e.node.Sound ∧
    Node.SoundAll post := by
  have hsound := h.sound
  rwa [hns, Frame.soundAll_plug, Node.soundAll_append, Node.soundAll_cons] at hsound

theorem Reading.isClosed_front : ∀ p ∈ Frame.front fs pre, p.IsClosed := by
  obtain ⟨hframes, hpre, -, -⟩ := h.sound_at hns
  rw [Frame.front, List.forall_mem_append]
  exact ⟨Frame.isClosed_opening hframes, Node.SoundAll.isClosed _ hpre⟩

/-- How a text is read around one of its elements. -/
theorem Reading.readAll_at : Piece.readAll .content 0 t =
    Frame.front fs pre ++ (e.node.pieces ++ Frame.back fs post) := by
  have hpieces : Piece.readAll .content 0 t = _ := h.pieces
  rw [hpieces, hns]
  exact Frame.piecesOfAll_plug_cons fs pre e.node post

/-- The text around an element. -/
theorem Reading.text_at : t = (Frame.front fs pre).flatMap Piece.text ++
    (e.node.text ++ (Frame.back fs post).flatMap Piece.text) := by
  have htext := Piece.flatMap_text_ofText t
  rw [Piece.ofText, h.readAll_at hns, List.flatMap_append, List.flatMap_append,
    ← Node.text_eq] at htext
  exact htext.symm

/-- An element and what stands behind it are read as they are there. -/
theorem Reading.readAll_behind :
    Piece.readAll .content 0 (e.node.text ++ (Frame.back fs post).flatMap Piece.text) =
      e.node.pieces ++ Frame.back fs post := by
  have hread := h.readAll_at hns
  rw [h.text_at hns] at hread
  exact (Piece.readAll_append hread (h.isClosed_front hns)).1.symm

theorem Reading.back_eq : Frame.back fs post =
    Piece.readAll .content 0 ((Frame.back fs post).flatMap Piece.text) := by
  have hread := h.readAll_behind hns
  rw [Node.text_eq] at hread
  exact (Piece.readAll_append hread (Node.Sound.isClosed _ (h.sound_at hns).2.2.1)).1

theorem Reading.head?_element : e.node.text.head? = some '<' := by
  have hread := h.readAll_behind hns
  have htext : e.node.text = e.tag.text ++
      (Node.textOfAll e.content ++ (e.endTag.map EndTag.text).getD []) := rfl
  rw [htext, List.append_assoc] at hread
  rw [htext, List.head?_append, Piece.head?_start hread]
  rfl

/-- What stands in front of an element is read alike in front of other markup. -/
theorem Reading.readAll_front {rest : Text} (hrest : rest.head? = some '<') :
    Piece.readAll .content 0 ((Frame.front fs pre).flatMap Piece.text ++ rest) =
      Frame.front fs pre ++ Piece.readAll .content 0 rest := by
  have hread := h.readAll_at hns
  rw [h.text_at hns] at hread
  refine (Piece.readAll_append hread (h.isClosed_front hns)).2 rest ⟨fun hnil => ?_, fun c hc => ?_⟩
  · have hhead := h.head?_element hns
    rw [(List.append_eq_nil_iff.1 hnil).1] at hhead
    cases hhead
  · rw [hrest] at hc
    cases hc
    exact .inl rfl

end

/-! ## Other content -/

section

variable {t t' : Text} {ns : List Node} (h : Reading t ns) {fs : List Frame} {pre post : List Node}
  {e e' : Element} (hns : ns = Frame.plug fs (pre ++ e.node :: post))
  (hstart : e.start = Frame.start 0 fs + Node.widthOfAll pre) (hrefilled : Refilled t e t' e')

include h hns hstart hrefilled

/-- The text after the change, in the parts of the text before it. -/
theorem Reading.text_refilled : t' = (Frame.front fs pre).flatMap Piece.text ++
    (e'.node.text ++ (Frame.back fs post).flatMap Piece.text) := by
  have hspan : e.span = ⟨Text.width ((Frame.front fs pre).flatMap Piece.text),
      Text.width ((Frame.front fs pre).flatMap Piece.text) + Text.width e.node.text⟩ := by
    rw [← Frame.start_add_eq, ← hstart, ← Node.width_eq]
    rfl
  rw [hrefilled.text_eq, hspan, h.text_at hns, Text.splice_append]

/-- **A text whose one element gets other content has the same nodes otherwise.** -/
theorem Reading.parse_refilled (h' : (parse t').errors = []) :
    parse t' = .markup (Frame.plug fs (pre ++ e'.node :: post)) := by
  obtain ⟨ns', hreading⟩ := exists_reading h'
  obtain ⟨fs', pre', post', hns', hstart'⟩ := hreading.exists_frames hrefilled.mem
  have htext := h.text_refilled hns hstart hrefilled
  have hhead : (e'.node.text ++ (Frame.back fs post).flatMap Piece.text).head? = some '<' := by
    rw [List.head?_append, hreading.head?_element hns']
    rfl
  -- The two ways to read the new text are cut where the element starts.
  have hread := h.readAll_front hns hhead
  rw [← htext] at hread
  have hsolid := Piece.solid_ofText t'
  rw [Piece.ofText, hread] at hsolid
  obtain ⟨hfront, hbehind⟩ := Piece.append_inj_of_width hsolid
    (hread.symm.trans (hreading.readAll_at hns'))
    (by rw [← Frame.start_add_eq, ← Frame.start_add_eq, ← hstart, ← hstart', hrefilled.start_eq])
  obtain ⟨hframes, hpre, -, hpost⟩ := h.sound_at hns
  obtain ⟨-, -, hnode, -⟩ := hreading.sound_at hns'
  have hback : Frame.back fs' post' = Frame.back fs post := by
    rw [h.back_eq hns]
    rw [Node.text_eq] at hbehind
    exact (Piece.readAll_append hbehind (Node.Sound.isClosed _ hnode)).1
  refine parse_eq_markup hreading.plain ?_ (Node.SoundAll.nestedAll [] .nothing _ ?_)
  · rw [Piece.ofText, hreading.readAll_at hns', Frame.piecesOfAll_plug_cons, hfront, hback]
  · rw [Frame.soundAll_plug, Node.soundAll_append, Node.soundAll_cons]
    exact ⟨hframes, hpre, hnode, hpost⟩

end

end Document

end Markup

end ProjectFile
