import ProjectFile.Proofs.Markup.Frame
import ProjectFile.Proofs.Text.Offset

/-!
An element of a text without errors is read the same by itself.

The part of the text that an element spans, read as a text of its own, has no errors, and its root
is the element: the same tree, with everything in it as much further left as the element stood to
the right (`Document.parse_slice_span`).

The scan comes to the element outside of tags, because the pieces before it are closed, and leaves
it the same way, so it finds the same pieces with nothing around them (`Piece.readAll_append`). The
element is sound, so those pieces nest the same with nothing open (`Node.Sound.nested`).
-/

namespace ProjectFile.Markup

/-! ## Trees at another offset -/

namespace Concrete

/-- The line of an outline that stands `distance` bytes further right. -/
def Line.shift (line : Line) (distance : Nat) : Line :=
  { line with span := line.span.shift distance }

mutual

theorem outline_shift (depth offset distance : Nat) : ∀ c : Concrete,
    c.outline depth (offset + distance) = (c.outline depth offset).map fun l => l.shift distance
  | .leaf kind t => by simp [outline, Line.shift, Span.shift, Span.ofSize, Nat.add_right_comm]
  | .branch kind children => by
    rw [outline, outline, List.map_cons, outlineOfAll_shift (depth + 1) offset distance children]
    simp [Line.shift, Span.shift, Span.ofSize, Nat.add_right_comm]

/-- Moving trees moves every line of their outline. -/
theorem outlineOfAll_shift (depth offset distance : Nat) : ∀ cs : List Concrete,
    outlineOfAll depth (offset + distance) cs =
      (outlineOfAll depth offset cs).map fun l => l.shift distance
  | [] => rfl
  | c :: cs => by
    rw [outlineOfAll, outlineOfAll, List.map_append, outline_shift depth offset distance c,
      Nat.add_right_comm, outlineOfAll_shift depth (offset + c.width) distance cs]

end

end Concrete

/-! ## Elements in their text -/

namespace Document

/-- An element that is viewed in a sound document stands in the frames of the elements around it. -/
theorem Reading.exists_frames_of_view {t : Text} {ns : List Node} (h : Reading t ns) {v : View}
    (hv : v ∈ (parse t).views) {e : Element} (hitem : v.item = .element e) : ∃ fs pre post,
      ns = Frame.plug fs (pre ++ e.node :: post) ∧
      e.start = Frame.start 0 fs + Node.widthOfAll pre ∧
      v.enclosing.map Enclosure.element =
        (Frame.elements 0 (pre ++ e.node :: post) fs).reverse := by
  have hattribute : v.item.attribute? = none := by rw [hitem]; rfl
  rw [h.parse_eq] at hv
  obtain ⟨fs, pre, m, post, hns, hshown, haround⟩ := Node.standsIn_viewsOfAll hattribute [] [] _ 0 0
    [] rfl ns h.sound hv
  rw [hitem] at hshown
  obtain ⟨rfl, hstart⟩ := Item.ofNode?_eq_element hshown
  exact ⟨fs, pre, post, hns, hstart.symm, haround.trans (List.append_nil _)⟩

theorem Reading.exists_frames {t : Text} {ns : List Node} (h : Reading t ns) {e : Element}
    (he : e ∈ (parse t).elements) : ∃ fs pre post, ns = Frame.plug fs (pre ++ e.node :: post) ∧
      e.start = Frame.start 0 fs + Node.widthOfAll pre := by
  obtain ⟨v, hv, hitem⟩ := mem_elements_iff.1 he
  obtain ⟨fs, pre, post, hns, hstart, -⟩ := h.exists_frames_of_view hv hitem
  exact ⟨fs, pre, post, hns, hstart⟩

/-- What stands between the parts of a sound document is read as it is there, whatever it is
followed by. -/
theorem Reading.readAll_middle {t : Text} {ns : List Node} (h : Reading t ns) {fs : List Frame}
    {pre post : List Node} {n : Node} (hns : ns = Frame.plug fs (pre ++ n :: post)) (rest : Text)
    (hrest : Piece.CanReplace ((Node.piecesOfAll post ++ Frame.closing fs).flatMap Piece.text) rest) :
    Piece.readAll .content 0 (n.text ++ rest) = n.pieces ++ Piece.readAll .content 0 rest := by
  have hsound := h.sound
  have hpieces := h.pieces
  rw [hns, Frame.soundAll_plug, Node.soundAll_append, Node.soundAll_cons] at hsound
  obtain ⟨hframes, hpre, hn, -⟩ := hsound
  have hopened : ∀ p ∈ Frame.opening fs ++ Node.piecesOfAll pre, p.IsClosed := by
    rw [List.forall_mem_append]
    exact ⟨Frame.isClosed_opening hframes, Node.SoundAll.isClosed _ hpre⟩
  -- First the pieces up to the node are passed, then those of the node.
  have hall : Piece.readAll .content 0
      ((Frame.opening fs ++ Node.piecesOfAll pre).flatMap Piece.text ++
        (n.pieces.flatMap Piece.text ++
          (Node.piecesOfAll post ++ Frame.closing fs).flatMap Piece.text)) =
      (Frame.opening fs ++ Node.piecesOfAll pre) ++
        (n.pieces ++ (Node.piecesOfAll post ++ Frame.closing fs)) := by
    have htext : Piece.readAll .content 0 t = _ := hpieces
    rw [← h.text_eq, Node.textOfAll_eq, hns, Frame.piecesOfAll_plug] at htext
    simpa [Node.piecesOfAll_append, Node.piecesOfAll] using htext
  have hmiddle := (Piece.readAll_append hall hopened).1
  have hstable := (Piece.readAll_append hmiddle.symm (Node.Sound.isClosed n hn)).2 rest hrest
  rwa [← Node.text_eq] at hstable

theorem Reading.of_element {t : Text} {ns : List Node} (h : Reading t ns) {fs : List Frame}
    {pre post : List Node} {tag : StartTag} {content : List Node} {endTag : Option EndTag}
    (hns : ns = Frame.plug fs (pre ++ .element tag content endTag :: post)) :
    Reading (Node.element tag content endTag).text [.element tag content endTag] := by
  have hsound := h.sound
  rw [hns, Frame.soundAll_plug, Node.soundAll_append, Node.soundAll_cons] at hsound
  obtain ⟨-, -, hn, -⟩ := hsound
  have hread := h.readAll_middle hns [] ⟨fun _ => rfl, nofun⟩
  rw [List.append_nil, Piece.readAll, List.append_nil] at hread
  refine ⟨?_, ?_, ⟨hn, trivial⟩, ?_, rfl⟩
  · intro c hc
    apply h.plain c
    rw [← h.text_eq, hns, Node.textOfAll_eq, Frame.piecesOfAll_plug, Node.piecesOfAll_append,
      Node.piecesOfAll]
    rw [Node.text_eq] at hc
    simp [hc]
  · rw [Piece.ofText, hread, Node.piecesOfAll, Node.piecesOfAll, List.append_nil]
  · intro n hmem
    rw [List.mem_singleton.1 hmem]
    intro hkind
    cases hkind

/-- **An element of a text without errors is read the same by itself.** The text that it spans has
no errors, and its root is the element with everything in it moved to the front. -/
theorem parse_slice_span (t : Text) (h : (parse t).errors = []) : ∀ e ∈ (parse t).elements,
    let alone := parse (t.slice e.span.start e.span.stop)
    alone.errors = [] ∧ ∃ root, alone.root? = some root ∧ root.node.concrete = e.node.concrete ∧
      ∀ depth, e.node.concrete.outline depth e.start =
        (root.node.concrete.outline depth root.start).map fun l => l.shift e.start := by
  intro e he
  obtain ⟨ns, hreading⟩ := exists_reading h
  obtain ⟨fs, pre, post, hns, hstart⟩ := hreading.exists_frames he
  have halone : Reading e.node.text [e.node] := hreading.of_element hns
  have hslice : t.slice e.span.start e.span.stop = e.node.text := by
    let front : Text := (Frame.opening fs ++ Node.piecesOfAll pre).flatMap Piece.text
    let back : Text := (Node.piecesOfAll post ++ Frame.closing fs).flatMap Piece.text
    have htext : t = front ++ (e.node.text ++ back) := by
      rw [← hreading.text_eq, hns, Node.textOfAll_eq, Frame.piecesOfAll_plug, Node.text_eq]
      simp [front, back, Node.piecesOfAll_append, Node.piecesOfAll]
    have hwidth : e.span.start = front.width := by
      have hspan : e.span.start = e.start := rfl
      rw [hspan, hstart, Frame.start_eq, Node.widthOfAll_eq, Node.textOfAll_eq]
      simp [front]
    have hstop : e.span.stop = front.width + e.node.text.width := by
      rw [← hwidth, ← Node.width_eq]
      rfl
    rw [hwidth, hstop, htext]
    exact Text.slice_append front e.node.text back
  dsimp only
  rw [hslice]
  refine ⟨halone.errors_eq_nil, ⟨0, e.tag, e.content, e.endTag⟩, ?_, rfl, fun depth => ?_⟩
  · rw [halone.parse_eq]
    rfl
  · have hshift := Concrete.outline_shift depth 0 e.start e.node.concrete
    rwa [Nat.zero_add] at hshift

/-- Elements of one name at three levels, among runs that hold tags of that name. -/
def repeatedName : Text :=
  "<?a?><a k='>'>\n<a><!--</a>--><a k='/>'/>a</a ><![CDATA[<a>]]></a>\n".toList

/-- Each of the elements of one name is read by itself as the one that it is. -/
theorem parse_slice_span_repeatedName :
    (parse repeatedName).errors = [] ∧ (parse repeatedName).elements.length = 3 ∧
      ∀ e ∈ (parse repeatedName).elements,
        let alone := parse (repeatedName.slice e.span.start e.span.stop)
        alone.errors = [] ∧ ∃ root, alone.root? = some root ∧ root.node.concrete = e.node.concrete ∧
          ∀ depth, e.node.concrete.outline depth e.start =
            (root.node.concrete.outline depth root.start).map fun l => l.shift e.start :=
  ⟨by decide +kernel, by decide +kernel, parse_slice_span repeatedName (by decide +kernel)⟩

end Document

end ProjectFile.Markup
