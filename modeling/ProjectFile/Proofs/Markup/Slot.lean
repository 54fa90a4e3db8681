import ProjectFile.Proofs.Markup.Frame
import ProjectFile.Proofs.Markup.Signs
import ProjectFile.Proofs.Text.Offset

/-!
Insertions into the content of an element.

A `Slot` is a place in the content of an element of a text without errors, between two nodes or
inside blank character data. Markup that is inserted there is read on its own: the pieces before
the slot stay what they were, and those behind it are read again as soon as the inserted ones have
been (`Slot.readAll_opening_closing`). If what is read from the slot on nests there, the text is the
same frames with other nodes in them, and it has their errors and no others (`Slot.parse_insertAt`,
`Slot.errors_insertAt`). So it is with a comment (`Slot.insert_comment`), a start tag
(`Slot.insert_startTag`), a start tag that is an element (`Slot.insert_emptyTag`), an end tag
(`Slot.insert_endTag`) and the front of a start tag before another tag (`Slot.insert_name`).
-/

namespace ProjectFile.Markup

/-! ## Blank character data -/

/-- Blank character data is all that stands before the next `<`. -/
theorem Piece.blank_of_readNext {mode : Mode} {c : Char} {rest w : Text}
    (h : (readNext mode c rest).1 = .run .blank w) :
    Text.isMarkupBlank w = true ∧
      (c :: rest).take (Text.lengthWhile (fun d => d != '<') (c :: rest)) = w := by
  unfold readNext at h
  split at h
  · -- No markup is read as blank.
    unfold readMarkup at h
    repeat' split at h
    all_goals cases h
  · dsimp only [readData] at h
    rw [Piece.run.injEq] at h
    obtain ⟨hkind, hdata⟩ := h
    rw [hdata] at hkind
    refine ⟨?_, hdata⟩
    cases hblank : Text.isMarkupBlank w with
    | true => rfl
    | false =>
      rw [hblank] at hkind
      cases hkind

/-- Blank character data holds no `<`, and what comes right after it begins with one. -/
theorem Piece.blank_of_readAll {w rest : Text} {qs : List Piece}
    (h : readAll .content 0 (w ++ rest) = .run .blank w :: qs) :
    Text.isMarkupBlank w = true ∧ '<' ∉ w ∧ ∀ c ∈ rest.head?, c = '<' := by
  obtain ⟨c, word, rfl, hnext, -⟩ := readAll_eq_cons (p := .run .blank w) h
  obtain ⟨hblank, hdata⟩ := blank_of_readNext hnext
  have hlength : Text.lengthWhile (fun d => d != '<') (c :: word ++ rest) = (c :: word).length := by
    rw [Text.take_lengthWhile] at hdata
    rw [List.cons_append, Text.lengthWhile_eq, hdata]
  obtain ⟨hinside, hend⟩ := Text.lengthWhile_append_iff.1 hlength
  refine ⟨hblank, fun hmem => ?_, fun d hd => by simpa using hend d hd⟩
  have hne := hinside '<' hmem
  simp at hne

/-- Blank character data may be cut anywhere. -/
theorem Text.width_eq_length_of_isMarkupBlank {w : Text} (h : Text.isMarkupBlank w = true) :
    w.width = w.length := by
  induction w with
  | nil => rfl
  | cons c w ih =>
    rw [Text.isMarkupBlank, List.all_cons, Bool.and_eq_true] at h
    have hone : c.utf8Size = 1 := by
      have hc := h.1
      simp only [Text.isMarkupSpace, Bool.or_eq_true, beq_iff_eq] at hc
      rcases hc with ((rfl | rfl) | rfl) | rfl <;> rfl
    rw [Text.width_cons, List.length_cons, ih h.2, hone, Nat.add_comm]

/-- Where blank character data is cut, both parts are read: the first in front of any markup, and the
second in front of what came after the whole. -/
theorem Piece.readAll_cut {ps qs : List Piece} {v w : Text} (hv : v ≠ []) (hw : w ≠ [])
    (hread : readAll .content 0 (ps.flatMap text ++ (v ++ w ++ qs.flatMap text)) =
      ps ++ .run .blank (v ++ w) :: qs)
    (hclosed : ∀ p ∈ ps, p.IsClosed) (hqs : qs.flatMap text ≠ []) :
    (∀ rest : Text, rest.head? = some '<' → readAll .content 0 (ps.flatMap text ++ (v ++ rest)) =
      ps ++ .run .blank v :: readAll .content 0 rest) ∧
    readAll .content 0 (w ++ qs.flatMap text) = .run .blank w :: qs := by
  obtain ⟨hmiddle, hfront⟩ := readAll_append hread hclosed
  obtain ⟨hblank, hangle, hhead⟩ := blank_of_readAll hmiddle.symm
  have hwhole : readAll .content 0 ([Piece.run .blank (v ++ w)].flatMap text ++ qs.flatMap text) =
      [.run .blank (v ++ w)] ++ qs := by
    simpa [text] using hmiddle.symm
  have hrest := (readAll_append hwhole fun p hp => by rw [List.mem_singleton.1 hp]; trivial).1
  rw [Text.isMarkupBlank, List.all_append, Bool.and_eq_true] at hblank
  rw [List.mem_append, not_or] at hangle
  constructor
  · intro rest hrest
    rw [hfront (v ++ rest) ⟨?nil, ?head⟩, readAll_text hv hangle.1 hrest, Text.isMarkupBlank,
      if_pos hblank.1]
    case nil => exact fun h => absurd (List.append_eq_nil_iff.1 (List.append_eq_nil_iff.1 h).1).1 hv
    case head =>
      intro c hc
      cases v with
      | nil => exact absurd rfl hv
      | cons d v => exact .inr hc
  · have hsome : (qs.flatMap text).head? = some '<' := by
      cases hcases : qs.flatMap text with
      | nil => exact absurd hcases hqs
      | cons c rest =>
        rw [hcases] at hhead
        rw [List.head?_cons, hhead c rfl]
    rw [readAll_text hw hangle.2 hsome, Text.isMarkupBlank, if_pos hblank.2, ← hrest]

/-! ## Tags that are not terminated -/

/-- In a tag that is not terminated another tag is read as outside tags, since neither a `!` nor a
`?` follows its `<`. -/
theorem Piece.readAll_tag {rest : Text} (hmark : rest.head? ≠ some '!')
    (hquestion : rest.head? ≠ some '?') :
    readAll .tag 0 ('<' :: rest) = readAll .content 0 ('<' :: rest) := by
  have hnot (c d : Char) (w : Text) (hc : rest.head? ≠ some d) :
      (c :: d :: w).isPrefixOf ('<' :: rest) = false := by
    cases rest with
    | nil => simp [List.isPrefixOf]
    | cons e rest =>
      have hne : (d == e) = false := by
        rw [beq_eq_false_iff_ne]
        exact fun h => hc (by rw [h]; rfl)
      simp [List.isPrefixOf, hne]
  have hnext : readNext .tag '<' rest = readNext .content '<' rest := by
    have hsection : "<![CDATA[".toList = '<' :: '!' :: "[CDATA[".toList := rfl
    simp only [readNext, readMarkup, hsection, hnot _ '!' _ hmark, hnot _ '?' _ hquestion]
    simp
  obtain ⟨after, hafter⟩ := (isFront_readNext .content '<' rest).1
  rw [readAll_cons .content hafter.symm, readAll_cons .tag (hnext ▸ hafter.symm), hnext]

/-- A start tag that is only a name is not terminated if a `<` comes right after it. -/
theorem Piece.readAll_name {x : Text} (hx : Text.isName x = true) (rest : Text) :
    readAll .content 0 ('<' :: (x ++ '<' :: rest)) =
      .start ⟨['<'], some x, [], .missing⟩ :: readAll .tag 0 ('<' :: rest) := by
  have htokens : TagToken.readAll 0 (x ++ '<' :: rest) = [.name x] := by
    rw [TagToken.readAll_name hx (by simp [TagToken.isNameChar])]
    rfl
  have hnext : readNext .content '<' (x ++ '<' :: rest) =
      (.start ⟨['<'], some x, [], .missing⟩, .tag) := by
    rw [readNext_name hx, readStart]
    simp only [List.drop_succ_cons, List.drop_zero, htokens]
    rfl
  have hsplit : '<' :: (x ++ '<' :: rest) =
      (readNext .content '<' (x ++ '<' :: rest)).1.text ++ '<' :: rest := by
    rw [hnext]
    simp [text, StartTag.text, TagEnding.text]
  rw [readAll_cons .content hsplit, hnext]

/-! ## Slots -/

/-- How nodes fall into those before a place and those after it: the place is between two nodes, or
it splits blank character data. -/
inductive Node.Cut : List Node → List Node → List Node → Prop
  | between (front back : List Node) : Cut (front ++ back) front back
  | blank (pre post : List Node) {v w : Text} (hv : v ≠ []) (hw : w ≠ []) :
    Cut (pre ++ .run .blank (v ++ w) :: post) (pre ++ [.run .blank v]) (.run .blank w :: post)

/-- Blank character data may be cut at any offset in it or at its ends. -/
theorem Node.Cut.exists_blank (pre post : List Node) {w : Text} (hw : Text.isMarkupBlank w = true)
    {n : Nat} (hn : n ≤ w.width) : ∃ front back, Cut (pre ++ .run .blank w :: post) front back ∧
      widthOfAll front = widthOfAll pre + n := by
  have hlength := Text.width_eq_length_of_isMarkupBlank hw
  rcases Nat.eq_zero_or_pos n with rfl | hpos
  · exact ⟨pre, .run .blank w :: post, .between _ _, rfl⟩
  rcases Nat.lt_or_eq_of_le hn with hlt | rfl
  · have htake : Text.isMarkupBlank (w.take n) = true :=
      List.all_eq_true.2 fun c hc => List.all_eq_true.1 hw c (List.mem_of_mem_take hc)
    have hcut := Cut.blank pre post (v := w.take n) (w := w.drop n)
      (Piece.take_ne_nil hpos fun h => by subst h; exact absurd hlt (Nat.not_lt_zero n))
      (fun h => by have hdrop := List.drop_eq_nil_iff.1 h; omega)
    rw [List.take_append_drop] at hcut
    refine ⟨_, _, hcut, ?_⟩
    rw [widthOfAll_append, widthOfAll, widthOfAll, width,
      Text.width_eq_length_of_isMarkupBlank htake, List.length_take]
    omega
  · refine ⟨pre ++ [.run .blank w], post, ?_, by simp [widthOfAll_append, widthOfAll, width]⟩
    have hcut := Cut.between (pre ++ [.run .blank w]) post
    rwa [List.append_assoc] at hcut

theorem Node.Cut.textOfAll_eq {inner front back : List Node} (h : Cut inner front back) :
    (piecesOfAll inner).flatMap Piece.text =
      (piecesOfAll front).flatMap Piece.text ++ (piecesOfAll back).flatMap Piece.text := by
  cases h with
  | between => simp [piecesOfAll_append]
  | blank => simp [piecesOfAll_append, piecesOfAll, pieces, Piece.text]

theorem Node.Cut.widthOfAll_le {inner front back : List Node} (h : Cut inner front back) :
    widthOfAll front ≤ widthOfAll inner := by
  rw [widthOfAll_eq, widthOfAll_eq, Node.textOfAll_eq, Node.textOfAll_eq, h.textOfAll_eq,
    Text.width_append]
  exact Nat.le_add_right _ _

/-- A run that is put at a place does not change the elements around it. -/
theorem Node.Cut.filter_run {inner front back : List Node} (h : Cut inner front back)
    (kind : RunKind) (w : Text) :
    inner.filter isElement = (front ++ .run kind w :: back).filter isElement := by
  cases h with
  | between => simp [List.filter_append, isElement]
  | blank => simp [List.filter_append, isElement]

theorem Node.Cut.soundAll {inner front back : List Node} (h : Cut inner front back)
    (hinner : SoundAll inner) : SoundAll front ∧ SoundAll back := by
  cases h with
  | between => exact soundAll_append.1 hinner
  | blank pre post =>
    rw [soundAll_append, soundAll_cons] at hinner
    obtain ⟨hpre, -, hpost⟩ := hinner
    exact ⟨soundAll_append.2 ⟨hpre, rfl, trivial⟩, rfl, hpost⟩

/-- In front of any markup the pieces before a cut are what they were, and the pieces behind it are
what is read there. -/
theorem Node.Cut.readAll {inner front back : List Node} (h : Cut inner front back)
    {ps qs : List Piece}
    (hread : Piece.readAll .content 0 ((ps ++ piecesOfAll front).flatMap Piece.text ++
      (piecesOfAll back ++ qs).flatMap Piece.text) = ps ++ (piecesOfAll inner ++ qs))
    (hclosed : ∀ p ∈ ps ++ piecesOfAll front, p.IsClosed) (hqs : qs.flatMap Piece.text ≠ []) :
    (∀ rest : Text, rest.head? = some '<' →
      Piece.readAll .content 0 ((ps ++ piecesOfAll front).flatMap Piece.text ++ rest) =
        ps ++ piecesOfAll front ++ Piece.readAll .content 0 rest) ∧
    Piece.readAll .content 0 ((piecesOfAll back ++ qs).flatMap Piece.text) = piecesOfAll back ++ qs := by
  cases h with
  | between =>
    rw [piecesOfAll_append, List.append_assoc, ← List.append_assoc] at hread
    obtain ⟨hbehind, hall⟩ := Piece.readAll_append hread hclosed
    refine ⟨fun rest hrest => hall rest ⟨fun hnil => ?_, fun c hc => ?_⟩, hbehind.symm⟩
    · rw [List.flatMap_append] at hnil
      exact absurd (List.append_eq_nil_iff.1 hnil).2 hqs
    · rw [hrest] at hc
      cases hc
      exact .inl rfl
  | @blank pre post v w hv hw =>
    rw [piecesOfAll_append, ← List.append_assoc, List.forall_mem_append] at hclosed
    have hwhole : Piece.readAll .content 0 ((ps ++ piecesOfAll pre).flatMap Piece.text ++
        (v ++ w ++ (piecesOfAll post ++ qs).flatMap Piece.text)) =
          (ps ++ piecesOfAll pre) ++ .run .blank (v ++ w) :: (piecesOfAll post ++ qs) := by
      simpa [piecesOfAll_append, piecesOfAll, pieces, Piece.text] using hread
    obtain ⟨hfront, hbehind⟩ := Piece.readAll_cut hv hw hwhole hclosed.1 (by simp [hqs])
    constructor
    · intro rest hrest
      have hrest' := hfront rest hrest
      simpa [piecesOfAll_append, piecesOfAll, pieces, Piece.text] using hrest'
    · simpa [piecesOfAll, pieces, Piece.text] using hbehind

/-- A place in the content of an element of a text without errors. The element is that of `frame`;
the elements around it are those of `outer`, and `front` and `back` are its content before and
after the place. -/
structure Slot (t : Text) where
  outer : List Frame
  frame : Frame
  inner : List Node
  front : List Node
  back : List Node
  cut : Node.Cut inner front back
  reading : Document.Reading t (Frame.plug (outer ++ [frame]) inner)

namespace Slot

variable {t : Text} (s : Slot t)

def frames : List Frame := s.outer ++ [s.frame]

/-- The offset of the place. -/
def offset : Nat := Frame.start 0 s.frames + Node.widthOfAll s.front

/-- The element around the place, if its content is `content`. -/
def element (content : List Node) : Element :=
  ⟨Frame.start 0 s.outer + Node.widthOfAll s.frame.before, s.frame.tag, content, some s.frame.closer⟩

/-- The pieces in front of the place. -/
def opening : List Piece := Frame.opening s.frames ++ Node.piecesOfAll s.front

/-- The pieces behind the place. -/
def closing : List Piece := Node.piecesOfAll s.back ++ Frame.closing s.frames

theorem offset_eq_stop (content : List Node) :
    s.offset = (s.element content).startTagSpan.stop + Node.widthOfAll s.front := by
  rw [offset, frames, Frame.start_append]
  rfl

/-- The end tag of the element comes right after what follows the place. -/
theorem contentStop_element (new : List Node) :
    (s.element (s.front ++ new)).contentStop = s.offset + Node.widthOfAll new := by
  have hcontent : (s.element (s.front ++ new)).content = s.front ++ new := rfl
  rw [Element.contentStop, hcontent, Node.widthOfAll_append, s.offset_eq_stop, Nat.add_assoc]

/-- The elements around that of the slot, innermost first. -/
def around : List Element :=
  (Frame.elements 0 (Frame.plug [s.frame] s.inner) s.outer).reverse

/-- The start tags around the place are those of its element and the elements around that. -/
theorem tags_frames (content : List Node) :
    Frame.tags s.frames = (s.element content :: s.around).map Element.tag := by
  simp [Frame.tags, frames, element, around, Frame.map_tag_elements]

theorem sound_frames : ∀ f ∈ s.frames, f.Sound := (Frame.soundAll_plug.1 s.reading.sound).1

theorem soundAll_front : Node.SoundAll s.front :=
  (s.cut.soundAll (Frame.soundAll_plug.1 s.reading.sound).2).1

theorem soundAll_back : Node.SoundAll s.back :=
  (s.cut.soundAll (Frame.soundAll_plug.1 s.reading.sound).2).2

theorem text_eq : t = s.opening.flatMap Piece.text ++ s.closing.flatMap Piece.text := by
  have htext := s.reading.text_eq.symm
  rw [Node.textOfAll_eq, Frame.piecesOfAll_plug, List.flatMap_append, List.flatMap_append,
    s.cut.textOfAll_eq] at htext
  simpa [opening, closing, frames] using htext

theorem offset_eq : s.offset = Text.width (s.opening.flatMap Piece.text) := by
  rw [offset, Frame.start_eq, Node.widthOfAll_eq, Node.textOfAll_eq, opening, List.flatMap_append,
    Text.width_append, Nat.zero_add]

/-- Behind the place there is at least the end tag of the element. -/
theorem text_closing_ne_nil : (Frame.closing s.frames).flatMap Piece.text ≠ [] := by
  simp [frames, Frame.closing_append, Frame.closing, Piece.text, EndTag.text, EndTag.opener]

theorem offset_lt : s.offset < t.width := by
  have hwidth := congrArg Text.width s.text_eq
  have hpos : 0 < Text.width (s.closing.flatMap Piece.text) := by
    refine Nat.pos_of_ne_zero fun h => s.text_closing_ne_nil ?_
    have hnil := Text.width_eq_zero.1 h
    rw [closing, List.flatMap_append] at hnil
    exact (List.append_eq_nil_iff.1 hnil).2
  rw [Text.width_append, ← s.offset_eq] at hwidth
  omega

theorem insertAt_eq (w : Text) :
    t.insertAt s.offset w =
      s.opening.flatMap Piece.text ++ (w ++ s.closing.flatMap Piece.text) := by
  have hinsert := Text.insertAt_append (s.opening.flatMap Piece.text) w (s.closing.flatMap Piece.text)
  rwa [← s.text_eq, ← s.offset_eq] at hinsert

theorem isPlain_insertAt {w : Text} (hw : Text.IsPlain w) :
    Text.IsPlain (t.insertAt s.offset w) :=
  fun c hc => (Text.mem_insertAt hc).elim (s.reading.plain c) (hw c)

theorem isClosed_opening : ∀ p ∈ s.opening, p.IsClosed := by
  rw [opening, List.forall_mem_append]
  exact ⟨Frame.isClosed_opening s.sound_frames, Node.SoundAll.isClosed _ s.soundAll_front⟩

/-- In front of any markup the pieces before the place are what they were, and the pieces behind it
are what is read there. -/
theorem readAll_opening_closing :
    (∀ rest : Text, rest.head? = some '<' →
      Piece.readAll .content 0 (s.opening.flatMap Piece.text ++ rest) =
        s.opening ++ Piece.readAll .content 0 rest) ∧
    Piece.readAll .content 0 (s.closing.flatMap Piece.text) = s.closing := by
  refine s.cut.readAll ?_ s.isClosed_opening s.text_closing_ne_nil
  have hpieces := s.reading.pieces
  rw [Frame.piecesOfAll_plug] at hpieces
  have htext := s.text_eq
  rw [opening, closing] at htext
  rw [← htext]
  exact hpieces

/-! ## Slots of views -/

end Slot

variable {t : Text} {ns : List Node}

/-- A place between nodes in an element of a text without errors is a slot. -/
theorem Document.Reading.exists_slot (h : Reading t ns) {p : View} {e : Element}
    (hp : p ∈ (parse t).views) (hitem : p.item = .element e) (hending : e.tag.ending = .content)
    {pre post : List Node} (hcontent : e.content = pre ++ post) :
    ∃ s : Slot t, s.front = pre ∧ s.back = post ∧ s.inner = pre ++ post ∧ s.element s.inner = e ∧
      p.enclosing.map Enclosure.element = s.around := by
  rw [h.parse_eq] at hp
  obtain ⟨fs, before, m, after, hns, hshown, haround⟩ := Node.standsIn_viewsOfAll
    (by rw [hitem]; rfl) [] [] _ 0 0 [] rfl ns h.sound hp
  rw [hitem] at hshown
  obtain ⟨rfl, hstart⟩ := Item.ofNode?_eq_element hshown
  rw [List.nil_append] at hns
  have hsound := h.sound
  rw [hns, Frame.soundAll_plug, Node.soundAll_append, Node.soundAll_cons] at hsound
  obtain ⟨start, tag, content, endTag⟩ := e
  dsimp only at hcontent hending hstart
  subst hcontent
  cases endTag with
  | none =>
    have hself : tag.ending = .selfClosed := hsound.2.2.1.2.1
    rw [hending] at hself
    cases hself
  | some closer =>
    have hreading : Reading t (Frame.plug (fs ++ [⟨tag, before, after, closer⟩]) (pre ++ post)) := by
      rw [Frame.plug_append]
      rwa [hns] at h
    refine ⟨⟨fs, ⟨tag, before, after, closer⟩, _, pre, post, .between pre post, hreading⟩, rfl, rfl, rfl,
      ?_, ?_⟩
    · rw [Slot.element, hstart]
    · rw [haround]
      simp [Slot.around, Frame.plug, Element.node]

/-- Where a run stands for blank character data its text is blank. -/
theorem Document.Reading.isMarkupBlank (h : Reading t ns) {fs : List Frame} {pre post : List Node}
    {w : Text} (hns : ns = Frame.plug fs (pre ++ .run .blank w :: post)) :
    Text.isMarkupBlank w = true := by
  have hmem : Piece.run .blank w ∈ Piece.ofText t := by
    rw [h.pieces, hns, Frame.piecesOfAll_plug]
    simp [Node.piecesOfAll_append, Node.piecesOfAll, Node.pieces]
  obtain ⟨mode, c, rest, hnext⟩ := Piece.exists_readNext_of_mem_readAll hmem
  exact (Piece.blank_of_readNext hnext).1

/-- A place in blank character data in an element of a text without errors is a slot. -/
theorem Document.Reading.exists_slot_blank (h : Reading t ns) {v p : View}
    (hv : v ∈ (parse t).views) {start n : Nat} {w : Text}
    (hitem : v.item = .content .blank start w) (hparent : v.parent? = some p) (hn : n ≤ w.width) :
    ∃ s : Slot t, s.offset = start + n ∧ p.item = .element (s.element s.inner) ∧
      p.enclosing.map Enclosure.element = s.around := by
  rw [h.parse_eq] at hv
  obtain ⟨fs, pre, m, post, hns, hshown, haround⟩ := Node.standsIn_viewsOfAll
    (by rw [hitem]; rfl) [] [] _ 0 0 [] rfl ns h.sound hv
  rw [hitem] at hshown
  rw [List.nil_append] at hns
  obtain ⟨kind, hkind, rfl, hstart⟩ := Item.ofNode?_eq_content hshown
  obtain rfl : kind = .blank := by
    cases kind <;> cases hkind
    rfl
  have hblank := h.isMarkupBlank hns
  obtain ⟨front, back, hcut, hwidth⟩ := Node.Cut.exists_blank pre post hblank hn
  rw [View.parent?] at hparent
  cases hopen : v.enclosing with
  | nil =>
    rw [hopen] at hparent
    cases hparent
  | cons inmost rest =>
    rw [hopen] at hparent haround
    cases hparent
    -- There is an element around the place, so there is an innermost frame, and it is its own.
    rcases List.eq_nil_or_concat fs with rfl | ⟨outer, frame, hfs⟩
    · cases haround
    rw [List.concat_eq_append] at hfs
    subst hfs
    have hreading : Reading t (Frame.plug (outer ++ [frame]) (pre ++ .run .blank w :: post)) := hns ▸ h
    let s : Slot t := ⟨outer, frame, _, front, back, hcut, hreading⟩
    have hlast : Frame.elements 0 (pre ++ .run .blank w :: post) (outer ++ [frame]) =
        Frame.elements 0 (Frame.plug [frame] (pre ++ .run .blank w :: post)) outer ++
          [s.element s.inner] := Frame.elements_append _ _ _ _
    rw [hlast, List.reverse_append, List.reverse_singleton, List.map_nil, List.append_nil,
      List.map_cons, List.singleton_append, List.cons.injEq] at haround
    refine ⟨s, ?_, congrArg Item.element haround.1, haround.2⟩
    rw [← hstart, Slot.offset, hwidth, Slot.frames, Nat.add_assoc]

namespace Slot

variable {t : Text} (s : Slot t)

/-- The top of the document is the same whatever is in the element around the place. -/
theorem noText_plug (inner : List Node) :
    ∀ n ∈ Frame.plug s.frames inner, n.concrete.kind ≠ .inr (.run .text) := by
  have hnone := s.reading.noText
  unfold frames
  cases houter : s.outer ++ [s.frame] with
  | nil => simp at houter
  | cons f fs =>
    rw [houter] at hnone
    rw [Frame.plug, List.forall_mem_append, List.forall_mem_cons] at hnone ⊢
    exact ⟨hnone.1, nofun, hnone.2.2⟩

theorem countP_plug (inner : List Node) :
    (Frame.plug s.frames inner).countP Node.isElement = 1 := by
  have hone := s.reading.oneRoot
  unfold frames
  cases houter : s.outer ++ [s.frame] with
  | nil => simp at houter
  | cons f fs =>
    rw [houter] at hone
    simpa [Frame.plug, List.countP_append, List.countP_cons, Node.isElement] using hone

/-- **What is inserted is read in its place.** If some nodes have the pieces that are read from the
place on, and nest there, then they follow what was before the place. -/
theorem parse_insertAt {w : Text} (new : List Node) (hplain : Text.IsPlain w)
    (hangle : w.head? = some '<')
    (hread : Piece.readAll .content 0 (w ++ s.closing.flatMap Piece.text) =
      Node.piecesOfAll new ++ Frame.closing s.frames)
    (hnested : Node.NestedAll (Frame.tags s.frames) (.endTag s.frame.closer.name) new) :
    Document.parse (t.insertAt s.offset w) = .markup (Frame.plug s.frames (s.front ++ new)) := by
  refine Document.parse_eq_markup (s.isPlain_insertAt hplain) ?pieces ?nested
  case pieces =>
    have hhead : (w ++ s.closing.flatMap Piece.text).head? = some '<' := by
      cases w with
      | nil => cases hangle
      | cons c w => exact hangle
    rw [s.insertAt_eq, Piece.ofText, s.readAll_opening_closing.1 _ hhead, hread,
      Frame.piecesOfAll_plug, Node.piecesOfAll_append, opening]
    simp
  case nested =>
    refine Frame.nestedAll_plug s.sound_frames ?_
    rw [List.append_nil, frames, Frame.next_append]
    exact Node.nestedAll_append (Node.SoundAll.nestedAll _ _ _ s.soundAll_front) hnested

/-- **Only what is inserted has errors.** -/
theorem errors_insertAt {w : Text} {new : List Node}
    (h : Document.parse (t.insertAt s.offset w) = .markup (Frame.plug s.frames (s.front ++ new))) :
    (Document.parse (t.insertAt s.offset w)).errors =
      Node.errorsOfAll (t.insertAt s.offset w).width s.offset new := by
  have hwidth := Document.width_parse (t.insertAt s.offset w)
  rw [h] at hwidth ⊢
  rw [Document.errors, Document.topErrors_eq_errorsOfAll 0 0 (s.noText_plug _)
    (by rw [s.countP_plug]), Frame.errorsOfAll_plug s.sound_frames, Node.errorsOfAll_append,
    s.soundAll_front.errorsOfAll, List.nil_append, ← hwidth]
  rfl

/-- What is inserted has the element around the place for its parent. -/
theorem exists_view {w : Text} {m : Node} {post : List Node} {i : Item}
    (hparse : Document.parse (t.insertAt s.offset w) =
      .markup (Frame.plug s.frames (s.front ++ m :: post)))
    (hshown : Item.ofNode? (s.offset, m) = some i) :
    ∃ v ∈ (Document.parse (t.insertAt s.offset w)).views, v.item = i ∧
      v.parentElement? = some (s.element (s.front ++ m :: post)) := by
  rw [hparse]
  obtain ⟨v, hv, hitem, haround⟩ := Frame.exists_view [] []
    (Item.ofNodes 0 (Frame.plug s.frames (s.front ++ m :: post))) 0 s.frames hshown
  refine ⟨v, hv, hitem, ?_⟩
  have hhead := congrArg List.head? haround
  rw [frames, Frame.elements_append, List.reverse_append, List.head?_map] at hhead
  exact hhead

/-! ## Tags in a slot -/

end Slot

/-- The start tag of a name and nothing else. -/
def openingTag (x : Text) : Text := '<' :: (x ++ ['>'])

/-- The end tag of a name and nothing else. -/
def closingTag (x : Text) : Text := '<' :: '/' :: (x ++ ['>'])

/-- The start tag of a name and nothing else that is a whole element. -/
def emptyTag (x : Text) : Text := '<' :: (x ++ ['/', '>'])

theorem Written.text_startTag_nil (x : Text) : (startTag x [] .content).text = openingTag x := by
  simp [StartTag.text, startTag, TagEnding.text, openingTag]

theorem Written.text_emptyTag (x : Text) : (startTag x [] .selfClosed).text = emptyTag x := by
  simp [StartTag.text, startTag, TagEnding.text, emptyTag]

theorem Written.text_endTag (x : Text) : (endTag x).text = closingTag x := by
  simp [EndTag.text, EndTag.opener, endTag, closingTag]

theorem Written.sound_startTag_nil {x : Text} (hx : Text.isName x = true) {ending : TagEnding}
    (hending : ending ≠ .missing) : (startTag x [] ending).Sound :=
  ⟨⟨x, rfl, hx⟩, ⟨nofun, nofun, List.nodup_nil, nofun⟩, hending⟩

theorem Written.isPlain_startTag_nil {x : Text} (hx : Text.isName x = true) (ending : TagEnding) :
    Text.IsPlain (startTag x [] ending).text := by
  have hangle : Text.IsPlain ['<'] := by decide
  have hending : Text.IsPlain ending.text := by cases ending <;> decide
  rw [text_startTag]
  refine Text.isPlain_append.2 ⟨Text.isPlain_append.2 ⟨hangle, ?_⟩, hending⟩
  simpa using Text.isPlain_name hx

namespace Slot

variable {t : Text} (s : Slot t)

/-- A terminated comment stands between what was before and behind the place, and it is no error. -/
theorem insert_comment {body : Text} (hbody : (Written.comment body).WellFormed) :
    let comment := (Written.comment body).print
    let t' := t.insertAt s.offset comment
    Document.parse t' =
        .markup (Frame.plug s.frames (s.front ++ .run .comment comment :: s.back)) ∧
      (Document.parse t').errors = [] := by
  intro comment t'
  have hsound : Node.SoundAll (.run .comment comment :: s.back) :=
    ⟨Written.flawless_node _ hbody, s.soundAll_back⟩
  have hparse : Document.parse t' =
      .markup (Frame.plug s.frames (s.front ++ .run .comment comment :: s.back)) := by
    refine s.parse_insertAt (.run .comment comment :: s.back) (Written.isPlain_print _ hbody) rfl
      ?read (Node.SoundAll.nestedAll _ _ _ hsound)
    have hread := @Piece.readAll_comment _ (s.closing.flatMap Piece.text) hbody
    rw [s.readAll_opening_closing.2] at hread
    exact hread
  refine ⟨hparse, ?_⟩
  rw [s.errors_insertAt hparse, hsound.errorsOfAll]

/-- The element around the place has a name, which its end tag bears too. -/
theorem exists_name : ∃ n, s.frame.tag.name = some n ∧ s.frame.closer.name = some n ∧
    Text.isName n = true := by
  have hframe := s.sound_frames s.frame (by simp [frames])
  obtain ⟨n, hn, hname⟩ := hframe.tag.name
  exact ⟨n, hn, hframe.closer.name.trans hn, hname⟩

/-- The element around the place starts before it. -/
theorem start_element_lt (content : List Node) : (s.element content).start < s.offset := by
  have hframe := s.sound_frames s.frame (by simp [frames])
  have hpos := hframe.tag.width_pos
  rw [offset, frames, Frame.start_append]
  simp only [element, Frame.start]
  omega

variable {x : Text} (hx : Text.isName x = true)

include hx

/-- A start tag of a name and nothing else is read in front of what follows the place. -/
theorem readAll_startTag {ending : TagEnding} (hending : ending ≠ .missing) :
    Piece.readAll .content 0 ((Written.startTag x [] ending).text ++ s.closing.flatMap Piece.text) =
      .start (Written.startTag x [] ending) :: s.closing := by
  have hopening : Written.OpeningWellFormed x [] := ⟨hx, List.forall_mem_nil _, List.nodup_nil⟩
  have hread := Piece.readAll_opening hopening hending (s.closing.flatMap Piece.text)
  rw [s.readAll_opening_closing.2, ← List.append_assoc, ← Written.text_startTag] at hread
  exact hread

/-- A start tag opens an element that holds the rest of the content and has no end tag. It is the
only error, as long as the end tag behind it is not its own. -/
theorem insert_startTag (hname : s.frame.tag.name ≠ some x) :
    let tag := Written.startTag x [] .content
    let t' := t.insertAt s.offset (openingTag x)
    Document.parse t' = .markup (Frame.plug s.frames (s.front ++ [.element tag s.back none])) ∧
      (Document.parse t').errors = [⟨.unclosedElement x,
        unclosedSpan t'.width (s.offset + (openingTag x).width + Node.widthOfAll s.back)⟩] := by
  intro tag t'
  obtain ⟨n, hn, hcloser, -⟩ := s.exists_name
  have htext : tag.text = openingTag x := Written.text_startTag_nil x
  have hparse : Document.parse t' =
      .markup (Frame.plug s.frames (s.front ++ [.element tag s.back none])) := by
    refine s.parse_insertAt [.element tag s.back none] ?plain rfl ?read ?nested
    case plain => exact htext ▸ Written.isPlain_startTag_nil hx .content
    case read =>
      have hending : TagEnding.content ≠ .missing := by decide
      rw [← htext, s.readAll_startTag hx hending]
      simp [tag, Node.piecesOfAll, Node.pieces, closing]
    case nested =>
      have hopens : tag.opens = true := rfl
      refine ⟨?_, trivial⟩
      rw [Node.Nested, if_pos hopens, hcloser]
      refine ⟨⟨Option.some_ne_none n, ?_⟩, Node.SoundAll.nestedAll _ _ _ s.soundAll_back⟩
      rw [← hn]
      exact hname
  have hsound : tag.Sound := Written.sound_startTag_nil hx (by decide)
  refine ⟨hparse, ?_⟩
  rw [s.errors_insertAt hparse, Node.errorsOfAll, Node.errorsOfAll, Node.errors,
    StartTag.errors_eq_nil_iff.2 hsound, s.soundAll_back.errorsOfAll, htext]
  rfl

/-- A start tag that is a whole element stands between what was before and behind the place, and it
is no error. -/
theorem insert_emptyTag :
    let tag := Written.startTag x [] .selfClosed
    let t' := t.insertAt s.offset (emptyTag x)
    Document.parse t' =
        .markup (Frame.plug s.frames (s.front ++ .element tag [] none :: s.back)) ∧
      (Document.parse t').errors = [] := by
  intro tag t'
  have htext : tag.text = emptyTag x := Written.text_emptyTag x
  have hsound : Node.SoundAll (.element tag [] none :: s.back) :=
    ⟨⟨Written.sound_startTag_nil hx (by decide), rfl, rfl⟩, s.soundAll_back⟩
  have hparse : Document.parse t' =
      .markup (Frame.plug s.frames (s.front ++ .element tag [] none :: s.back)) := by
    refine s.parse_insertAt (.element tag [] none :: s.back) ?plain rfl ?read ?nested
    case plain => exact htext ▸ Written.isPlain_startTag_nil hx .selfClosed
    case read =>
      have hending : TagEnding.selfClosed ≠ .missing := by decide
      rw [← htext, s.readAll_startTag hx hending]
      rfl
    case nested => exact Node.SoundAll.nestedAll _ _ _ hsound
  refine ⟨hparse, ?_⟩
  rw [s.errors_insertAt hparse, hsound.errorsOfAll]

/-- An end tag that no element around the place bears the name of is left where it stands, and is
the only error. -/
theorem insert_endTag (hname : ∀ a ∈ Frame.tags s.frames, a.name ≠ some x) :
    let tag := Written.endTag x
    let t' := t.insertAt s.offset (closingTag x)
    Document.parse t' = .markup (Frame.plug s.frames (s.front ++ .strayEnd tag :: s.back)) ∧
      (Document.parse t').errors = [⟨.strayEndTag x, .ofSize s.offset (closingTag x).width⟩] := by
  intro tag t'
  have hparse : Document.parse t' =
      .markup (Frame.plug s.frames (s.front ++ .strayEnd tag :: s.back)) := by
    refine s.parse_insertAt (.strayEnd tag :: s.back) ?plain rfl ?read ?nested
    case plain =>
      have hall : Text.IsPlain ['<', '/'] ∧ Text.IsPlain ['>'] := by decide
      exact Text.isPlain_append.2 ⟨hall.1, Text.isPlain_append.2 ⟨Text.isPlain_name hx, hall.2⟩⟩
    case read =>
      have hread := Piece.readAll_endTag hx (s.closing.flatMap Piece.text)
      rw [s.readAll_opening_closing.2] at hread
      simpa [closingTag, Node.piecesOfAll, Node.pieces, closing] using hread
    case nested =>
      exact ⟨fun a ha => ⟨nofun, fun h => hname a ha h.symm⟩,
        Node.SoundAll.nestedAll _ _ _ s.soundAll_back⟩
  refine ⟨hparse, ?_⟩
  rw [s.errors_insertAt hparse, Node.errorsOfAll, Node.errors, s.soundAll_back.errorsOfAll,
    Written.text_endTag]
  rfl

/-- A start tag that is not terminated is an element of its own in front of another tag, and is the
only error. -/
theorem insert_name {rest : Text} (hrest : s.closing.flatMap Piece.text = '<' :: rest)
    (hmark : rest.head? ≠ some '!') (hquestion : rest.head? ≠ some '?') :
    let tag : StartTag := ⟨['<'], some x, [], .missing⟩
    let t' := t.insertAt s.offset ('<' :: x)
    Document.parse t' =
        .markup (Frame.plug s.frames (s.front ++ .element tag [] none :: s.back)) ∧
      (Document.parse t').errors =
        [⟨.unterminatedStartTag x, .empty (s.offset + tag.text.width)⟩] := by
  intro tag t'
  have hparse : Document.parse t' =
      .markup (Frame.plug s.frames (s.front ++ .element tag [] none :: s.back)) := by
    refine s.parse_insertAt (.element tag [] none :: s.back) ?plain rfl ?read ?nested
    case plain =>
      have hangle : Text.IsPlain ['<'] := by decide
      exact Text.isPlain_append.2 ⟨hangle, Text.isPlain_name hx⟩
    case read =>
      have hread := Piece.readAll_name hx rest
      rw [Piece.readAll_tag hmark hquestion, ← hrest, s.readAll_opening_closing.2] at hread
      simpa [Node.piecesOfAll, Node.pieces, closing] using hread
    case nested =>
      exact ⟨rfl, Node.SoundAll.nestedAll _ _ _ s.soundAll_back⟩
  refine ⟨hparse, ?_⟩
  rw [s.errors_insertAt hparse, Node.errorsOfAll, Node.errors, s.soundAll_back.errorsOfAll]
  simp [tag, StartTag.errors, TagItem.errors, Node.errorsOfAll, SyntaxError.when, hx,
    StartTag.opens]

end Slot

end ProjectFile.Markup
