import ProjectFile.Proofs.Markup.Alone
import ProjectFile.Proofs.Markup.Heads
import ProjectFile.Proofs.Markup.Items
import ProjectFile.Proofs.Markup.Words

/-!
Insertions into a start tag.

A `TagSlot` is a place among the items of a start tag of a text without errors. An attribute that is
inserted there, with the spaces that keep it apart from what is around it, leaves a text without
errors that has the same nodes but for the tag, which has the attribute in its place
(`TagSlot.reading_insert`); so all other elements are what they were (`TagSlot.heads_insert`).
-/

namespace ProjectFile.Markup

/-! ## Words beside a place -/

namespace TagItem

/-- The last word in front of a place is space unless what is put there has to be kept apart. -/
theorem exists_word_before {front : List TagItem} (hspaced : WellSpaced front)
    (hjunk : ∀ i ∈ front, i.isJunk = false) (hvalid : ∀ a ∈ attributes front, a.isValid = true)
    (opener : Text) {n : Text} (hn : n ≠ []) :
    ∃ init kind w, Role.words ((.startOpener, opener) :: (.startName, n) :: front.flatMap roles) =
      init ++ [(kind, w)] ∧ w ≠ [] ∧ endApart front = (kind != .space) := by
  rcases List.eq_nil_or_concat front with rfl | ⟨init, i, rfl⟩
  · refine ⟨Role.words [(.startOpener, opener)], .name, n, ?_, hn, rfl⟩
    have hword := Role.words_cons_of_ne_nil hn .startName []
    rw [List.flatMap_nil]
    exact (Role.words_append [(.startOpener, opener)] [(.startName, n)]).trans (by rw [hword]; rfl)
  · rw [List.concat_eq_append] at hspaced hjunk hvalid ⊢
    have hsplit (texts : List (Role × Text)) (role : Role) {w : Text} (hw : w ≠ [])
        (hroles : i.roles = texts ++ [(role, w)]) :
        ∃ ws, Role.words ((.startOpener, opener) :: (.startName, n) :: (init ++ [i]).flatMap roles) =
          ws ++ [(role.kind, w)] := by
      refine ⟨Role.words ((.startOpener, opener) :: (.startName, n) :: (init.flatMap roles ++ texts)), ?_⟩
      have hword := Role.words_cons_of_ne_nil hw role []
      have hlast : Role.words [(role, w)] = [(role.kind, w)] := hword
      rw [← hlast, ← Role.words_append]
      simp [hroles]
    cases i with
    | «attribute» a =>
      obtain ⟨name, assignment⟩ := a
      have hclosed := hvalid ⟨name, assignment⟩ (by simp [attributes, attribute?])
      rw [Attribute.isValid, Bool.and_eq_true] at hclosed
      cases assignment with
      | absent => cases hclosed.2
      | bare before => cases hclosed.2
      | value before after q =>
        have hquote : q.closed = true := hclosed.2
        obtain ⟨ws, hws⟩ := hsplit ((.attributeName, name) :: [(.attributeSpace, before),
          (.attributeEquals, ['=']), (.attributeSpace, after), (.openingQuote, [q.quote]),
          (.valueText, q.body)]) .closingQuote (List.cons_ne_nil q.quote []) (by
            simp [roles, Attribute.roles, hquote])
        exact ⟨ws, _, _, hws, List.cons_ne_nil _ _, by simp [endApart, isSpace, Role.kind]⟩
    | filler f =>
      cases f with
      | space w =>
        obtain ⟨hne, -⟩ := hspaced w (by simp)
        obtain ⟨ws, hws⟩ := hsplit [] .startSpace hne rfl
        exact ⟨ws, _, _, hws, hne, by simp [endApart, isSpace, Role.kind]⟩
      | junk w => cases hjunk _ List.mem_concat_self

/-- The first word behind a place is a name if what is put there has to be kept apart. -/
theorem exists_word_behind {back : List TagItem} (hspaced : WellSpaced back)
    (hjunk : ∀ i ∈ back, i.isJunk = false) (hvalid : ∀ a ∈ attributes back, a.isValid = true)
    {ending : TagEnding} (hending : ending ≠ .missing) :
    ∃ kind w rest, Role.words (back.flatMap roles ++ [ending.role]) = (kind, w) :: rest ∧
      w ≠ [] ∧ beginApart back = (kind == .name) := by
  cases back with
  | nil =>
    cases ending with
    | content => exact ⟨_, _, _, rfl, List.cons_ne_nil _ _, rfl⟩
    | selfClosed => exact ⟨_, _, _, rfl, List.cons_ne_nil _ _, rfl⟩
    | missing => exact absurd rfl hending
  | cons i back =>
    cases i with
    | «attribute» a =>
      have ha := hvalid a List.mem_cons_self
      rw [Attribute.isValid, Bool.and_eq_true] at ha
      obtain ⟨⟨c, w, hname, -⟩, -⟩ := Text.isName_spec ha.1
      have hne : a.name ≠ [] := hname ▸ List.cons_ne_nil c w
      exact ⟨_, _, _, Role.words_cons_of_ne_nil hne .attributeName _, hne, rfl⟩
    | filler f =>
      cases f with
      | space w =>
        obtain ⟨hne, -⟩ := hspaced w List.mem_cons_self
        exact ⟨_, _, _, Role.words_cons_of_ne_nil hne .startSpace _, hne, rfl⟩
      | junk w => cases hjunk _ List.mem_cons_self

end TagItem

/-! ## Slots in a tag -/

/-- A place among the items of a start tag of a text without errors. The nodes `pre` and `post` stand
beside the element of the tag, in the elements of `frames`, and `front` and `back` are the items
before and after the place. -/
structure TagSlot (t : Text) where
  frames : List Frame
  pre : List Node
  tag : StartTag
  content : List Node
  endTag : Option EndTag
  post : List Node
  front : List TagItem
  back : List TagItem
  cut : TagItem.Cut tag.items front back
  reading : Document.Reading t (Frame.plug frames (pre ++ .element tag content endTag :: post))

namespace TagSlot

variable {t : Text} (s : TagSlot t)

/-- The element of the tag. -/
def element : Element :=
  ⟨Frame.start 0 s.frames + Node.widthOfAll s.pre, s.tag, s.content, s.endTag⟩

/-- The offset of the place. -/
def offset : Nat := s.element.itemsStart + TagItem.widthOfAll s.front

/-- The pieces in front of the tag. -/
def opening : List Piece := Frame.opening s.frames ++ Node.piecesOfAll s.pre

/-- The pieces behind the tag. -/
def closing : List Piece :=
  Node.piecesOfAll s.content ++ (s.endTag.map Piece.stop).toList ++
    (Node.piecesOfAll s.post ++ Frame.closing s.frames)

/-- The nodes of the text, if the tag is `tag`. -/
def nodes (tag : StartTag) : List Node :=
  Frame.plug s.frames (s.pre ++ .element tag s.content s.endTag :: s.post)

/-- The tag with an attribute at the place. -/
def tagWith (a : Attribute) : StartTag :=
  { s.tag with items := s.front ++ (TagItem.apart s.front s.back a ++ s.back) }

/-- What has to be inserted for an attribute. -/
def textOf (a : Attribute) : Text := (TagItem.apart s.front s.back a).flatMap TagItem.text

theorem piecesOfAll_nodes (tag : StartTag) :
    Node.piecesOfAll (s.nodes tag) = s.opening ++ .start tag :: s.closing := by
  rw [nodes, Frame.piecesOfAll_plug]
  simp [opening, closing, Node.piecesOfAll_append, Node.piecesOfAll, Node.pieces]

theorem sound_frames : ∀ f ∈ s.frames, f.Sound := (Frame.soundAll_plug.1 s.reading.sound).1

theorem sound_inner : Node.SoundAll s.pre ∧ (Node.element s.tag s.content s.endTag).Sound ∧
    Node.SoundAll s.post := by
  have hinner := (Frame.soundAll_plug.1 s.reading.sound).2
  rwa [Node.soundAll_append, Node.soundAll_cons] at hinner

theorem sound_tag : s.tag.Sound := (Node.Sound.inside s.sound_inner.2.1).1

theorem isClosed_opening : ∀ p ∈ s.opening, p.IsClosed := by
  rw [opening, List.forall_mem_append]
  exact ⟨Frame.isClosed_opening s.sound_frames, Node.SoundAll.isClosed _ s.sound_inner.1⟩

theorem text_eq :
    t = s.opening.flatMap Piece.text ++ (s.tag.text ++ s.closing.flatMap Piece.text) := by
  have hnodes : Node.textOfAll (s.nodes s.tag) = t := s.reading.text_eq
  rw [Node.textOfAll_eq, s.piecesOfAll_nodes] at hnodes
  simpa [Piece.text] using hnodes.symm

/-- In front of another tag the pieces before the tag are what they were, and the pieces from the tag
on are what is read there. -/
theorem readAll_opening_closing :
    (∀ rest : Text, rest.head? = some '<' →
      Piece.readAll .content 0 (s.opening.flatMap Piece.text ++ rest) =
        s.opening ++ Piece.readAll .content 0 rest) ∧
    Piece.readAll .content 0 (s.tag.text ++ s.closing.flatMap Piece.text) =
      .start s.tag :: s.closing ∧
    Piece.readAll .content 0 (s.closing.flatMap Piece.text) = s.closing := by
  have hread : Piece.readAll .content 0 (s.opening.flatMap Piece.text ++
      (s.tag.text ++ s.closing.flatMap Piece.text)) = s.opening ++ (.start s.tag :: s.closing) := by
    have hpieces : Piece.readAll .content 0 t = Node.piecesOfAll (s.nodes s.tag) := s.reading.pieces
    rw [← s.text_eq, hpieces, s.piecesOfAll_nodes]
  obtain ⟨hmiddle, hfront⟩ := Piece.readAll_append hread s.isClosed_opening
  have htag : Piece.readAll .content 0
      ([Piece.start s.tag].flatMap Piece.text ++ s.closing.flatMap Piece.text) =
        [.start s.tag] ++ s.closing := by
    simpa [Piece.text] using hmiddle.symm
  have hclosed : ∀ p ∈ [Piece.start s.tag], p.IsClosed :=
    List.forall_mem_singleton.2 s.sound_tag.ending
  have hclosing := (Piece.readAll_append htag hclosed).1
  refine ⟨fun rest hrest => hfront rest ⟨fun hnil => ?_, fun c hc => ?_⟩, hmiddle.symm, hclosing.symm⟩
  · -- The tag is there, so the text behind the opening is not empty.
    have hpos := s.sound_tag.width_pos
    rw [(List.append_eq_nil_iff.1 hnil).1, Text.width_nil] at hpos
    exact absurd hpos (Nat.lt_irrefl 0)
  · rw [hrest] at hc
    cases hc
    exact .inl rfl

theorem opener_eq : s.tag.opener = ['<'] :=
  (s.sound_tag.readAll_tokens s.readAll_opening_closing.2.1).1

theorem offset_eq : s.offset = Text.width (s.opening.flatMap Piece.text ++
    (s.tag.opener ++ (s.tag.name.getD [] ++ s.front.flatMap TagItem.text))) := by
  rw [offset, Element.itemsStart, Element.name, element, Frame.start_eq, Node.widthOfAll_eq,
    Node.textOfAll_eq, opening, List.flatMap_append]
  simp only [Text.width_append, TagItem.widthOfAll]
  omega

/-- The element starts before the place, and its tag stops behind it. -/
theorem offset_bounds :
    s.element.start < s.offset ∧ s.offset ≤ s.element.startTagSpan.stop := by
  have hle := s.element.itemsStart_le_stop
  have hcut : TagItem.widthOfAll s.tag.items =
      TagItem.widthOfAll s.front + TagItem.widthOfAll s.back := by
    rw [TagItem.widthOfAll, s.cut.text_eq, Text.width_append]
    rfl
  have hitems : s.element.tag.items = s.tag.items := rfl
  have hopener : Text.width s.element.tag.opener = 1 := by
    have heq : s.element.tag.opener = ['<'] := s.opener_eq
    rw [heq]
    rfl
  rw [hitems, hcut] at hle
  rw [offset]
  constructor
  · rw [Element.itemsStart, hopener]
    omega
  · omega

/-- The end of the tag is behind the place. -/
theorem offset_lt : s.offset < t.width := by
  have htext := congrArg Text.width s.text_eq
  rw [StartTag.text, s.cut.text_eq] at htext
  have hending : s.tag.ending.text ≠ [] := by
    cases h : s.tag.ending with
    | content => exact List.cons_ne_nil _ _
    | selfClosed => exact List.cons_ne_nil _ _
    | missing => exact absurd h s.sound_tag.ending
  have hpos := Text.width_pos hending
  rw [s.offset_eq]
  simp only [Text.width_append] at htext ⊢
  omega

/-! ### The words beside the place -/

theorem wellSpaced : TagItem.WellSpaced s.tag.items :=
  s.sound_tag.wellSpaced s.readAll_opening_closing.2.1

/-- The words in front of the first of some items of the tag. -/
def wordsBefore (items : List TagItem) : List (LeafKind × Text) :=
  s.opening.flatMap Piece.words ++ Role.words ((.startOpener, s.tag.opener) ::
    (.startName, s.tag.name.getD []) :: items.flatMap TagItem.roles)

/-- The words behind the last of some items of the tag. -/
def wordsBehind (items : List TagItem) : List (LeafKind × Text) :=
  Role.words (items.flatMap TagItem.roles ++ [s.tag.ending.role]) ++ s.closing.flatMap Piece.words

theorem map_word_leaves {front back : List TagItem} (h : s.tag.items = front ++ back) :
    (Document.parse t).leaves.map Leaf.word = s.wordsBefore front ++ s.wordsBehind back := by
  have hwords := s.reading.map_word_leaves
  have hpieces := s.piecesOfAll_nodes s.tag
  rw [nodes] at hpieces
  rw [hpieces] at hwords
  have htag : (Piece.start s.tag).words =
      Role.words ((.startOpener, s.tag.opener) :: (.startName, s.tag.name.getD []) ::
        front.flatMap TagItem.roles) ++ Role.words (back.flatMap TagItem.roles ++ [s.tag.ending.role]) := by
    rw [← Role.words_append, Piece.words, StartTag.roles, h]
    simp
  rw [hwords, List.flatMap_append, List.flatMap_cons, htag, wordsBefore, wordsBehind]
  simp

theorem width_wordsBefore (items : List TagItem) :
    Text.width ((s.wordsBefore items).flatMap Prod.snd) =
      s.element.itemsStart + TagItem.widthOfAll items := by
  have hopening : (s.opening.flatMap Piece.words).flatMap Prod.snd = s.opening.flatMap Piece.text := by
    rw [List.flatMap_assoc]
    simp only [Piece.text_words]
  have hstart : s.element.start = Text.width (s.opening.flatMap Piece.text) := by
    rw [element, Frame.start_eq, Node.widthOfAll_eq, Node.textOfAll_eq, opening, List.flatMap_append,
      Text.width_append, Nat.zero_add]
  have hitems : s.element.itemsStart =
      s.element.start + s.tag.opener.width + Text.width (s.tag.name.getD []) := rfl
  rw [wordsBefore, List.flatMap_append, Role.text_words, hopening, hitems, hstart]
  simp only [List.flatMap_cons, TagItem.flatMap_rolesOfAll, Text.width_append, TagItem.widthOfAll]
  omega

/-- Where the place splits space there is one word on both sides of it. -/
theorem exists_word_around {pre post : List TagItem} {v w : Text} (hv : v ≠ [])
    (hitems : s.tag.items = pre ++ .filler (.space (v ++ w)) :: post)
    (hfront : s.front = pre ++ [.filler (.space v)]) :
    ∃ after, (Document.parse t).leaves.map Leaf.word =
        s.wordsBefore pre ++ (.space, v ++ w) :: after ∧
      s.offset = Text.width ((s.wordsBefore pre).flatMap Prod.snd) + v.width := by
  have hne : v ++ w ≠ [] := fun h => hv (List.append_eq_nil_iff.1 h).1
  have hword := Role.words_cons_of_ne_nil hne .startSpace
    (post.flatMap TagItem.roles ++ [s.tag.ending.role])
  refine ⟨Role.words (post.flatMap TagItem.roles ++ [s.tag.ending.role]) ++
    s.closing.flatMap Piece.words, ?_, ?_⟩
  · rw [s.map_word_leaves hitems, wordsBehind, List.flatMap_cons]
    exact congrArg (fun ws => s.wordsBefore pre ++ (ws ++ s.closing.flatMap Piece.words)) hword
  · have hspace : TagItem.widthOfAll [.filler (.space v)] = v.width := by
      simp [TagItem.widthOfAll, TagItem.text, Filler.text]
    rw [s.width_wordsBefore, offset, hfront, TagItem.widthOfAll_append, hspace, Nat.add_assoc]

/-- In front of the place there is a word that the byte before it is in, and it is space unless an
attribute has to be kept apart from it. -/
theorem exists_word_before : ∃ before kind w after,
    (Document.parse t).leaves.map Leaf.word = before ++ (kind, w) :: after ∧
      Text.width (before.flatMap Prod.snd) < s.offset ∧
      s.offset ≤ Text.width (before.flatMap Prod.snd) + w.width ∧
      TagItem.endApart s.front = (kind != .space) := by
  rcases s.cut.eq_or_exists with hitems | ⟨pre, post, v, w, hv, hw, hitems, hfront, -⟩
  · have hvalid := s.sound_tag.items.valid
    rw [s.cut.attributes_eq, List.forall_mem_append] at hvalid
    obtain ⟨n, hn, hname⟩ := s.sound_tag.name
    have hne : s.tag.name.getD [] ≠ [] := by
      obtain ⟨⟨c, w, rfl, -⟩, -⟩ := Text.isName_spec hname
      rw [hn]
      exact List.cons_ne_nil c w
    obtain ⟨init, kind, w, hword, hw, hapart⟩ := TagItem.exists_word_before
      (s.cut.wellSpaced s.wellSpaced).1 (s.cut.notJunk s.sound_tag.items.notJunk).1 hvalid.1
      s.tag.opener hne
    have hwidth := s.width_wordsBefore s.front
    have hoffset : s.offset = s.element.itemsStart + TagItem.widthOfAll s.front := rfl
    have hpos := Text.width_pos hw
    rw [wordsBefore, hword, ← List.append_assoc, List.flatMap_append, Text.width_append,
      List.flatMap_singleton] at hwidth
    dsimp only at hwidth
    refine ⟨s.opening.flatMap Piece.words ++ init, kind, w, s.wordsBehind s.back, ?_, ?_, ?_, hapart⟩
    · rw [s.map_word_leaves hitems, wordsBefore, hword]
      simp
    · omega
    · omega
  · obtain ⟨after, hwords, hoffset⟩ := s.exists_word_around hv hitems hfront
    have hpos := Text.width_pos hv
    refine ⟨_, _, _, after, hwords, by omega, ?_, ?_⟩
    · rw [Text.width_append]
      omega
    · simp [hfront, TagItem.endApart, TagItem.isSpace]

/-- Behind the place there is a word that the byte after it is in, and it is a name if an attribute
has to be kept apart from it. -/
theorem exists_word_behind : ∃ before kind w after,
    (Document.parse t).leaves.map Leaf.word = before ++ (kind, w) :: after ∧
      Text.width (before.flatMap Prod.snd) ≤ s.offset ∧
      s.offset < Text.width (before.flatMap Prod.snd) + w.width ∧
      TagItem.beginApart s.back = (kind == .name) := by
  rcases s.cut.eq_or_exists with hitems | ⟨pre, post, v, w, hv, hw, hitems, hfront, hback⟩
  · have hvalid := s.sound_tag.items.valid
    rw [s.cut.attributes_eq, List.forall_mem_append] at hvalid
    obtain ⟨kind, w, rest, hword, hw, hapart⟩ := TagItem.exists_word_behind
      (s.cut.wellSpaced s.wellSpaced).2 (s.cut.notJunk s.sound_tag.items.notJunk).2 hvalid.2
      s.sound_tag.ending
    have hwidth := s.width_wordsBefore s.front
    have hoffset : s.offset = s.element.itemsStart + TagItem.widthOfAll s.front := rfl
    have hpos := Text.width_pos hw
    refine ⟨s.wordsBefore s.front, kind, w, rest ++ s.closing.flatMap Piece.words, ?_, ?_, ?_, hapart⟩
    · rw [s.map_word_leaves hitems, wordsBehind, hword]
      rfl
    · omega
    · omega
  · obtain ⟨after, hwords, hoffset⟩ := s.exists_word_around hv hitems hfront
    have hpos := Text.width_pos hw
    refine ⟨_, _, _, after, hwords, by omega, ?_, ?_⟩
    · rw [Text.width_append]
      omega
    · simp [hback, TagItem.beginApart, TagItem.attribute?]

/-! ### An attribute at the place -/

variable {a : WrittenAttribute} (ha : a.WellFormed)
  (hnew : a.name ∉ (TagItem.attributes s.tag.items).map Attribute.name)

/-- A text with an attribute at the place has the tag with the attribute. -/
theorem insertAt_eq (a : Attribute) : t.insertAt s.offset (s.textOf a) =
    s.opening.flatMap Piece.text ++ ((s.tagWith a).text ++ s.closing.flatMap Piece.text) := by
  have hinsert := Text.insertAt_append (s.opening.flatMap Piece.text ++
    (s.tag.opener ++ (s.tag.name.getD [] ++ s.front.flatMap TagItem.text))) (s.textOf a)
    (s.back.flatMap TagItem.text ++ (s.tag.ending.text ++ s.closing.flatMap Piece.text))
  have htext := s.text_eq
  rw [StartTag.text, s.cut.text_eq] at htext
  rw [← s.offset_eq] at hinsert
  calc t.insertAt s.offset (s.textOf a)
      = Text.insertAt (s.opening.flatMap Piece.text ++ (s.tag.opener ++ (s.tag.name.getD [] ++
          s.front.flatMap TagItem.text)) ++ (s.back.flatMap TagItem.text ++ (s.tag.ending.text ++
            s.closing.flatMap Piece.text))) s.offset (s.textOf a) := by
        congr 1
        simpa using htext
    _ = _ := by
        rw [hinsert]
        simp [tagWith, StartTag.text, textOf]

theorem width_tagWith (a : Attribute) :
    (s.tagWith a).text.width = s.tag.text.width + (s.textOf a).width := by
  have hitems : Text.width (s.tag.items.flatMap TagItem.text) =
      Text.width (s.front.flatMap TagItem.text) + Text.width (s.back.flatMap TagItem.text) := by
    rw [s.cut.text_eq, Text.width_append]
  simp only [tagWith, textOf, StartTag.text, List.flatMap_append, Text.width_append, hitems]
  omega

/-- The nodes beside the element of the tag, and the element. -/
def inner (tag : StartTag) : List Node := s.pre ++ .element tag s.content s.endTag :: s.post

theorem widthOfAll_inner (a : Attribute) :
    Node.widthOfAll (s.inner (s.tagWith a)) = Node.widthOfAll (s.inner s.tag) + (s.textOf a).width := by
  simp only [inner, Node.widthOfAll_append, Node.widthOfAll, Node.width, s.width_tagWith]
  omega

theorem soundAll_content : Node.SoundAll s.content := (Node.Sound.inside s.sound_inner.2.1).2

/-- Among the nodes beside the element only its own tag changes. -/
theorem headsOfAll_inner (a : Attribute) (parent : Option Nat)
    (hparent : parent.map (Text.moved s.offset (s.textOf a).width) = parent) :
    let move := Head.move (Text.moved s.offset (s.textOf a).width)
    ∃ before after : List Head,
      Node.headsOfAll parent (Frame.start 0 s.frames) (s.inner s.tag) =
        before ++ ⟨s.element.start, s.tag, s.endTag, parent⟩ :: after ∧
      Node.headsOfAll parent (Frame.start 0 s.frames) (s.inner (s.tagWith a)) =
        before.map move ++ ⟨s.element.start, s.tagWith a, s.endTag, parent⟩ :: after.map move := by
  intro move
  let place := Text.moved s.offset (s.textOf a).width
  let origin := Frame.start 0 s.frames
  let here := s.element.start
  obtain ⟨hpre, -, hpost⟩ := s.sound_inner
  obtain ⟨hlt, hle⟩ := s.offset_bounds
  have hhere : here = origin + Node.widthOfAll s.pre := rfl
  have hstop : s.element.startTagSpan.stop = here + s.tag.text.width := rfl
  have hgrown := s.width_tagWith a
  have hbehind {n : Nat} (h : s.offset ≤ n) : place n = n + (s.textOf a).width :=
    Text.moved_of_le h _
  have hfixed : place here = here := Text.moved_of_lt hlt _
  -- What is before the element starts before the place; its content and what is behind it do not.
  have hbefore := Node.headsOfAll_move place parent origin origin s.pre hpre
    fun d hd => Text.moved_of_lt (by omega) _
  have hcontent := Node.headsOfAll_move place (some here) (here + s.tag.text.width)
    (here + (s.tagWith a).text.width) s.content s.soundAll_content fun d hd => by
      rw [hbehind (by omega)]
      omega
  have hafter := Node.headsOfAll_move place parent
    (here + (Node.element s.tag s.content s.endTag).width)
    (here + (Node.element (s.tagWith a) s.content s.endTag).width) s.post hpost fun d hd => by
      simp only [Node.width]
      rw [hbehind (by omega)]
      omega
  rw [hparent] at hbefore hafter
  rw [Option.map_some, hfixed] at hcontent
  refine ⟨Node.headsOfAll parent origin s.pre,
    Node.headsOfAll (some here) (here + s.tag.text.width) s.content ++
      Node.headsOfAll parent (here + (Node.element s.tag s.content s.endTag).width) s.post, ?_, ?_⟩
  · rw [inner, Node.headsOfAll_append, Node.headsOfAll, Node.heads]
    rfl
  · rw [inner, Node.headsOfAll_append, Node.headsOfAll, Node.heads, ← hhere, hcontent, hafter,
      List.map_append, ← hbefore]
    rfl

include ha

theorem isPlain_textOf : Text.IsPlain (s.textOf a.attr) := by
  have hspacing (asked : Bool) : Text.IsPlain ((TagItem.spacing asked).flatMap TagItem.text) := by
    cases asked <;> decide
  have hprint : a.print = ' ' :: a.attr.text := by
    simp [WrittenAttribute.print, WrittenAttribute.attr, Attribute.text, Assignment.text, Quoted.text]
  have hattr : Text.IsPlain a.attr.text := by
    have hall := WrittenAttribute.isPlain_print ha
    rw [hprint] at hall
    exact fun c hc => hall c (List.mem_cons_of_mem _ hc)
  rw [textOf, TagItem.apart, List.flatMap_append, List.flatMap_cons]
  exact Text.isPlain_append.2 ⟨hspacing _, Text.isPlain_append.2 ⟨hattr, hspacing _⟩⟩

include hnew

theorem sound_tagWith : (s.tagWith a.attr).Sound := by
  obtain ⟨hname, hitems, hending⟩ := s.sound_tag
  refine ⟨hname, hitems.insert s.cut ?_ hnew, hending⟩
  rw [Attribute.isValid, Bool.and_eq_true]
  exact ⟨ha.name, rfl⟩

/-- The tag with the attribute is read in front of what follows the tag. -/
theorem readAll_tagWith :
    Piece.readAll .content 0 ((s.tagWith a.attr).text ++ s.closing.flatMap Piece.text) =
      .start (s.tagWith a.attr) :: s.closing := by
  obtain ⟨-, htag, hclosing⟩ := s.readAll_opening_closing
  obtain ⟨hopener, htokens⟩ := s.sound_tag.readAll_tokens htag
  have hinsert := s.cut.readAll_insert htokens s.sound_tag.items ha
  have hread := (s.sound_tagWith ha hnew).readAll_text hopener hinsert
  rwa [hclosing] at hread

theorem soundAll_nodes : Node.SoundAll (s.nodes (s.tagWith a.attr)) := by
  have htag := s.sound_tagWith ha hnew
  obtain ⟨hpre, helement, hpost⟩ := s.sound_inner
  rw [nodes, Frame.soundAll_plug, Node.soundAll_append, Node.soundAll_cons]
  refine ⟨s.sound_frames, hpre, ?_, hpost⟩
  cases hend : s.endTag with
  | none =>
    rw [hend] at helement
    exact ⟨htag, helement.2.1, helement.2.2⟩
  | some closer =>
    rw [hend] at helement
    obtain ⟨-, hopens, hfits, hcontent⟩ := helement
    exact ⟨htag, hopens, ⟨hfits.name, hfits.clean, hfits.closed⟩, hcontent⟩

/-- **An attribute that is inserted in a start tag is read there**, and there are no errors. -/
theorem reading_insert : Document.Reading (t.insertAt s.offset (s.textOf a.attr))
    (s.nodes (s.tagWith a.attr)) where
  plain := fun c hc => (Text.mem_insertAt hc).elim (s.reading.plain c) (s.isPlain_textOf ha c)
  pieces := by
    have hangle : ((s.tagWith a.attr).text ++ s.closing.flatMap Piece.text).head? = some '<' := by
      have hopener : (s.tagWith a.attr).opener = ['<'] := s.opener_eq
      rw [StartTag.text, hopener]
      rfl
    rw [s.insertAt_eq, Piece.ofText, s.readAll_opening_closing.1 _ hangle,
      s.readAll_tagWith ha hnew, piecesOfAll_nodes]
  sound := s.soundAll_nodes ha hnew
  noText := by
    have hnone := s.reading.noText
    unfold nodes
    cases hframes : s.frames with
    | nil =>
      rw [hframes, Frame.plug, List.forall_mem_append, List.forall_mem_cons] at hnone
      rw [Frame.plug, List.forall_mem_append, List.forall_mem_cons]
      exact ⟨hnone.1, by rintro ⟨⟩, hnone.2.2⟩
    | cons f fs =>
      rw [hframes, Frame.plug, List.forall_mem_append, List.forall_mem_cons] at hnone
      rw [Frame.plug, List.forall_mem_append, List.forall_mem_cons]
      exact ⟨hnone.1, by rintro ⟨⟩, hnone.2.2⟩
  oneRoot := by
    have hone := s.reading.oneRoot
    unfold nodes
    cases hframes : s.frames with
    | nil =>
      rw [hframes] at hone
      simpa [Frame.plug, List.countP_append, List.countP_cons, Node.isElement] using hone
    | cons f fs =>
      rw [hframes] at hone
      simpa [Frame.plug, List.countP_append, List.countP_cons, Node.isElement] using hone

/-- **All other elements are what they were**, moved if they start behind the place. -/
theorem heads_insert :
    let move := Head.move (Text.moved s.offset (s.textOf a.attr).width)
    ∃ before parent after,
      (Document.parse t).heads = before ++ ⟨s.element.start, s.tag, s.endTag, parent⟩ :: after ∧
      (Document.parse (t.insertAt s.offset (s.textOf a.attr))).heads = before.map move ++
        ⟨s.element.start, s.tagWith a.attr, s.endTag, parent⟩ :: after.map move := by
  intro move
  let parent := Frame.parent none 0 s.frames
  obtain ⟨hlt, -⟩ := s.offset_bounds
  have hstart : Frame.start 0 s.frames ≤ s.element.start := Nat.le_add_right _ _
  have hstop : s.offset ≤ Frame.start 0 s.frames + Node.widthOfAll (s.inner s.tag) := by
    have hle := s.offset_bounds.2
    have htag : s.element.startTagSpan.stop =
        Frame.start 0 s.frames + Node.widthOfAll s.pre + s.tag.text.width := rfl
    simp only [inner, Node.widthOfAll_append, Node.widthOfAll, Node.width]
    omega
  obtain ⟨before, after, hold, hgrown⟩ := Frame.exists_heads s.sound_frames s.offset
    (s.widthOfAll_inner a.attr) none 0 rfl (by omega) hstop
  obtain ⟨before', after', hold', hgrown'⟩ := s.headsOfAll_inner a.attr parent
    (Frame.map_parent s.sound_frames _ none 0 rfl (by omega))
  refine ⟨before ++ before', parent, after' ++ after, ?_, ?_⟩
  · have hparse : Document.parse t = .markup (Frame.plug s.frames (s.inner s.tag)) :=
      s.reading.parse_eq
    rw [hparse, Document.heads_markup, hold, hold']
    simp
  · have hparse : Document.parse (t.insertAt s.offset (s.textOf a.attr)) =
        .markup (Frame.plug s.frames (s.inner (s.tagWith a.attr))) :=
      (s.reading_insert ha hnew).parse_eq
    rw [hparse, Document.heads_markup, hgrown, hgrown']
    simp [move]

end TagSlot

/-- A place between the attributes of an element of a text without errors is a slot in its tag. -/
theorem Document.Reading.exists_tagSlot {t : Text} {ns : List Node} (h : Reading t ns) {e : Element}
    (he : e ∈ (parse t).elements) {offset : Nat} (hgap : e.HasGap offset) :
    ∃ s : TagSlot t, s.offset = offset ∧ s.element = e := by
  obtain ⟨frames, pre, post, rfl, hstart⟩ := h.exists_frames he
  obtain ⟨start, tag, content, endTag⟩ := e
  obtain ⟨front, gap, back, hitems, hnone, hfirst, hlast⟩ := hgap
  dsimp only at hitems hstart
  -- Anywhere in the tag will do to see that there is nothing but space in the gap.
  let whole : TagSlot t :=
    ⟨frames, pre, tag, content, endTag, post, [], tag.items, .between [] tag.items, h⟩
  have hspaced := whole.wellSpaced
  have hjunk := whole.sound_tag.items.notJunk
  have hspace : ∀ i ∈ gap, ∃ w, i = .filler (.space w) ∧ Text.isMarkupBlank w = true := by
    intro i hi
    have hmem : i ∈ tag.items := by simp [hitems, hi]
    match i with
    | .attribute a => exact absurd (hnone _ hi) nofun
    | .filler (.space w) => exact ⟨w, rfl, (hspaced w hmem).2⟩
    | .filler (.junk w) => exact absurd (hjunk _ hmem) nofun
  obtain ⟨front', back', hcut, hwidth⟩ := TagItem.Cut.exists_gap front back hspace
    (n := offset - (Element.itemsStart ⟨start, tag, content, endTag⟩ + TagItem.widthOfAll front))
    (by omega)
  rw [← hitems] at hcut
  refine ⟨⟨frames, pre, tag, content, endTag, post, front', back', hcut, h⟩, ?_, ?_⟩
  · have hstart' : Element.itemsStart ⟨Frame.start 0 frames + Node.widthOfAll pre, tag, content,
        endTag⟩ = Element.itemsStart ⟨start, tag, content, endTag⟩ := by rw [hstart]
    rw [TagSlot.offset, TagSlot.element, hwidth, hstart']
    omega
  · rw [TagSlot.element, ← hstart]

end ProjectFile.Markup
