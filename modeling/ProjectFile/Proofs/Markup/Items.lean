import ProjectFile.Proofs.Markup.Slot
import ProjectFile.Proofs.Markup.TagTokens

/-!
Attributes put in between the items of a start tag.

A place among items is between two of them or splits space (`TagItem.Cut`), and there the tokens of
the tag fall into those before the place and those behind it (`TagItem.Cut.readAll`). An attribute
that is put there touches its neighbours unless a space is put beside it where `TagItem.endApart` or
`TagItem.beginApart` asks for one; with these it is read as one more item
(`TagItem.Cut.readAll_insert`), and there is space in front of it, and space or the end of the tag
behind it (`TagItem.exists_space_before`, `TagItem.exists_space_behind`).
-/

namespace ProjectFile.Markup

/-! ## Space in a tag -/

/-- Space is read up to a character that is none, and holds nothing else. -/
theorem TagToken.space_of_readAll {w rest : Text} {ts : List TagToken}
    (h : readAll 0 (w ++ rest) = .space w :: ts) :
    Text.isMarkupBlank w = true ∧ (∀ c ∈ rest.head?, Text.isMarkupSpace c = false) ∧
      ts = readAll 0 rest := by
  have hfirst : readAll 0 ((TagToken.space w).text ++ rest) = .space w :: ts := h
  obtain ⟨c, word, hword, -, hread, hrest⟩ := readAll_eq_cons rfl hfirst
  obtain rfl : w = c :: word := hword
  unfold read at hread
  split at hread
  · cases hread
  split at hread
  · cases hread
  split at hread
  · split at hread <;> cases hread
  split at hread
  · cases hread
  split at hread
  · next hspace =>
    have htake := (List.cons.inj (space.inj hread)).2
    have hlength : Text.lengthWhile Text.isMarkupSpace (word ++ rest) = word.length := by
      rw [Text.take_lengthWhile] at htake
      rw [Text.lengthWhile_eq, htake]
    obtain ⟨hall, hend⟩ := Text.lengthWhile_append_iff.1 hlength
    refine ⟨?_, hend, hrest⟩
    rw [Text.isMarkupBlank, List.all_eq_true]
    exact List.forall_mem_cons.2 ⟨hspace, hall⟩
  · cases hread

/-- The space among tokens that are read holds nothing else. -/
theorem TagToken.isMarkupBlank_of_mem {ts us : List TagToken} {rest w : Text}
    (hread : readAll 0 (ts.flatMap text ++ rest) = ts ++ us)
    (hlast : ∀ token ∈ ts, token.isLast = false) (hw : .space w ∈ ts) :
    Text.isMarkupBlank w = true := by
  obtain ⟨before, after, rfl⟩ := List.append_of_mem hw
  rw [List.forall_mem_append] at hlast
  rw [List.flatMap_append, List.append_assoc, List.append_assoc] at hread
  have hmiddle := (readAll_replace hread hlast.1).1
  rw [List.flatMap_cons, List.append_assoc] at hmiddle
  exact (space_of_readAll hmiddle.symm).1

/-- Whether the space among items is markup space and is not empty. -/
def TagItem.WellSpaced (items : List TagItem) : Prop :=
  ∀ w, .filler (.space w) ∈ items → w ≠ [] ∧ Text.isMarkupBlank w = true

/-- A start tag without errors that is read is well spaced. -/
theorem StartTag.Sound.wellSpaced {tag : StartTag} (h : tag.Sound) {rest : Text} {qs : List Piece}
    (hread : Piece.readAll .content 0 (tag.text ++ rest) = .start tag :: qs) :
    TagItem.WellSpaced tag.items := by
  intro w hw
  obtain ⟨-, htokens⟩ := h.readAll_tokens hread
  have hmem : .space w ∈ tag.tokens :=
    List.mem_cons_of_mem _ (List.mem_flatMap.2 ⟨_, hw, List.mem_singleton_self _⟩)
  refine ⟨?_, TagToken.isMarkupBlank_of_mem htokens StartTag.isLast_of_mem_tokens hmem⟩
  apply TagToken.text_ne_nil_of_mem_readAll _ (.space w)
  rw [htokens]
  exact List.mem_append_left _ hmem

/-! ## Cuts -/

namespace TagItem

/-- How items fall into those before a place and those after it: the place is between two items, or
it splits space. -/
inductive Cut : List TagItem → List TagItem → List TagItem → Prop
  | between (front back : List TagItem) : Cut (front ++ back) front back
  | space (pre post : List TagItem) {v w : Text} (hv : v ≠ []) (hw : w ≠ []) :
    Cut (pre ++ .filler (.space (v ++ w)) :: post) (pre ++ [.filler (.space v)])
      (.filler (.space w) :: post)

/-- Space may be cut at any offset in it or at its ends. -/
theorem Cut.exists_gap (pre post : List TagItem) {gap : List TagItem}
    (hgap : ∀ i ∈ gap, ∃ w, i = .filler (.space w) ∧ Text.isMarkupBlank w = true) {n : Nat}
    (hn : n ≤ widthOfAll gap) : ∃ front back, Cut (pre ++ (gap ++ post)) front back ∧
      widthOfAll front = widthOfAll pre + n := by
  induction gap generalizing pre n with
  | nil =>
    obtain rfl : n = 0 := Nat.le_zero.1 hn
    exact ⟨pre, post, .between pre post, rfl⟩
  | cons i gap ih =>
    rw [List.forall_mem_cons] at hgap
    obtain ⟨⟨w, rfl, hblank⟩, hgap⟩ := hgap
    have hitem : (TagItem.filler (.space w)).text = w := rfl
    have hlength := Text.width_eq_length_of_isMarkupBlank hblank
    rw [widthOfAll_cons, hitem] at hn
    rcases Nat.eq_zero_or_pos n with rfl | hpos
    · exact ⟨pre, _, .between _ _, rfl⟩
    rcases Nat.lt_or_ge n w.width with hlt | hge
    · have htake : Text.isMarkupBlank (w.take n) = true :=
        List.all_eq_true.2 fun c hc => List.all_eq_true.1 hblank c (List.mem_of_mem_take hc)
      have hcut := Cut.space pre (gap ++ post) (v := w.take n) (w := w.drop n)
        (Piece.take_ne_nil hpos fun h => by subst h; exact absurd hlt (Nat.not_lt_zero n))
        (fun h => by have hdrop := List.drop_eq_nil_iff.1 h; omega)
      rw [List.take_append_drop] at hcut
      refine ⟨_, _, hcut, ?_⟩
      have hfront : (TagItem.filler (.space (w.take n))).text = w.take n := rfl
      rw [widthOfAll_append, widthOfAll_cons, hfront,
        Text.width_eq_length_of_isMarkupBlank htake, List.length_take]
      have hnil : widthOfAll [] = 0 := rfl
      omega
    · obtain ⟨front, back, hcut, hwidth⟩ := ih (pre ++ [.filler (.space w)]) hgap
        (n := n - w.width) (by omega)
      rw [List.append_assoc] at hcut
      refine ⟨front, back, hcut, ?_⟩
      have hnil : widthOfAll [] = 0 := rfl
      rw [hwidth, widthOfAll_append, widthOfAll_cons, hitem]
      omega

variable {items front back : List TagItem}

theorem Cut.eq_or_exists (h : Cut items front back) : items = front ++ back ∨
    ∃ pre post v w, v ≠ [] ∧ w ≠ [] ∧ items = pre ++ .filler (.space (v ++ w)) :: post ∧
      front = pre ++ [.filler (.space v)] ∧ back = .filler (.space w) :: post := by
  cases h with
  | between => exact .inl rfl
  | space pre post hv hw => exact .inr ⟨pre, post, _, _, hv, hw, rfl, rfl, rfl⟩

theorem Cut.text_eq (h : Cut items front back) :
    items.flatMap text = front.flatMap text ++ back.flatMap text := by
  cases h with
  | between => exact List.flatMap_append
  | space => simp [text, Filler.text]

theorem Cut.attributes_eq (h : Cut items front back) :
    attributes items = attributes front ++ attributes back := by
  cases h with
  | between => exact List.filterMap_append
  | space pre post =>
    rw [attributes, attributes, List.filterMap_append, List.filterMap_append, List.append_assoc]
    rfl

/-- Where items are cut the attributes fall into those that end before the place and those that start
behind it. -/
theorem Cut.exists_placed (h : Cut items front back) (start : Nat) : ∃ before behind,
    (placed start items).filterMap PlacedAttribute.ofItem? = before ++ behind ∧
      before.map PlacedAttribute.attr = attributes front ∧
      behind.map PlacedAttribute.attr = attributes back ∧
      (∀ a ∈ before, a.span.stop ≤ start + widthOfAll front) ∧
      ∀ a ∈ behind, start + widthOfAll front ≤ a.span.start := by
  cases h with
  | between =>
    rw [placed_append, List.filterMap_append]
    exact ⟨_, _, rfl, map_attr_placed _ _, map_attr_placed _ _,
      fun a ha => (span_of_mem_attributes ha).2, fun a ha => (span_of_mem_attributes ha).1⟩
  | @space pre post v w hv hw =>
    have hwidth : widthOfAll [.filler (.space v)] ≤ widthOfAll [.filler (.space (v ++ w))] := by
      simp [widthOfAll, text, Filler.text]
    have hnone : ∀ i ∈ [TagItem.filler (.space (v ++ w))], i.attribute? = none :=
      List.forall_mem_singleton.2 rfl
    rw [List.append_cons, placed_append, List.filterMap_append, placed_append, List.filterMap_append,
      filterMap_placed_eq_nil hnone, List.append_nil, widthOfAll_append, widthOfAll_append]
    refine ⟨_, _, rfl, ?_, map_attr_placed _ _, fun a ha => ?_, fun a ha => ?_⟩
    · rw [map_attr_placed, attributes, attributes, List.filterMap_append]
      exact (List.append_nil _).symm
    · have hspan := (span_of_mem_attributes ha).2
      omega
    · have hspan := (span_of_mem_attributes ha).1
      omega

theorem Cut.notJunk (h : Cut items front back) (hitems : ∀ i ∈ items, i.isJunk = false) :
    (∀ i ∈ front, i.isJunk = false) ∧ ∀ i ∈ back, i.isJunk = false := by
  cases h with
  | between => exact List.forall_mem_append.1 hitems
  | space =>
    rw [List.forall_mem_append, List.forall_mem_cons] at hitems
    rw [List.forall_mem_append, List.forall_mem_singleton, List.forall_mem_cons]
    exact ⟨⟨hitems.1, rfl⟩, rfl, hitems.2.2⟩

theorem Cut.wellSpaced (h : Cut items front back) (hitems : WellSpaced items) :
    WellSpaced front ∧ WellSpaced back := by
  cases h with
  | between =>
    exact ⟨fun w hw => hitems w (List.mem_append_left _ hw),
      fun w hw => hitems w (List.mem_append_right _ hw)⟩
  | @space pre post v w hv hw =>
    obtain ⟨-, hblank⟩ := hitems (v ++ w) (by simp)
    rw [Text.isMarkupBlank, List.all_append, Bool.and_eq_true] at hblank
    constructor
    · intro u hu
      rcases List.mem_append.1 hu with hu | hu
      · exact hitems u (List.mem_append_left _ hu)
      · cases List.mem_singleton.1 hu
        exact ⟨hv, hblank.1⟩
    · intro u hu
      rcases List.mem_cons.1 hu with hu | hu
      · cases hu
        exact ⟨hw, hblank.2⟩
      · exact hitems u (by simp [hu])

/-- **Where items are cut the tokens before the place are read in front of any text that the last
of them ends before**, and those behind it are what is read there. -/
theorem Cut.readAll (h : Cut items front back) {ts us : List TagToken} {rest : Text}
    (hread : TagToken.readAll 0 ((ts ++ items.flatMap tokens).flatMap TagToken.text ++ rest) =
      ts ++ items.flatMap tokens ++ us)
    (hlast : ∀ token ∈ ts, token.isLast = false) :
    (∀ rest' : Text, (∀ token ∈ (ts ++ front.flatMap tokens).getLast?, token.EndsBefore rest') →
      TagToken.readAll 0 ((ts ++ front.flatMap tokens).flatMap TagToken.text ++ rest') =
        ts ++ front.flatMap tokens ++ TagToken.readAll 0 rest') ∧
    TagToken.readAll 0 ((back.flatMap tokens).flatMap TagToken.text ++ rest) =
      back.flatMap tokens ++ us := by
  have hall {is : List TagItem} : ∀ token ∈ ts ++ is.flatMap tokens, token.isLast = false :=
    List.forall_mem_append.2 ⟨hlast, isLast_of_mem_tokens⟩
  cases h with
  | between =>
    have hread' : TagToken.readAll 0 ((ts ++ front.flatMap tokens).flatMap TagToken.text ++
        ((back.flatMap tokens).flatMap TagToken.text ++ rest)) =
          ts ++ front.flatMap tokens ++ (back.flatMap tokens ++ us) := by
      simpa using hread
    obtain ⟨hbehind, hfront⟩ := TagToken.readAll_replace hread' hall
    exact ⟨fun rest' hends => hfront rest' fun token ht => .inl (hends token ht), hbehind.symm⟩
  | @space pre post v w hv hw =>
    have hread' : TagToken.readAll 0 ((ts ++ pre.flatMap tokens).flatMap TagToken.text ++
        (v ++ w ++ ((post.flatMap tokens).flatMap TagToken.text ++ rest))) =
          ts ++ pre.flatMap tokens ++ (.space (v ++ w) :: (post.flatMap tokens ++ us)) := by
      simpa [tokens, TagToken.text] using hread
    obtain ⟨hmiddle, hfront⟩ := TagToken.readAll_replace hread' hall
    obtain ⟨hblank, hend, hbehind⟩ := TagToken.space_of_readAll hmiddle.symm
    rw [Text.isMarkupBlank, List.all_append, Bool.and_eq_true] at hblank
    constructor
    · intro rest' hends
      have hhead : (v ++ rest').head? =
          (v ++ w ++ ((post.flatMap tokens).flatMap TagToken.text ++ rest)).head? := by
        obtain ⟨c, v', rfl⟩ := List.exists_cons_of_ne_nil hv
        rfl
      have hrest' : ∀ c ∈ rest'.head?, Text.isMarkupSpace c = false :=
        hends (.space v) (by simp [tokens])
      have hread'' := hfront (v ++ rest') fun _ _ => .inr hhead
      rw [TagToken.readAll_space hv hblank.1 hrest'] at hread''
      simpa [tokens, TagToken.text] using hread''
    · have hspace := TagToken.readAll_space hw hblank.2 hend
      rw [← hbehind] at hspace
      simpa [tokens, TagToken.text] using hspace

end TagItem

/-! ## An attribute among items -/

namespace TagItem

def isSpace : TagItem → Bool
  | .filler (.space _) => true
  | _ => false

/-- Whether an attribute behind the items has to be kept apart from them: they do not end with
space. -/
def endApart (front : List TagItem) : Bool := !front.getLast?.any isSpace

/-- Whether an attribute in front of the items has to be kept apart from them: they begin with an
attribute. -/
def beginApart (back : List TagItem) : Bool := back.head?.any fun i => i.attribute?.isSome

/-- A space, if it is asked for. -/
def spacing (asked : Bool) : List TagItem := if asked then [.filler (.space [' '])] else []

/-- An attribute with the spaces that keep it apart from the items around it. -/
def apart (front back : List TagItem) (a : Attribute) : List TagItem :=
  spacing (endApart front) ++ .attribute a :: spacing (beginApart back)

theorem attributes_append (is js : List TagItem) :
    attributes (is ++ js) = attributes is ++ attributes js := List.filterMap_append

theorem attributes_apart (front back : List TagItem) (a : Attribute) :
    attributes (apart front back a) = [a] := by
  have hspacing (asked : Bool) : attributes (spacing asked) = [] := by cases asked <;> rfl
  have hcons : attributes (.attribute a :: spacing (beginApart back)) =
      a :: attributes (spacing (beginApart back)) := rfl
  rw [apart, attributes_append, hcons, hspacing, hspacing]
  rfl

theorem notJunk_apart (front back : List TagItem) (a : Attribute) :
    ∀ i ∈ apart front back a, i.isJunk = false := by
  have hspacing (asked : Bool) : ∀ i ∈ spacing asked, i.isJunk = false := by
    cases asked
    · nofun
    · exact List.forall_mem_singleton.2 rfl
  rw [apart, List.forall_mem_append, List.forall_mem_cons]
  exact ⟨hspacing _, rfl, hspacing _⟩

/-- Items without errors have none with one more attribute among them, if its name is new. -/
theorem AllSound.insert {items front back : List TagItem} (h : AllSound [] items)
    (hcut : Cut items front back) {a : Attribute} (ha : a.isValid = true)
    (hnew : a.name ∉ (attributes items).map Attribute.name) :
    AllSound [] (front ++ (apart front back a ++ back)) := by
  obtain ⟨hfront, hback⟩ := hcut.notJunk h.notJunk
  have hvalid := h.valid
  have hdistinct := h.distinct
  rw [hcut.attributes_eq] at hvalid hdistinct hnew
  have hattributes : attributes (front ++ (apart front back a ++ back)) =
      attributes front ++ a :: attributes back := by
    rw [attributes_append, attributes_append, attributes_apart]
    rfl
  refine ⟨?notJunk, ?valid, ?distinct, nofun⟩
  case notJunk =>
    rw [List.forall_mem_append, List.forall_mem_append]
    exact ⟨hfront, notJunk_apart front back a, hback⟩
  case valid =>
    rw [List.forall_mem_append] at hvalid
    rw [hattributes, List.forall_mem_append, List.forall_mem_cons]
    exact ⟨hvalid.1, ha, hvalid.2⟩
  case distinct =>
    rw [hattributes, (List.perm_middle.map _).nodup_iff, List.map_cons, List.nodup_cons]
    exact ⟨hnew, hdistinct⟩

/-- The last token of items that an attribute has to be kept apart from ends before a space. -/
theorem endsBefore_space {front : List TagItem} (hjunk : ∀ i ∈ front, i.isJunk = false)
    (hvalid : ∀ a ∈ attributes front, a.isValid = true) (hend : endApart front = true) (n rest : Text) :
    ∀ token ∈ (.name n :: front.flatMap tokens).getLast?, token.EndsBefore (' ' :: rest) := by
  rcases List.eq_nil_or_concat front with rfl | ⟨init, i, rfl⟩
  · intro token htoken
    cases htoken
    simp [TagToken.EndsBefore, TagToken.isNameChar, Text.isMarkupSpace]
  · rw [List.concat_eq_append] at hjunk hvalid hend ⊢
    cases i with
    | «attribute» a =>
      obtain ⟨name, assignment⟩ := a
      have hclosed := hvalid ⟨name, assignment⟩ (by simp [attributes, attribute?])
      rw [Attribute.isValid, Bool.and_eq_true] at hclosed
      cases assignment with
      | absent => cases hclosed.2
      | bare before => cases hclosed.2
      | value before after q =>
        intro token htoken
        have hlast : token = .string q := by
          simpa [tokens, Assignment.tokens, List.getLast?_cons, List.getLast?_append] using htoken.symm
        rw [hlast]
        exact hclosed.2
    | filler f =>
      cases f with
      | space w => simp [endApart, isSpace] at hend
      | junk w => cases hjunk _ List.mem_concat_self

/-- Items that an attribute need not be kept apart from end with space, and the space ends before
it. -/
theorem endsBefore_of_space {front : List TagItem} (hend : endApart front = false) {rest : Text}
    (hrest : ∀ c ∈ rest.head?, Text.isMarkupSpace c = false) (n : Text) :
    ∀ token ∈ (.name n :: front.flatMap tokens).getLast?, token.EndsBefore rest := by
  rcases List.eq_nil_or_concat front with rfl | ⟨init, i, rfl⟩
  · cases hend
  · rw [List.concat_eq_append] at hend ⊢
    match i with
    | .attribute a => simp [endApart, isSpace] at hend
    | .filler (.space w) =>
      intro token htoken
      have hlast : token = .space w := by
        simpa [tokens, List.getLast?_cons, List.getLast?_append] using htoken.symm
      rw [hlast]
      exact hrest
    | .filler (.junk w) => simp [endApart, isSpace] at hend

/-- Items that have to be kept apart from an attribute in front of them do not begin with space. -/
theorem head?_beginApart {back : List TagItem} (hvalid : ∀ a ∈ attributes back, a.isValid = true)
    (hbegin : beginApart back = true) (rest : Text) :
    ∀ c ∈ ((back.flatMap tokens).flatMap TagToken.text ++ rest).head?, Text.isMarkupSpace c = false := by
  cases back with
  | nil => cases hbegin
  | cons i back =>
    match i with
    | .attribute a =>
      have ha := hvalid a List.mem_cons_self
      rw [Attribute.isValid, Bool.and_eq_true] at ha
      have hhead := TagToken.head?_name ha.1 (a.assignment.tokens.flatMap TagToken.text ++
        ((back.flatMap tokens).flatMap TagToken.text ++ rest))
      simpa [tokens, TagToken.text] using hhead
    | .filler f => cases hbegin

/-- A space that is asked for is read in front of what does not begin with space. -/
theorem readAll_spacing (asked : Bool) {rest : Text}
    (hrest : asked = true → ∀ c ∈ rest.head?, Text.isMarkupSpace c = false) :
    TagToken.readAll 0 (((spacing asked).flatMap tokens).flatMap TagToken.text ++ rest) =
      (spacing asked).flatMap tokens ++ TagToken.readAll 0 rest := by
  cases asked with
  | false => rfl
  | true =>
    have hblank : Text.isMarkupBlank [' '] = true := rfl
    exact TagToken.readAll_space (List.cons_ne_nil _ _) hblank (hrest rfl)

variable {items front back : List TagItem} {n rest : Text} {us : List TagToken}

/-- **An attribute that is kept apart from the items around it is read between them.** -/
theorem Cut.readAll_insert (h : Cut items front back)
    (hread : TagToken.readAll 0 ((.name n :: items.flatMap tokens).flatMap TagToken.text ++ rest) =
      .name n :: items.flatMap tokens ++ us)
    (hitems : AllSound [] items) {a : WrittenAttribute} (ha : a.WellFormed) :
    let new := front ++ (apart front back a.attr ++ back)
    TagToken.readAll 0 ((.name n :: new.flatMap tokens).flatMap TagToken.text ++ rest) =
      .name n :: new.flatMap tokens ++ us := by
  intro new
  obtain ⟨hjunk, -⟩ := h.notJunk hitems.notJunk
  have hvalid := hitems.valid
  rw [h.attributes_eq, List.forall_mem_append] at hvalid
  have hread' : TagToken.readAll 0
      (([TagToken.name n] ++ items.flatMap tokens).flatMap TagToken.text ++ rest) =
        [.name n] ++ items.flatMap tokens ++ us := hread
  obtain ⟨hfront, hback⟩ := h.readAll hread' fun token htoken => by
    rw [List.mem_singleton.1 htoken]
    rfl
  let written : Text := a.name ++ '=' :: a.quote.char :: (a.value ++ [a.quote.char])
  let behind : Text := ((spacing (beginApart back)).flatMap tokens).flatMap TagToken.text ++
    ((back.flatMap tokens).flatMap TagToken.text ++ rest)
  have hbehind : TagToken.readAll 0 behind =
      (spacing (beginApart back)).flatMap tokens ++ (back.flatMap tokens ++ us) := by
    rw [readAll_spacing _ fun hbegin => head?_beginApart hvalid.2 hbegin rest, hback]
  have hwritten : TagToken.readAll 0 (written ++ behind) =
      (TagItem.attribute a.attr).tokens ++ TagToken.readAll 0 behind := by
    have hassignment := TagToken.readAll_assignment ha behind
    simpa [written, tokens, WrittenAttribute.attr, Assignment.tokens, TagToken.ofSpace] using hassignment
  have hhead : ∀ c ∈ (written ++ behind).head?, Text.isMarkupSpace c = false := by
    have hname := TagToken.head?_name ha.name
      ('=' :: a.quote.char :: (a.value ++ [a.quote.char]) ++ behind)
    rwa [← List.append_assoc] at hname
  have hleading := readAll_spacing (endApart front) fun _ => hhead
  -- What comes before the attribute ends before the space, or is the space.
  have hends : ∀ token ∈ (.name n :: front.flatMap tokens).getLast?, token.EndsBefore
      (((spacing (endApart front)).flatMap tokens).flatMap TagToken.text ++ (written ++ behind)) := by
    cases hend : endApart front with
    | true => exact endsBefore_space hjunk hvalid.1 hend n _
    | false => exact endsBefore_of_space hend hhead n
  have hall := hfront _ hends
  rw [hleading, hwritten, hbehind] at hall
  simpa [new, apart, written, behind, tokens, TagToken.text, WrittenAttribute.attr,
    Assignment.tokens, TagToken.ofSpace, Quoted.text] using hall

/-! ## What is beside the attribute -/

/-- What comes before an attribute that is put behind some items ends with space. -/
theorem exists_space_before {front : List TagItem} (hspaced : WellSpaced front) :
    ∃ w c, (front ++ spacing (endApart front)).flatMap text = w ++ [c] ∧
      Text.isMarkupSpace c = true := by
  cases hend : endApart front with
  | true => exact ⟨front.flatMap text, ' ', by simp [spacing, text, Filler.text], rfl⟩
  | false =>
    rcases List.eq_nil_or_concat front with rfl | ⟨init, i, rfl⟩
    · cases hend
    · rw [List.concat_eq_append] at hend hspaced ⊢
      cases i with
      | «attribute» a => simp [endApart, isSpace] at hend
      | filler f =>
        cases f with
        | junk w => simp [endApart, isSpace] at hend
        | space w =>
          obtain ⟨hne, hblank⟩ := hspaced w (by simp)
          obtain ⟨v, c, rfl⟩ := (List.eq_nil_or_concat w).resolve_left hne
          rw [Text.isMarkupBlank, List.concat_eq_append, List.all_append, Bool.and_eq_true] at hblank
          refine ⟨init.flatMap text ++ v, c, ?_, by simpa using hblank.2⟩
          simp [spacing, text, Filler.text]

/-- What comes behind an attribute that is put in front of some items and the end of the tag begins
with space or with the end. -/
theorem exists_space_behind {back : List TagItem} (hspaced : WellSpaced back)
    (hjunk : ∀ i ∈ back, i.isJunk = false) {ending : TagEnding} (hending : ending ≠ .missing) :
    ∃ c w, (spacing (beginApart back) ++ back).flatMap text ++ ending.text = c :: w ∧
      (Text.isMarkupSpace c = true ∨ c = '/' ∨ c = '>') := by
  cases back with
  | nil =>
    cases ending with
    | content => exact ⟨'>', [], rfl, .inr (.inr rfl)⟩
    | selfClosed => exact ⟨'/', ['>'], rfl, .inr (.inl rfl)⟩
    | missing => exact absurd rfl hending
  | cons i back =>
    match i with
    | .attribute a => exact ⟨' ', _, rfl, .inl rfl⟩
    | .filler (.junk w) => exact absurd (hjunk _ List.mem_cons_self) nofun
    | .filler (.space w) =>
      obtain ⟨hne, hblank⟩ := hspaced w List.mem_cons_self
      obtain ⟨c, w, rfl⟩ := List.exists_cons_of_ne_nil hne
      rw [Text.isMarkupBlank, List.all_cons, Bool.and_eq_true] at hblank
      exact ⟨c, _, rfl, .inl hblank.1⟩

end TagItem

end ProjectFile.Markup
