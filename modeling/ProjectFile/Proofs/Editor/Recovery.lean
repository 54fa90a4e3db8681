import ProjectFile.Editor.Completion
import ProjectFile.Proofs.Editor.Geometry
import ProjectFile.Proofs.Markup.Heads

/-!
One wrong tag in a text without errors.

Where a new element may be inserted there is a slot (`exists_slot`). A start tag or an end tag that
is inserted there instead, without its counterpart, is one error, and what was there before is
there still (`insert_tag_recovers`).
-/

namespace ProjectFile.Editor

open Markup

section

variable {t : Text} {offset : Nat}

/-- An offset past the end of the text is in no slot. -/
theorem offset_eq_of_slot (s : Slot t) (hs : s.offset = (inspect (Document.parse t) offset).offset) :
    s.offset = offset := by
  have hlt := s.offset_lt
  rw [offset_inspect] at hs
  omega

/-- A gap in the content of an element is a slot between two nodes. -/
theorem exists_slot_of_gap (h : (Document.parse t).errors = []) {p : View} {e : Element}
    (hkind : (inspect (Document.parse t) offset).kind = .gap .content)
    (hnode : (inspect (Document.parse t) offset).node = some p) (hitem : p.item = .element e) :
    ∃ s : Slot t, s.inner = s.front ++ s.back ∧ s.offset = offset ∧ s.element s.inner = e ∧
      p.enclosing.map Enclosure.element = s.around := by
  obtain ⟨ns, hreading⟩ := Document.exists_reading h
  have hseam := (located_inspect t offset).seam hkind
  rw [hnode] at hseam
  obtain ⟨hp, e', hitem', hending, pre, post, hcontent, hoffset⟩ := hseam
  rw [hitem] at hitem'
  cases hitem'
  obtain ⟨s, hfront, hback, hinner, helement, haround⟩ :=
    hreading.exists_slot hp hitem hending hcontent
  have hplace : s.offset = (inspect (Document.parse t) offset).offset := by
    rw [hoffset, ← hfront, ← helement, s.offset_eq_stop]
  exact ⟨s, by rw [hinner, hfront, hback], offset_eq_of_slot s hplace, helement, haround⟩

/-- Where a new child element may be inserted into an element there is a slot. -/
theorem exists_slot (h : (Document.parse t).errors = []) {c : ElementCompletion} {p : View}
    (hc : (inspect (Document.parse t) offset).completeElement? none = some c)
    (hp : c.parent = some p) (hnew : c.replaced = none) :
    ∃ s : Slot t, s.offset = offset ∧ p.item = .element (s.element s.inner) ∧
      p.enclosing.map Enclosure.element = s.around := by
  unfold Location.completeElement? at hc
  rw [Option.filter_eq_some_iff] at hc
  obtain ⟨hfound, -⟩ := hc
  split at hfound
  · -- On a name the element itself would be replaced.
    obtain ⟨e, -, rfl⟩ := Option.map_eq_some_iff.1 hfound
    cases hnew
  · next v hkind hnode =>
    split at hfound
    · next start w hitem =>
      cases hfound
      obtain ⟨ns, hreading⟩ := Document.exists_reading h
      have hlocated := located_inspect t offset
      have hv := hlocated.node v hnode
      have hfits := hlocated.fits
      rw [hnode, Option.map_some, hitem] at hfits
      dsimp only at hkind hfits
      rw [hkind] at hfits
      obtain ⟨hstart, hstop⟩ := Span.touches_iff.1 hfits
      dsimp only [Span.ofSize] at hstart hstop
      obtain ⟨s, hplace, hitem', haround⟩ := hreading.exists_slot_blank hv hitem hp
        (n := (inspect (Document.parse t) offset).offset - start) (by omega)
      exact ⟨s, offset_eq_of_slot s (by omega), hitem', haround⟩
    · cases hfound
  · next hkind =>
    cases hfound
    obtain ⟨hnode, helement⟩ := Option.filter_eq_some_iff.1 hp
    obtain ⟨e, he⟩ := Option.isSome_iff_exists.1 helement
    have hitem := Item.element?_eq_some he
    obtain ⟨s, -, hplace, hs, haround⟩ := exists_slot_of_gap h hkind hnode hitem
    exact ⟨s, hplace, by rw [hitem, hs], haround⟩
  · cases hfound

end

/-! ## One wrong tag -/

/-- What a start tag of the name `x` without an end tag, inserted at `offset` into the content of the
element `around`, does to a text: it opens an element that ends where the end tag of its parent
starts, and every element that was there is there, with its start tag. -/
structure StartTagRecovers (t : Text) (offset : Nat) (around : Element) (x : Text) : Prop where
  errors : (Document.parse (t.insertAt offset (openingTag x))).errors.length = 1
  opened : ∃ v ∈ (Document.parse (t.insertAt offset (openingTag x))).views, ∃ e parent,
    v.item = .element e ∧ e.start = offset ∧ e.name = x ∧ e.endTag = none ∧
      v.parentElement? = some parent ∧ parent.start = around.start ∧ parent.tag = around.tag ∧
      parent.endTag = around.endTag ∧ parent.endTagSpan.map Span.start = some e.span.stop
  kept : ∀ e ∈ (Document.parse t).elements,
    ∃ e' ∈ (Document.parse (t.insertAt offset (openingTag x))).elements,
      e'.start = Text.moved offset (openingTag x).width e.start ∧ e'.tag = e.tag ∧ e'.isValid = true

/-- What an end tag of the name `x` without a start tag, inserted at `offset`, does to a text: it is
the only error, and every element that was there is there, with its start tag and its parent. -/
structure EndTagRecovers (t : Text) (offset : Nat) (x : Text) : Prop where
  errors : ∃ problem, (Document.parse (t.insertAt offset (closingTag x))).errors =
    [⟨problem, .ofSize offset (closingTag x).width⟩]
  kept : ∀ v ∈ (Document.parse t).views, ∀ e, v.item = .element e →
    ∃ v' ∈ (Document.parse (t.insertAt offset (closingTag x))).views, ∃ e', v'.item = .element e' ∧
      e'.start = Text.moved offset (closingTag x).width e.start ∧ e'.tag = e.tag ∧
      e'.isValid = true ∧ v'.parentElement?.map Element.start =
        (v.parentElement?.map Element.start).map (Text.moved offset (closingTag x).width)

/-- An element whose head is among those of a document, whatever its parent, is there. -/
theorem exists_element {d : Document} {heads : List Head}
    (h : d.heads.map Head.forget = heads.map Head.forget) {head : Head} (hhead : head ∈ heads) :
    ∃ e ∈ d.elements, e.start = head.start ∧ e.tag = head.tag ∧ e.endTag = head.endTag := by
  have hforgotten := List.mem_map_of_mem (f := Head.forget) hhead
  rw [← h] at hforgotten
  obtain ⟨head', hmem, heq⟩ := List.mem_map.1 hforgotten
  obtain ⟨v, hv, e, hitem, rfl⟩ := Document.mem_heads.1 hmem
  rw [Head.forget, Head.forget, Head.mk.injEq] at heq
  obtain ⟨hstart, htag, hend, -⟩ := heq
  exact ⟨e, Document.mem_elements_iff.2 ⟨v, hv, hitem⟩, hstart, htag, hend⟩

theorem name_ne {e : Element} {x : Text} (h : e.name ≠ x) : e.tag.name ≠ some x := by
  intro hname
  exact h (by rw [Element.name, hname]; rfl)

section

variable {t : Text} (s : Slot t) {x : Text} (hx : Text.isName x = true)

include hx

/-- A start tag in a slot takes the rest of the content, and nothing else changes. -/
theorem startTagRecovers (hname : (s.element s.inner).name ≠ x) :
    StartTagRecovers t s.offset (s.element s.inner) x := by
  obtain ⟨hparse, herrors⟩ := s.insert_startTag hx (name_ne hname)
  refine ⟨by rw [herrors]; rfl, ?opened, fun e he => ?kept⟩
  case opened =>
    obtain ⟨v, hv, hitem, hparent⟩ := s.exists_view hparse rfl
    refine ⟨v, hv, _, _, hitem, rfl, rfl, rfl, hparent, rfl, rfl, rfl, ?_⟩
    have hstop := s.contentStop_element [.element (Written.startTag x [] .content) s.back none]
    rw [Node.widthOfAll, Node.widthOfAll, Nat.add_zero] at hstop
    exact congrArg some hstop
  case kept =>
    obtain ⟨v, hv, hitem⟩ := Document.mem_elements_iff.1 he
    obtain ⟨before, after, hold, hnew⟩ := s.heads_element hparse
    rw [Written.text_startTag_nil] at hnew
    have hhead := Document.mem_heads.2 ⟨v, hv, e, hitem, rfl⟩
    rw [hold] at hhead
    let move := Head.move (Text.moved s.offset (openingTag x).width)
    have hmoved : move ⟨e.start, e.tag, e.endTag, v.parentElement?.map Element.start⟩ ∈
        before.map move ++
          ⟨s.offset, Written.startTag x [] .content, none, none⟩ :: after.map move := by
      rw [List.mem_append, List.mem_cons]
      exact (List.mem_append.1 hhead).imp List.mem_map_of_mem fun h => .inr (List.mem_map_of_mem h)
    obtain ⟨e', he', hstart, htag, hend⟩ := exists_element hnew hmoved
    refine ⟨e', he', hstart, htag, ?_⟩
    rw [Element.isValid_congr htag hend]
    exact s.reading.isValid e he

/-- An end tag in a slot closes nothing if no element around it bears its name. -/
theorem endTagRecovers (hname : (s.element s.inner).name ≠ x) (haround : ∀ e ∈ s.around, e.name ≠ x) :
    EndTagRecovers t s.offset x := by
  obtain ⟨hparse, herrors⟩ := s.insert_endTag hx (by
    rw [s.tags_frames s.inner, List.forall_mem_map, List.forall_mem_cons]
    exact ⟨name_ne hname, fun e he => name_ne (haround e he)⟩)
  have hheads := s.heads_strayEnd hparse
  rw [Written.text_endTag] at hheads
  refine ⟨⟨_, herrors⟩, fun v hv e hitem => ?_⟩
  have hhead := Document.mem_heads.2 ⟨v, hv, e, hitem, rfl⟩
  obtain ⟨v', hv', e', hitem', hmoved⟩ := Document.mem_heads.1
    (hheads ▸ List.mem_map_of_mem hhead)
  rw [Head.move, Head.mk.injEq] at hmoved
  obtain ⟨hstart, htag, hend, hparent⟩ := hmoved
  refine ⟨v', hv', e', hitem', hstart.symm, htag.symm, ?_, hparent.symm⟩
  rw [Element.isValid_congr htag.symm hend.symm]
  exact s.reading.isValid e (Document.mem_elements_iff.2 ⟨v, hv, hitem⟩)

end

/-- **One wrong tag is one error and goes no further.** Where a child may be inserted into an element
of a text without errors, a lone start tag or end tag of another name is inserted instead. -/
theorem insert_tag_recovers {t : Text} (h : (Document.parse t).errors = []) {offset : Nat}
    {c : ElementCompletion} (hc : (inspect (Document.parse t) offset).completeElement? none = some c)
    {p : View} (hp : c.parent = some p) (hnew : c.replaced = none) {x : Text}
    (hx : Text.isName x = true) :
    ∃ around, p.item = .element around ∧
      (around.name ≠ x → StartTagRecovers t offset around x) ∧
      (around.name ≠ x → (∀ outer ∈ p.enclosing, outer.element.name ≠ x) →
        EndTagRecovers t offset x) := by
  obtain ⟨s, rfl, hitem, haround⟩ := exists_slot h hc hp hnew
  refine ⟨_, hitem, startTagRecovers s hx, fun hname houter => endTagRecovers s hx hname ?_⟩
  rw [← haround, List.forall_mem_map]
  exact houter

/-- An element inside another, with blank character data in front of its child. -/
def twoLevels : Text := "<r><p> \n<q k='1'/><!--c--></p></r>".toList

/-- The middle of the blank character data is such a place, and a tag of a third name is such a tag. -/
theorem insert_tag_recovers_twoLevels : (Document.parse twoLevels).errors = [] ∧ ∃ c p around,
    (inspect (Document.parse twoLevels) 7).completeElement? none = some c ∧ c.parent = some p ∧
      c.replaced = none ∧ p.item = .element around ∧ around.name = ['p'] ∧
      StartTagRecovers twoLevels 7 around ['x'] ∧ EndTagRecovers twoLevels 7 ['x'] := by
  have herrors : (Document.parse twoLevels).errors = [] := by decide +kernel
  have hfound : ((inspect (Document.parse twoLevels) 7).completeElement? none).map (fun c =>
      (c.replaced.isNone, c.parent.map fun p =>
        (p.item.name?, p.enclosing.map fun outer => outer.element.name))) =
      some (true, some (some ['p'], [['r']])) := by decide +kernel
  obtain ⟨c, hc, hfound⟩ := Option.map_eq_some_iff.1 hfound
  rw [Prod.mk.injEq] at hfound
  obtain ⟨hnew, hfound⟩ := hfound
  obtain ⟨p, hp, hfound⟩ := Option.map_eq_some_iff.1 hfound
  rw [Prod.mk.injEq] at hfound
  obtain ⟨hname, houter⟩ := hfound
  rw [Option.isNone_iff_eq_none] at hnew
  obtain ⟨around, hitem, hstart, hend⟩ := insert_tag_recovers herrors hc hp hnew (x := ['x'])
    (by decide +kernel)
  rw [hitem] at hname
  have hp' : around.name = ['p'] := Option.some.inj hname
  have hne : around.name ≠ ['x'] := by
    rw [hp']
    decide
  refine ⟨herrors, c, p, around, hc, hp, hnew, hitem, hp', hstart hne, hend hne fun outer hmem => ?_⟩
  have hr := List.mem_map_of_mem (f := fun outer => outer.element.name) hmem
  rw [houter, List.mem_singleton] at hr
  rw [hr]
  decide

end ProjectFile.Editor
