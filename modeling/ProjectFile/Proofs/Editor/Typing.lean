import ProjectFile.Proofs.Editor.Recovery
import ProjectFile.Proofs.Markup.Survival
import ProjectFile.Proofs.Markup.Unterminated

/-!
A start tag that is being typed.

While only `<` and a name stand there the tag is not terminated. In front of another tag that is one
error, the element is empty, and all else is still there (`insert_name_recovers`). In front of
markup of another kind it is never one error (`not_nameRecovers`), since what follows the name is
read as in a tag up to the next `>`: comments, CDATA sections and processing instructions are then
no such markup (`insert_name_fails`).
-/

namespace ProjectFile.Editor

open Markup

/-- What `<` and the name `x`, inserted at `offset` into the content of the element `around`, do to a
text: they are an empty element there, with one error, and every tree of the text is kept. -/
structure NameRecovers (t : Text) (offset : Nat) (around : Element) (x : Text) : Prop where
  errors : (Document.parse (t.insertAt offset ('<' :: x))).errors.length = 1
  opened : ∃ v ∈ (Document.parse (t.insertAt offset ('<' :: x))).views, ∃ e parent,
    v.item = .element e ∧ e.name = x ∧ e.span = .ofSize offset (Text.width ('<' :: x)) ∧
      v.parentElement? = some parent ∧ parent.start = around.start ∧ parent.tag = around.tag ∧
      parent.endTag = around.endTag
  kept : Site.AllKept offset ('<' :: x) (Document.parse t).sites
    (Document.parse (t.insertAt offset ('<' :: x))).sites

section

variable {t : Text} (h : (Document.parse t).errors = []) {offset : Nat} {p : View} {around : Element}
  (hkind : (inspect (Document.parse t) offset).kind = .gap .content)
  (hnode : (inspect (Document.parse t) offset).node = some p) (hitem : p.item = .element around)
  {front rest : Text} (htext : t = front ++ '<' :: rest) (hoffset : front.width = offset)

include h hkind hnode hitem htext hoffset

/-- A gap in the content of an element is a slot in front of what the text goes on with. -/
theorem exists_slot_of_text : ∃ s : Slot t, s.inner = s.front ++ s.back ∧ s.offset = offset ∧
    s.element s.inner = around ∧ s.closing.flatMap Piece.text = '<' :: rest := by
  obtain ⟨s, hbetween, hplace, haround, -⟩ := exists_slot_of_gap h hkind hnode hitem
  refine ⟨s, hbetween, hplace, haround, ?_⟩
  have hwidth : Text.width (s.opening.flatMap Piece.text) = front.width := by
    rw [hoffset, ← hplace, s.offset_eq]
  exact (Text.append_inj_of_width (s.text_eq.symm.trans htext) hwidth).2

variable {x : Text} (hx : Text.isName x = true)

include hx

/-- **A start tag that is being typed in front of another tag destroys nothing.** -/
theorem insert_name_recovers (hmark : rest.head? ≠ some '!') (hquestion : rest.head? ≠ some '?') :
    NameRecovers t offset around x := by
  obtain ⟨s, hbetween, rfl, rfl, hclosing⟩ :=
    exists_slot_of_text h hkind hnode hitem htext hoffset
  obtain ⟨hparse, herrors⟩ := s.insert_name hx hclosing hmark hquestion
  let tag : StartTag := ⟨['<'], some x, [], .missing⟩
  have hname : (Node.element tag [] none).text = '<' :: x := by
    simp [tag, Node.text, Node.textOfAll, StartTag.text, TagEnding.text]
  refine ⟨by rw [herrors]; rfl, ?opened, ?kept⟩
  case opened =>
    obtain ⟨v, hv, hv', hparent⟩ := s.exists_view hparse rfl
    have hspan (start : Nat) :
        Element.span ⟨start, tag, [], none⟩ = .ofSize start (Text.width ('<' :: x)) := by
      rw [Element.span, Node.width_eq, Element.node, ← hname]
    exact ⟨v, hv, _, _, hv', rfl, hspan _, hparent, rfl, rfl, rfl⟩
  case kept =>
    have hnew : Node.textOfAll [.element tag [] none] = '<' :: x := by
      simpa [Node.textOfAll] using hname
    exact s.allKept hbetween hnew hparse

/-- In front of markup that is no tag, a start tag that is being typed is never one error. -/
theorem not_nameRecovers {c : Char} (hc : c = '!' ∨ c = '?') (hrest : rest.head? = some c) :
    ¬ NameRecovers t offset around x := by
  obtain ⟨s, -, rfl, rfl, hclosing⟩ := exists_slot_of_text h hkind hnode hitem htext hoffset
  obtain ⟨behind, rfl⟩ := List.head?_eq_some_iff.1 hrest
  exact fun hrecovers => s.insert_name_engulfs hx hc hclosing hrecovers.errors

end

/-- An element with a child behind a comment. -/
def commentAndChild : Text := "<p><!--c--><q k='1'/></p>".toList

/-- Between the comment and the child a start tag may be typed. -/
theorem insert_name_recovers_commentAndChild : (Document.parse commentAndChild).errors = [] ∧
    ∃ p around, (inspect (Document.parse commentAndChild) 11).kind = .gap .content ∧
      (inspect (Document.parse commentAndChild) 11).node = some p ∧ p.item = .element around ∧
      NameRecovers commentAndChild 11 around ['x'] := by
  have herrors : (Document.parse commentAndChild).errors = [] := by decide +kernel
  have hkind : (inspect (Document.parse commentAndChild) 11).kind = .gap .content := by
    decide +kernel
  have helement : ((inspect (Document.parse commentAndChild) 11).node.bind
      fun p => p.item.element?).isSome = true := by decide +kernel
  have htext : commentAndChild = "<p><!--c-->".toList ++ '<' :: "q k='1'/></p>".toList := by
    decide +kernel
  obtain ⟨around, haround⟩ := Option.isSome_iff_exists.1 helement
  obtain ⟨p, hnode, hitem⟩ := Option.bind_eq_some_iff.1 haround
  have hitem := Item.element?_eq_some hitem
  refine ⟨herrors, p, around, hkind, hnode, hitem, ?_⟩
  exact insert_name_recovers herrors hkind hnode hitem htext (by decide +kernel) (by decide +kernel)
    (by decide +kernel) (by decide +kernel)

/-- Whether a start tag of the name `x` that is being typed at `offset` does not recover, though the
place is one between nodes of an element in front of a `<`, and the text has no errors. -/
def NameFails (t : Text) (offset : Nat) (x : Text) : Prop :=
  (Document.parse t).errors = [] ∧ (inspect (Document.parse t) offset).kind = .gap .content ∧
    Text.isName x = true ∧ ∃ p around front rest,
      (inspect (Document.parse t) offset).node = some p ∧ p.item = .element around ∧
        t = front ++ '<' :: rest ∧ front.width = offset ∧ ¬ NameRecovers t offset around x

/-- In front of a comment, a CDATA section or a processing instruction it does not. -/
theorem insert_name_fails : NameFails "<p><!--c--></p>".toList 3 ['x'] ∧
    NameFails "<p><![CDATA[c]]></p>".toList 3 ['x'] ∧ NameFails "<p><?c?></p>".toList 3 ['x'] := by
  have hname : Text.isName ['x'] = true := by decide +kernel
  have hfails {t : Text} (c : Char) (rest : Text) (h : (Document.parse t).errors = [])
      (hkind : (inspect (Document.parse t) 3).kind = .gap .content)
      (helement : ((inspect (Document.parse t) 3).node.bind fun p => p.item.element?).isSome = true)
      (htext : t = ['<', 'p', '>'] ++ '<' :: c :: rest) (hc : c = '!' ∨ c = '?') :
      NameFails t 3 ['x'] := by
    obtain ⟨around, haround⟩ := Option.isSome_iff_exists.1 helement
    obtain ⟨p, hnode, hitem⟩ := Option.bind_eq_some_iff.1 haround
    have hitem := Item.element?_eq_some hitem
    exact ⟨h, hkind, hname, p, around, _, _, hnode, hitem, htext, rfl,
      not_nameRecovers h hkind hnode hitem htext rfl hname hc rfl⟩
  refine ⟨?comment, ?cdata, ?instruction⟩
  case comment =>
    exact hfails '!' "--c--></p>".toList (by decide +kernel) (by decide +kernel)
      (by decide +kernel) (by decide +kernel) (.inl rfl)
  case cdata =>
    exact hfails '!' "[CDATA[c]]></p>".toList (by decide +kernel) (by decide +kernel)
      (by decide +kernel) (by decide +kernel) (.inl rfl)
  case instruction =>
    exact hfails '?' "c?></p>".toList (by decide +kernel) (by decide +kernel)
      (by decide +kernel) (by decide +kernel) (.inr rfl)

end ProjectFile.Editor
