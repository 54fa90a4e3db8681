import ProjectFile.Markup.Leaf
import ProjectFile.Proofs.Markup.Lossless

/-!
The leaves of a document lie side by side.

Each leaf starts where the one before it ends, from the start of the document to its end
(`Document.isTiling_leaves`), so every byte is in one (`Leaf.IsTiling.exists_left`).
-/

namespace ProjectFile.Markup

namespace Leaf

/-- Whether leaves follow one another from `offset` up to `stop`. -/
def IsTiling (offset stop : Nat) : List Leaf → Prop
  | [] => offset = stop
  | l :: ls => l.start = offset ∧ IsTiling l.span.stop stop ls

theorem IsTiling.append {a b c : Nat} {ls ms : List Leaf} (hls : IsTiling a b ls)
    (hms : IsTiling b c ms) : IsTiling a c (ls ++ ms) := by
  induction ls generalizing a with
  | nil =>
    have hab : a = b := hls
    subst hab
    exact hms
  | cons l ls ih => exact ⟨hls.1, ih hls.2⟩

/-- The byte before an offset is in a leaf. -/
theorem IsTiling.exists_left {a b o : Nat} {ls : List Leaf} (h : IsTiling a b ls) (ha : a < o)
    (hb : o ≤ b) : ∃ l ∈ ls, l.span.start < o ∧ o ≤ l.span.stop := by
  induction ls generalizing a with
  | nil =>
    have hab : a = b := h
    omega
  | cons l ls ih =>
    obtain ⟨rfl, hls⟩ := h
    by_cases hstop : o ≤ l.span.stop
    · exact ⟨l, List.mem_cons_self, ha, hstop⟩
    · obtain ⟨m, hm, hspan⟩ := ih hls (by omega)
      exact ⟨m, List.mem_cons_of_mem l hm, hspan⟩

theorem isTiling_ofTexts (owner : Option View) (offset : Nat) (texts : List (Role × Text)) :
    IsTiling offset (offset + Text.width (texts.flatMap Prod.snd)) (ofTexts owner offset texts) := by
  induction texts generalizing offset with
  | nil => rfl
  | cons entry texts ih =>
    obtain ⟨role, t⟩ := entry
    have hrest := ih (offset + t.width)
    rw [Nat.add_assoc, ← Text.width_append] at hrest
    rw [ofTexts]
    cases t with
    | nil => exact hrest
    | cons c t => exact ⟨rfl, hrest⟩

end Leaf

open Leaf (IsTiling isTiling_ofTexts)

theorem Attribute.flatMap_roles (a : Attribute) : a.roles.flatMap Prod.snd = a.text := by
  unfold roles text Assignment.text
  cases a.assignment <;> simp [Quoted.text]

theorem Filler.flatMap_endRoles (fillers : List Filler) :
    (fillers.map fun f => (f.endRole, f.text)).flatMap Prod.snd = fillers.flatMap text := by
  rw [List.flatMap_map]

theorem EndTag.flatMap_roles (stray : Bool) (tag : EndTag) :
    (tag.roles stray).flatMap Prod.snd = tag.text := by
  simp [roles, text, Filler.flatMap_endRoles]

/-- The number of bytes of items that follow one another. -/
def TagItem.widthOfAll (items : List TagItem) : Nat := Text.width (items.flatMap text)

theorem TagItem.widthOfAll_cons (i : TagItem) (items : List TagItem) :
    widthOfAll (i :: items) = i.text.width + widthOfAll items := by
  simp [widthOfAll]

theorem TagItem.widthOfAll_append (is js : List TagItem) :
    widthOfAll (is ++ js) = widthOfAll is + widthOfAll js := by
  simp [widthOfAll]

theorem TagItem.isTiling_leavesOfAll (enclosing : List Enclosure) (before : List Item) (offset : Nat)
    (items : List TagItem) :
    IsTiling offset (offset + widthOfAll items)
      (leavesOfAll enclosing before offset items) := by
  induction items generalizing before offset with
  | nil => rfl
  | cons i items ih =>
    match i with
    | .attribute a =>
      have hroles := isTiling_ofTexts (some ⟨.attribute ⟨offset, a⟩, before,
        Item.ofTagItems (offset + a.text.width) items, enclosing⟩) offset a.roles
      rw [a.flatMap_roles] at hroles
      rw [widthOfAll_cons, ← Nat.add_assoc]
      exact hroles.append (ih _ _)
    | .filler f =>
      have hroles := isTiling_ofTexts (View.ofEnclosing enclosing) offset [(f.startRole, f.text)]
      rw [List.flatMap_singleton] at hroles
      rw [widthOfAll_cons, ← Nat.add_assoc]
      exact hroles.append (ih _ _)

theorem Element.itemsStart_add_width (e : Element) :
    e.itemsStart + TagItem.widthOfAll e.tag.items =
      e.startTagSpan.stop - e.tag.ending.text.width := by
  simp only [itemsStart, name, startTagSpan, Span.ofSize, StartTag.text, Text.width_append,
    TagItem.widthOfAll]
  omega

theorem Element.itemsStart_le_stop (e : Element) :
    e.itemsStart + TagItem.widthOfAll e.tag.items ≤ e.startTagSpan.stop := by
  rw [e.itemsStart_add_width]
  exact Nat.sub_le _ _

/-- What ends a start tag stands in front of what follows the tag. -/
theorem Element.stop_sub_add_ending (e : Element) :
    e.startTagSpan.stop - e.tag.ending.text.width + e.tag.ending.text.width = e.startTagSpan.stop := by
  have hle : e.tag.ending.text.width ≤ e.startTagSpan.stop := by
    simp only [startTagSpan, Span.ofSize, StartTag.text, Text.width_append]
    omega
  exact Nat.sub_add_cancel hle

/-- An element ends with its end tag, or with its content. -/
theorem Element.contentStop_add_width (e : Element) :
    e.contentStop + Text.width ((e.endTag.map EndTag.text).getD []) = e.start + e.node.width := by
  simp only [contentStop, startTagSpan, Span.ofSize, node, Node.width, Nat.add_assoc]

namespace Node

mutual

theorem isTiling_leaves (enclosing : List Enclosure) (before after : List Item) (offset : Nat) :
    ∀ n : Node, IsTiling offset (offset + n.width) (n.leaves enclosing before after offset)
  | .strayEnd tag => by
    have hroles := isTiling_ofTexts (View.ofEnclosing enclosing) offset (tag.roles true)
    rwa [tag.flatMap_roles] at hroles
  | .run kind t => by
    have hrun (owner : Option View) :
        IsTiling offset (offset + t.width) (Leaf.ofTexts owner offset [(.run kind, t)]) := by
      have hroles := isTiling_ofTexts owner offset [(.run kind, t)]
      rwa [List.flatMap_singleton] at hroles
    exact hrun _
  | .element tag content endTag => by
    let e : Element := ⟨offset, tag, content, endTag⟩
    let inside := ⟨e, before, after⟩ :: enclosing
    let owner := View.ofEnclosing inside
    have hopening := isTiling_ofTexts owner offset [(.startOpener, tag.opener), (.startName, e.name)]
    have hitems := TagItem.isTiling_leavesOfAll inside [] e.itemsStart tag.items
    have hending := isTiling_ofTexts owner (e.startTagSpan.stop - tag.ending.text.width)
      [tag.ending.role]
    have hcontent := isTiling_leavesOfAll inside [] e.children e.startTagSpan.stop content
    have hcloser : IsTiling e.contentStop (offset + (element tag content endTag).width)
        (match endTag with
          | some t => Leaf.ofTexts owner e.contentStop (t.roles false)
          | none => []) := by
      cases endTag with
      | none => exact e.contentStop_add_width
      | some t =>
        have hroles := isTiling_ofTexts owner e.contentStop (t.roles false)
        have hwidth : e.contentStop + t.text.width =
            offset + (element tag content (some t)).width := e.contentStop_add_width
        rwa [t.flatMap_roles, hwidth] at hroles
    -- What is left is that each part ends where the next one starts.
    have hname : offset + Text.width ([(Role.startOpener, tag.opener), (.startName, e.name)].flatMap
        Prod.snd) = e.itemsStart := by
      simp [e, Element.itemsStart, Nat.add_assoc]
    have hstop : e.startTagSpan.stop - tag.ending.text.width +
        Text.width ([tag.ending.role].flatMap Prod.snd) = e.startTagSpan.stop := by
      rw [List.flatMap_singleton]
      exact e.stop_sub_add_ending
    have hsize : e.itemsStart + TagItem.widthOfAll tag.items =
        e.startTagSpan.stop - tag.ending.text.width := e.itemsStart_add_width
    rw [hname] at hopening
    rw [hsize] at hitems
    rw [hstop] at hending
    exact hopening.append (hitems.append (hending.append (hcontent.append hcloser)))

theorem isTiling_leavesOfAll (enclosing : List Enclosure) (before items : List Item) (offset : Nat) :
    ∀ ns : List Node,
      IsTiling offset (offset + widthOfAll ns) (leavesOfAll enclosing before items offset ns)
  | [] => rfl
  | n :: ns => by
    have hhead := isTiling_leaves enclosing before
      (items.drop (Item.ofNode? (offset, n)).toList.length) offset n
    have htail := isTiling_leavesOfAll enclosing ((Item.ofNode? (offset, n)).toList ++ before)
      (items.drop (Item.ofNode? (offset, n)).toList.length) (offset + n.width) ns
    rw [Nat.add_assoc] at htail
    exact hhead.append htail

end

end Node

/-- **The leaves of a document lie side by side from its start to its end.** -/
theorem Document.isTiling_leaves (d : Document) : IsTiling 0 d.width d.leaves := by
  cases d with
  | markup nodes =>
    have hall := Node.isTiling_leavesOfAll [] [] (Item.ofNodes 0 nodes) 0 nodes
    rwa [Nat.zero_add] at hall
  | binary t =>
    have hroles := isTiling_ofTexts none 0 [(.binary, t)]
    rwa [List.flatMap_singleton, Nat.zero_add] at hroles

/-- A document is as wide as its text. -/
theorem Document.width_parse (t : Text) : (parse t).width = t.width := by
  unfold parse
  split
  · rfl
  · rw [width, Node.widthOfAll_eq, Node.textOfAll_ofPieces_ofText]

end ProjectFile.Markup
