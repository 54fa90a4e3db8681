import ProjectFile.Proofs.Editor.Embedded
import ProjectFile.Proofs.Markup.Openers

/-!
The values of attributes as the editor finds them.

The tokens of an attribute are leaves of the document, owned by its view (`Node.roles_subset_leaves`).
The byte before an offset in a value, at its ends too, is of the value or of the quote in front of it
(`exists_leaf_before`), and typing behind either makes the value longer, so this is the leaf that the
offset is resolved to: the location is on the value, and what is read there is all of it
(`embedded?_of_touches`).
-/

namespace ProjectFile

namespace Markup

/-! ## Leaves -/

/-- The leaf that holds the byte before an offset is the one that is found there. -/
theorem Leaf.IsTiling.find?_before {a b offset : Nat} {ls : List Leaf} (h : IsTiling a b ls)
    {l : Leaf} (hl : l ∈ ls) (hstart : l.span.start < offset) (hstop : offset ≤ l.span.stop) :
    (ls.find? fun l => l.span.start < offset && offset ≤ l.span.stop) = some l := by
  have hin : (decide (l.span.start < offset) && decide (offset ≤ l.span.stop)) = true := by
    rw [decide_eq_true hstart, decide_eq_true hstop]
    rfl
  induction ls generalizing a with
  | nil => cases hl
  | cons m ls ih =>
    obtain ⟨-, hls⟩ := h
    rcases List.mem_cons.1 hl with rfl | hl
    · exact List.find?_cons_of_pos hin
    · have hbehind : m.span.stop ≤ l.span.start := hls.le_start hl
      have hnot : ¬ offset ≤ m.span.stop := by omega
      rw [List.find?_cons_of_neg (by simp [hnot])]
      exact ih hls hl

/-- The leaves of a list of texts behind others stand where these end. -/
theorem Leaf.subset_ofTexts_append (owner : Option View) (start : Nat) (xs ys : List (Role × Text)) :
    ofTexts owner (start + Text.width (xs.flatMap Prod.snd)) ys ⊆ ofTexts owner start (xs ++ ys) := by
  rw [Editor.ofTexts_append]
  exact List.subset_append_right _ _

/-- The leaves of an attribute, with its view. -/
def PlacedAttribute.leaves (a : PlacedAttribute) (v : View) : List Leaf :=
  Leaf.ofTexts (some v) a.start a.attr.roles

theorem TagItem.roles_subset_leaves {v : View} {a : PlacedAttribute} (hitem : v.item = .attribute a)
    {enclosing : List Enclosure} {before : List Item} {offset : Nat} {items : List TagItem}
    (hv : v ∈ viewsOfAll enclosing before offset items) :
    a.leaves v ⊆ leavesOfAll enclosing before offset items := by
  induction items generalizing before offset with
  | nil => cases hv
  | cons i items ih =>
    match i with
    | .attribute b =>
      rw [leavesOfAll]
      rcases List.mem_cons.1 hv with rfl | hv
      · cases hitem
        exact List.subset_append_left _ _
      · exact List.subset_append_of_subset_right _ (ih hv)
    | .filler f =>
      rw [leavesOfAll]
      exact List.subset_append_of_subset_right _ (ih hv)

namespace Node

mutual

/-- The leaves of every attribute in a node are leaves of the node. -/
theorem roles_subset_leaves {v : View} {a : PlacedAttribute} (hitem : v.item = .attribute a)
    (enclosing : List Enclosure) (before after : List Item) (offset : Nat) : ∀ n : Node,
    v ∈ n.views enclosing before after offset → a.leaves v ⊆ n.leaves enclosing before after offset
  | .strayEnd tag, hv => nomatch hv
  | .run kind t, hv => by
    rw [views, Option.mem_toList] at hv
    obtain ⟨k, -, rfl⟩ := Option.map_eq_some_iff.1 hv
    cases hitem
  | .element tag content endTag, hv => by
    rw [leaves.eq_def]
    rcases List.mem_cons.1 hv with rfl | hv
    · cases hitem
    refine List.subset_append_of_subset_right _ ?_
    rcases List.mem_append.1 hv with hv | hv
    · exact List.subset_append_of_subset_left _ (TagItem.roles_subset_leaves hitem hv)
    · have hinside := roles_subset_leavesOfAll hitem _ _ _ _ content hv
      exact List.subset_append_of_subset_right _ (List.subset_append_of_subset_right _
        (List.subset_append_of_subset_left _ hinside))

theorem roles_subset_leavesOfAll {v : View} {a : PlacedAttribute} (hitem : v.item = .attribute a)
    (enclosing : List Enclosure) (before items : List Item) (offset : Nat) : ∀ ns : List Node,
    v ∈ viewsOfAll enclosing before items offset ns →
      a.leaves v ⊆ leavesOfAll enclosing before items offset ns
  | [], hv => nomatch hv
  | n :: ns, hv => by
    rw [leavesOfAll]
    rw [viewsOfAll, List.mem_append] at hv
    rcases hv with hv | hv
    · exact List.subset_append_of_subset_left _ (roles_subset_leaves hitem _ _ _ _ n hv)
    · exact List.subset_append_of_subset_right _ (roles_subset_leavesOfAll hitem _ _ _ _ ns hv)

end

end Node

theorem Document.roles_subset_leaves {t : Text} {v : View} {a : PlacedAttribute}
    (hv : v ∈ (parse t).views) (hitem : v.item = .attribute a) : a.leaves v ⊆ (parse t).leaves := by
  cases hbinary : isBinary t with
  | true =>
    rw [parse, hbinary] at hv
    cases hv
  | false =>
    rw [parse, hbinary] at hv ⊢
    exact Node.roles_subset_leavesOfAll hitem [] [] _ 0 (Node.ofPieces (Piece.ofText t)) hv

/-! ## The leaf before an offset in a value -/

/-- The byte before an offset in a value is of the value, or is the quote in front of it. -/
theorem PlacedAttribute.exists_leaf_before {a : PlacedAttribute} {s : Span} {offset : Nat}
    (hs : a.valueSpan = some s) (hin : s.touches offset = true) (v : View) :
    ∃ l ∈ a.leaves v, l.owner = some v ∧ l.span.start < offset ∧ offset ≤ l.span.stop ∧
      (l.role = .valueText ∨ l.role = .openingQuote ∧ offset = l.span.stop) := by
  obtain ⟨hstart, hstop⟩ := Span.touches_iff.1 hin
  rw [valueSpan] at hs
  split at hs
  · next before after q hassignment =>
    obtain rfl := Option.some.inj hs
    let front : List (Role × Text) := [(.attributeName, a.attr.name), (.attributeSpace, before),
      (.attributeEquals, ['=']), (.attributeSpace, after)]
    let closing : Text := if q.closed then [q.quote] else []
    have hroles : a.attr.roles =
        front ++ [(.openingQuote, [q.quote]), (.valueText, q.body), (.closingQuote, closing)] := by
      rw [Attribute.roles, hassignment]
      rfl
    have hwidth : a.start + Text.width (front.flatMap Prod.snd) =
        a.nameSpan.stop + before.width + 1 + after.width := by
      have hequals : Text.width ['='] = 1 := rfl
      simp only [front, List.flatMap_cons, List.flatMap_nil, List.append_nil, Text.width_append,
        hequals, nameSpan, Span.ofSize]
      omega
    have hsubset := Leaf.subset_ofTexts_append (some v) a.start front
      [(.openingQuote, [q.quote]), (.valueText, q.body), (.closingQuote, closing)]
    rw [← hroles, hwidth] at hsubset
    have hsize : Text.width [q.quote] = q.quote.utf8Size := rfl
    have hpos := q.quote.utf8Size_pos
    dsimp only [Span.ofSize] at hstart hstop
    rcases Nat.lt_or_ge (a.nameSpan.stop + before.width + 1 + after.width + q.quote.utf8Size) offset
      with hbehind | hfirst
    · have hbody : q.body ≠ [] := by
        intro hnil
        rw [hnil, Text.width_nil] at hstop
        omega
      refine ⟨⟨.valueText, _, q.body, some v⟩, hsubset (List.mem_append_right _
        (Leaf.mem_ofTexts_cons hbody _)), rfl, ?_, ?_, .inl rfl⟩
      · rw [hsize]
        exact hbehind
      · rw [hsize]
        exact hstop
    · refine ⟨⟨.openingQuote, _, [q.quote], some v⟩,
        hsubset (Leaf.mem_ofTexts_cons (List.cons_ne_nil _ _) _), rfl, ?_, ?_, .inr ⟨rfl, ?_⟩⟩
      · show a.nameSpan.stop + before.width + 1 + after.width < offset
        omega
      · show offset ≤ a.nameSpan.stop + before.width + 1 + after.width + Text.width [q.quote]
        omega
      · show offset = a.nameSpan.stop + before.width + 1 + after.width + Text.width [q.quote]
        omega
  · cases hs

end Markup

namespace Editor

open Markup Expression

variable {t : Text} {v : View} {a : PlacedAttribute} {s : Span} {offset : Nat}

/-! ## Locations in a value -/

/-- **At every offset in a value, its ends included, the location is on it.** -/
theorem inspect_of_touches (hv : v ∈ (Document.parse t).views) (hitem : v.item = .attribute a)
    (hs : a.valueSpan = some s) (hin : s.touches offset = true) :
    let l := inspect (Document.parse t) offset
    l.offset = offset ∧ l.kind = .attributeValue ∧ l.node = some v := by
  intro l
  obtain ⟨leaf, hleaf, howner, hstart, hstop, hrole⟩ := a.exists_leaf_before hs hin v
  have hmem := Document.roles_subset_leaves hv hitem hleaf
  have htiling := Document.isTiling_leaves (Document.parse t)
  have hoffset : l.offset = offset :=
    Nat.min_eq_left (Nat.le_trans hstop (htiling.stop_le hmem))
  have hleft : l.left = some leaf := by
    have hfound := htiling.find?_before hmem hstart hstop
    rw [← hoffset] at hfound
    exact hfound
  have hextendable : isExtendable leaf = true := by
    rw [isExtendable, Leaf.kind]
    rcases hrole with hrole | ⟨hrole, -⟩
    · rw [hrole]
      rfl
    · rw [hrole]
      rfl
  have hchosen : l.leaf = some leaf := by
    have hchoose : l.leaf = chooseLeaf l.left l.right := rfl
    rw [hchoose, hleft]
    cases l.right with
    | none => rfl
    | some right => exact if_pos hextendable
  have hclass : classify leaf l.offset = (.attributeValue, some v) := by
    rw [classify, hoffset, howner]
    rcases hrole with hrole | ⟨hrole, hend⟩
    · rw [hrole]
    · rw [hrole]
      dsimp only
      rw [if_pos (beq_iff_eq.2 hend)]
  have hanswer := answer_inspect (Document.parse t) offset
  dsimp only at hanswer hchosen
  rw [hchosen] at hanswer
  exact ⟨hoffset, Prod.mk.inj (hanswer.trans hclass)⟩

/-- So what is read there is the value. -/
theorem embedded?_of_touches (hv : v ∈ (Document.parse t).views) (hitem : v.item = .attribute a)
    (hs : a.valueSpan = some s) {w : Text} (hvalue : a.value = some w)
    (hin : s.touches offset = true) : (inspect (Document.parse t) offset).embedded? =
      some ⟨w, s.start, Text.sameName a.name "Condition".toList⟩ := by
  obtain ⟨-, hkind, hnode⟩ := inspect_of_touches hv hitem hs hin
  rw [Location.embedded?, hkind, hnode, Option.map_some, hitem]
  dsimp only
  rw [hvalue, hs]

end Editor

end ProjectFile
