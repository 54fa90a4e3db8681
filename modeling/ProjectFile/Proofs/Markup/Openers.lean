import ProjectFile.Proofs.Markup.Frame
import ProjectFile.Proofs.Markup.Leaves

/-!
The leaf at which an element starts.

Every element of a document has a leaf that opens it, which starts where the element does and is
owned by it (`Node.opener_mem_leaves`). Leaves lie side by side, so no other leaf holds that byte
(`Document.find?_leaves_start`): an element is told by the offset at which it starts
(`Document.view_eq_of_start`).
-/

namespace ProjectFile.Markup

/-- Leaves stand behind the offset that they follow. -/
theorem Leaf.IsTiling.le_start {a b : Nat} {ls : List Leaf} (h : IsTiling a b ls) {l : Leaf}
    (hl : l ∈ ls) : a ≤ l.start := by
  induction ls generalizing a with
  | nil => cases hl
  | cons m ls ih =>
    obtain ⟨rfl, hls⟩ := h
    rcases List.mem_cons.1 hl with rfl | hl
    · exact Nat.le_refl _
    · exact Nat.le_trans (Nat.le_add_right _ _) (ih hls hl)

theorem Leaf.IsTiling.le {a b : Nat} {ls : List Leaf} (h : IsTiling a b ls) : a ≤ b := by
  induction ls generalizing a with
  | nil => exact Nat.le_of_eq h
  | cons l ls ih =>
    obtain ⟨rfl, hls⟩ := h
    exact Nat.le_trans (Nat.le_add_right _ _) (ih hls)

/-- No leaf reaches behind the offset that the leaves lead to. -/
theorem Leaf.IsTiling.stop_le {a b : Nat} {ls : List Leaf} (h : IsTiling a b ls) {l : Leaf}
    (hl : l ∈ ls) : l.span.stop ≤ b := by
  induction ls generalizing a with
  | nil => cases hl
  | cons m ls ih =>
    obtain ⟨-, hls⟩ := h
    rcases List.mem_cons.1 hl with rfl | hl
    · exact hls.le
    · exact ih hls hl

/-- The leaf that holds a byte is the one that is found there. -/
theorem Leaf.IsTiling.find?_contains {a b offset : Nat} {ls : List Leaf} (h : IsTiling a b ls)
    {l : Leaf} (hl : l ∈ ls) (hin : l.span.contains offset = true) :
    (ls.find? fun l => l.span.contains offset) = some l := by
  induction ls generalizing a with
  | nil => cases hl
  | cons m ls ih =>
    obtain ⟨-, hls⟩ := h
    rcases List.mem_cons.1 hl with rfl | hl
    · exact List.find?_cons_of_pos hin
    · have hbehind : m.span.stop ≤ l.span.start := hls.le_start hl
      have hnot : ¬ m.span.contains offset = true := by
        rw [Span.contains_iff] at hin ⊢
        omega
      exact (List.find?_cons_of_neg (p := fun l : Leaf => l.span.contains offset) hnot).trans
        (ih hls hl)

/-- The leaf that opens an element, with the view of the element. -/
def Element.opener (e : Element) (v : View) : Leaf := ⟨.startOpener, e.start, e.tag.opener, some v⟩

/-- The first of some texts has a leaf, unless it is empty. -/
theorem Leaf.mem_ofTexts_cons {owner : Option View} {offset : Nat} {role : Role} {t : Text}
    (ht : t ≠ []) (rest : List (Role × Text)) :
    ⟨role, offset, t, owner⟩ ∈ ofTexts owner offset ((role, t) :: rest) := by
  cases t with
  | nil => exact absurd rfl ht
  | cons c t => exact List.mem_cons_self

namespace Node

mutual

/-- The opener of every element in a node is a leaf of the node. -/
theorem opener_mem_leaves {v : View} {e : Element} (hitem : v.item = .element e)
    (enclosing : List Enclosure) (before after : List Item) (offset : Nat) : ∀ n : Node,
    (∀ p ∈ n.pieces, p.Solid) → v ∈ n.views enclosing before after offset →
    e.tag.opener ≠ [] ∧ e.opener v ∈ n.leaves enclosing before after offset
  | .strayEnd tag, _, hv => nomatch hv
  | .run kind t, _, hv => by
    rw [views, Option.mem_toList] at hv
    obtain ⟨k, -, rfl⟩ := Option.map_eq_some_iff.1 hv
    cases hitem
  | .element tag content endTag, hsolid, hv => by
    rw [pieces, List.forall_mem_cons, List.forall_mem_append] at hsolid
    obtain ⟨htag, hcontent, -⟩ := hsolid
    rw [leaves.eq_def]
    rcases List.mem_cons.1 hv with rfl | hv
    · cases hitem
      exact ⟨htag.opener, List.mem_append_left _ (Leaf.mem_ofTexts_cons htag.opener _)⟩
    rcases List.mem_append.1 hv with hv | hv
    · have hattribute := isAttribute_of_mem_viewsOfAll hv
      rw [hitem] at hattribute
      cases hattribute
    · obtain ⟨hopener, hmem⟩ := opener_mem_leavesOfAll hitem _ _ _ _ content hcontent hv
      refine ⟨hopener, ?_⟩
      simp only [List.mem_append]
      exact .inr (.inr (.inr (.inl hmem)))

theorem opener_mem_leavesOfAll {v : View} {e : Element} (hitem : v.item = .element e)
    (enclosing : List Enclosure) (before items : List Item) (offset : Nat) : ∀ ns : List Node,
    (∀ p ∈ piecesOfAll ns, p.Solid) → v ∈ viewsOfAll enclosing before items offset ns →
    e.tag.opener ≠ [] ∧ e.opener v ∈ leavesOfAll enclosing before items offset ns
  | [], _, hv => nomatch hv
  | n :: ns, hsolid, hv => by
    rw [piecesOfAll, List.forall_mem_append] at hsolid
    rw [leavesOfAll, List.mem_append]
    rw [viewsOfAll, List.mem_append] at hv
    rcases hv with hv | hv
    · exact (opener_mem_leaves hitem _ _ _ _ n hsolid.1 hv).imp_right .inl
    · exact (opener_mem_leavesOfAll hitem _ _ _ _ ns hsolid.2 hv).imp_right .inr

end

end Node

namespace Document

variable {t : Text} {v w : View} {e f : Element}

/-- Every element of a document has its opener among the leaves. -/
theorem opener_mem_leaves (hv : v ∈ (parse t).views) (hitem : v.item = .element e) :
    e.tag.opener ≠ [] ∧ e.opener v ∈ (parse t).leaves := by
  cases hbinary : isBinary t with
  | true =>
    rw [parse, hbinary] at hv
    cases hv
  | false =>
    rw [parse, hbinary] at hv ⊢
    refine Node.opener_mem_leavesOfAll hitem [] [] _ 0 (Node.ofPieces (Piece.ofText t)) ?_ hv
    rw [Node.piecesOfAll_ofPieces]
    exact Piece.solid_ofText t

/-- **The byte at which an element starts is held by its opener.** -/
theorem find?_leaves_start (hv : v ∈ (parse t).views) (hitem : v.item = .element e) :
    ((parse t).leaves.find? fun l => l.span.contains e.start) = some (e.opener v) := by
  have hmem := opener_mem_leaves hv hitem
  refine (isTiling_leaves (parse t)).find?_contains hmem.2 ?_
  have hpos : 0 < e.tag.opener.width :=
    Nat.pos_of_ne_zero fun hzero => hmem.1 (Text.width_eq_zero.1 hzero)
  exact Span.contains_iff.2 ⟨Nat.le_refl _, Nat.lt_add_of_pos_right hpos⟩

theorem start_le_width (hv : v ∈ (parse t).views) (hitem : v.item = .element e) :
    e.start ≤ (parse t).width :=
  Nat.le_trans (Nat.le_add_right _ _) ((isTiling_leaves (parse t)).stop_le
    (opener_mem_leaves hv hitem).2)

/-- Elements that start at the same offset are the same, and seen with the same around them. -/
theorem view_eq_of_start (hv : v ∈ (parse t).views) (hw : w ∈ (parse t).views)
    (hitem : v.item = .element e) (hitem' : w.item = .element f) (hstart : e.start = f.start) :
    v = w := by
  have hfind := find?_leaves_start hv hitem
  rw [hstart, find?_leaves_start hw hitem', Option.some.injEq] at hfind
  simpa [Element.opener] using (congrArg Leaf.owner hfind).symm

end Document

end ProjectFile.Markup
