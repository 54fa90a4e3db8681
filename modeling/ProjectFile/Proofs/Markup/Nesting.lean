import ProjectFile.Markup.Node
import ProjectFile.Proofs.Markup.Scan

/-!
How nodes are put together from pieces.

1. `Node.piecesOfAll_ofPieces`: the nodes of a document hold exactly its pieces, in order. Whatever
   end tags are missing or astray, no piece is dropped, doubled or moved.
2. `Node.nestedAll_ofPieces`: the nodes follow the rules of nesting, `Node.Nested`. An end tag
   belongs to the element that it names, or to the one around it if it names none; an element
   without one stands where the end tag of an element around it follows, or nothing at all; and an
   end tag that belongs to no element names none of those around it.

Both are invariants of the draft: `Draft.pieces` reads back the pieces taken in so far, and
`Draft.Nested` says that what is finished follows the rules and nothing finished is still open.
-/

namespace ProjectFile.Markup

/-! ## The pieces of a node -/

namespace Node

mutual

/-- The pieces of a node, in order. -/
def pieces : Node → List Piece
  | .element tag content endTag =>
    .start tag :: (piecesOfAll content ++ (endTag.map Piece.stop).toList)
  | .strayEnd tag => [.stop tag]
  | .run kind t => [.run kind t]

/-- The pieces of nodes that follow one another. -/
def piecesOfAll : List Node → List Piece
  | [] => []
  | n :: ns => n.pieces ++ piecesOfAll ns

end

theorem piecesOfAll_append (ms ns : List Node) :
    piecesOfAll (ms ++ ns) = piecesOfAll ms ++ piecesOfAll ns := by
  induction ms with
  | nil => rfl
  | cons m ms ih => simp [piecesOfAll, ih]

mutual

theorem text_eq : ∀ n : Node, n.text = n.pieces.flatMap Piece.text
  | .element tag content endTag => by
    cases endTag <;> simp [text, pieces, Piece.text, textOfAll_eq content]
  | .strayEnd tag => by simp [text, pieces, Piece.text]
  | .run kind t => by simp [text, pieces, Piece.text]

/-- Nodes have the text of their pieces. -/
theorem textOfAll_eq : ∀ ns : List Node, textOfAll ns = (piecesOfAll ns).flatMap Piece.text
  | [] => rfl
  | n :: ns => by simp [textOfAll, piecesOfAll, text_eq n, textOfAll_eq ns]

end

end Node

/-! ## The pieces of a draft -/

namespace Draft

/-- The pieces that open elements stand for, with those of the siblings before each. -/
def openPieces : List OpenElement → List Piece
  | [] => []
  | o :: outer => openPieces outer ++ (Node.piecesOfAll o.before.reverse ++ [.start o.tag])

/-- The pieces that a draft has taken in. -/
def pieces (d : Draft) : List Piece := openPieces d.opened ++ Node.piecesOfAll d.done.reverse

theorem pieces_add (d : Draft) (n : Node) : (d.add n).pieces = d.pieces ++ n.pieces := by
  simp [pieces, add, Node.piecesOfAll_append, Node.piecesOfAll]

theorem pieces_openElement (d : Draft) (tag : StartTag) :
    (d.openElement tag).pieces = d.pieces ++ [.start tag] := by
  simp [pieces, openElement, openPieces, Node.piecesOfAll]

theorem pieces_close_none (d : Draft) : (d.close none).pieces = d.pieces := by
  unfold close
  split
  · rfl
  · next o outer h =>
    simp [pieces, h, openPieces, Node.piecesOfAll_append, Node.piecesOfAll, Node.pieces]

theorem pieces_close_some {d : Draft} (h : d.opened ≠ []) (tag : EndTag) :
    (d.close (some tag)).pieces = d.pieces ++ [.stop tag] := by
  unfold close
  split
  · next hnil => exact absurd hnil h
  · next o outer h =>
    simp [pieces, h, openPieces, Node.piecesOfAll_append, Node.piecesOfAll, Node.pieces]

theorem pieces_abandon (n : Nat) (d : Draft) : (d.abandon n).pieces = d.pieces := by
  induction n generalizing d with
  | zero => rfl
  | succ n ih => rw [abandon, ih, pieces_close_none]

theorem opened_close (d : Draft) (endTag : Option EndTag) :
    (d.close endTag).opened = d.opened.tail := by
  unfold close
  split <;> simp [*]

theorem opened_abandon (n : Nat) (d : Draft) : (d.abandon n).opened = d.opened.drop n := by
  induction n generalizing d with
  | zero => rfl
  | succ n ih => rw [abandon, ih, opened_close, List.drop_tail]

/-- An end tag without a name closes the innermost element, and one with a name the innermost
element of that name. -/
theorem depthOf_eq_some {d : Draft} {name : Option Text} {depth : Nat}
    (h : d.depthOf name = some depth) :
    ∃ o outer, d.opened.drop depth = o :: outer ∧ (name = none ∨ name = o.tag.name) ∧
      ∀ a ∈ d.opened.take depth, name ≠ none ∧ name ≠ a.tag.name := by
  unfold depthOf at h
  cases name with
  | none =>
    cases hopen : d.opened with
    | nil => simp [hopen] at h
    | cons o outer =>
      have hzero : 0 = depth := by simpa [hopen] using h
      subst hzero
      exact ⟨o, outer, rfl, .inl rfl, by simp⟩
  | some n =>
    obtain ⟨hlt, hname, hbefore⟩ := List.findIdx?_eq_some_iff_getElem.1 h
    refine ⟨d.opened[depth], d.opened.drop (depth + 1), List.drop_eq_getElem_cons hlt, .inr ?_, ?_⟩
    · exact (beq_iff_eq.1 hname).symm
    · intro a ha
      obtain ⟨i, hi, rfl⟩ := List.mem_take_iff_getElem.1 ha
      refine ⟨by simp, fun heq => ?_⟩
      exact hbefore i (by omega) (beq_iff_eq.2 heq.symm)

/-- An end tag that closes nothing names no open element, and may be without a name only where no
element is open. -/
theorem depthOf_eq_none {d : Draft} {name : Option Text} (h : d.depthOf name = none) :
    ∀ o ∈ d.opened, name ≠ none ∧ name ≠ o.tag.name := by
  intro o ho
  unfold depthOf at h
  cases name with
  | none =>
    cases hopen : d.opened with
    | nil => rw [hopen] at ho; cases ho
    | cons _ _ => simp [hopen] at h
  | some n =>
    refine ⟨by simp, fun heq => ?_⟩
    have := List.findIdx?_eq_none_iff.1 h o ho
    simp [← heq] at this

/-- **Taking in a piece adds it to the pieces of the draft.** -/
theorem pieces_step (d : Draft) (p : Piece) : (d.step p).pieces = d.pieces ++ [p] := by
  cases p with
  | run kind t => exact pieces_add d _
  | start tag =>
    rw [step]
    split
    · exact pieces_openElement d tag
    · rw [pieces_add]
      simp [Node.pieces, Node.piecesOfAll]
  | stop tag =>
    rw [step]
    split
    · exact pieces_add d _
    · next depth hdepth =>
      obtain ⟨o, outer, hdrop, -, -⟩ := depthOf_eq_some hdepth
      rw [pieces_close_some (by rw [opened_abandon, hdrop]; simp), pieces_abandon]

theorem pieces_foldl (ps : List Piece) (d : Draft) :
    (ps.foldl step d).pieces = d.pieces ++ ps := by
  induction ps generalizing d with
  | nil => simp
  | cons p ps ih => rw [List.foldl_cons, ih, pieces_step, List.append_assoc, List.singleton_append]

theorem piecesOfAll_finish (d : Draft) : Node.piecesOfAll d.finish = d.pieces := by
  have h := pieces_abandon d.opened.length d
  rw [pieces, opened_abandon, List.drop_length] at h
  exact h

end Draft

/-- **The nodes of a document hold exactly its pieces, in order.** -/
theorem Node.piecesOfAll_ofPieces (ps : List Piece) : piecesOfAll (ofPieces ps) = ps := by
  rw [ofPieces, Draft.piecesOfAll_finish, Draft.pieces_foldl]
  rfl

/-- The nodes that a text is read as have its text. -/
theorem Node.textOfAll_ofPieces_ofText (t : Text) : textOfAll (ofPieces (Piece.ofText t)) = t := by
  rw [textOfAll_eq, piecesOfAll_ofPieces, Piece.flatMap_text_ofText]

/-! ## The rules of nesting -/

/-- What comes right after a node: something else inside the element around it, an end tag of an
element around it, or the end of the text. -/
inductive Next where
  | sibling
  | endTag (name : Option Text)
  | nothing

/-- Whether an element of the given name may lack its end tag there. -/
def Next.Leaves (name : Option Text) : Next → Prop
  | .sibling => False
  | .endTag n => n ≠ none ∧ n ≠ name
  | .nothing => True

mutual

/-- Whether the end tags in a node are where the rules of nesting put them. The start tags of the
elements around the node are `around`, and `next` comes right after it. -/
def Node.Nested (around : List StartTag) (next : Next) : Node → Prop
  | .element tag content (some closer) =>
    tag.opens = true ∧ (closer.name = none ∨ closer.name = tag.name) ∧
      Node.NestedAll (tag :: around) (.endTag closer.name) content
  | .element tag content none =>
    if tag.opens then next.Leaves tag.name ∧ Node.NestedAll (tag :: around) next content
    else content = []
  | .strayEnd tag => ∀ a ∈ around, tag.name ≠ none ∧ tag.name ≠ a.name
  | .run _ _ => True

/-- Whether nodes that follow one another are nested, with `next` right after the last. -/
def Node.NestedAll (around : List StartTag) (next : Next) : List Node → Prop
  | [] => True
  | n :: ns => n.Nested around (if ns.isEmpty then next else .sibling) ∧
      Node.NestedAll around next ns

end

namespace Node

/-- What may stand before a sibling may stand before anything. -/
theorem Nested.of_sibling {around : List StartTag} {n : Node} (h : n.Nested around .sibling)
    (next : Next) : n.Nested around next := by
  cases n with
  | strayEnd tag => exact h
  | run kind t => trivial
  | element tag content endTag =>
    cases endTag with
    | some closer => exact h
    | none =>
      by_cases hopens : tag.opens = true
      · rw [Nested, if_pos hopens] at h
        exact h.1.elim
      · rw [Nested, if_neg hopens] at h ⊢
        exact h

theorem nestedAll_append_singleton {around : List StartTag} {next : Next} {ns : List Node}
    {n : Node} :
    NestedAll around next (ns ++ [n]) ↔ NestedAll around .sibling ns ∧ n.Nested around next := by
  induction ns with
  | nil => simp [NestedAll]
  | cons m ns ih =>
    have hm : (if ns.isEmpty then Next.sibling else .sibling) = .sibling := ite_self _
    simp only [List.cons_append, NestedAll, ih, hm]
    simp [and_assoc]

theorem NestedAll.of_sibling {around : List StartTag} {ns : List Node}
    (h : NestedAll around .sibling ns) (next : Next) : NestedAll around next ns := by
  induction ns with
  | nil => trivial
  | cons n ns ih =>
    refine ⟨?_, ih h.2⟩
    cases ns with
    | nil => exact h.1.of_sibling next
    | cons m ns => exact h.1

theorem NestedAll.of_mem {around : List StartTag} {next : Next} {n : Node} {ns : List Node}
    (h : NestedAll around next ns) (hn : n ∈ ns) : ∃ next', n.Nested around next' := by
  induction ns with
  | nil => cases hn
  | cons m ns ih =>
    rcases List.mem_cons.1 hn with rfl | hn
    · exact ⟨_, h.1⟩
    · exact ih h.2 hn

/-- In a nested element only a start tag that opens it has content and an end tag behind it. -/
theorem Nested.inside {around : List StartTag} {next : Next} {tag : StartTag} {content : List Node}
    {endTag : Option EndTag} (h : (element tag content endTag).Nested around next) :
    (∃ next', NestedAll (tag :: around) next' content) ∧
      (tag.ending = .content ∨ content = [] ∧ endTag = none) := by
  have hending (hopens : tag.opens = true) : tag.ending = .content := by
    rw [StartTag.opens, Bool.and_eq_true, beq_iff_eq] at hopens
    exact hopens.2
  cases endTag with
  | some closer =>
    obtain ⟨hopens, -, hcontent⟩ := h
    exact ⟨⟨_, hcontent⟩, .inl (hending hopens)⟩
  | none =>
    rw [Nested] at h
    split at h
    · next hopens => exact ⟨⟨_, h.2⟩, .inl (hending hopens)⟩
    · next hopens =>
      subst h
      exact ⟨⟨next, trivial⟩, .inr ⟨rfl, rfl⟩⟩

end Node

namespace Draft

/-- Whether open elements and what stands before each follow the rules of nesting. -/
def OpenNested : List OpenElement → Prop
  | [] => True
  | o :: outer =>
    o.tag.opens = true ∧
      Node.NestedAll (outer.map OpenElement.tag) .sibling o.before.reverse ∧ OpenNested outer

/-- A draft that follows the rules of nesting if `next` comes after it. -/
structure Nested (next : Next) (d : Draft) : Prop where
  opened : OpenNested d.opened
  done : Node.NestedAll (d.opened.map OpenElement.tag) next d.done.reverse

theorem nested_empty : empty.Nested .sibling := ⟨trivial, trivial⟩

theorem Nested.of_sibling {d : Draft} (h : d.Nested .sibling) (next : Next) : d.Nested next :=
  ⟨h.opened, h.done.of_sibling next⟩

theorem Nested.add {d : Draft} {next : Next} {n : Node} (h : d.Nested .sibling)
    (hn : n.Nested (d.opened.map OpenElement.tag) next) : (d.add n).Nested next where
  opened := h.opened
  done := by
    rw [Draft.add, List.reverse_cons]
    exact Node.nestedAll_append_singleton.2 ⟨h.done, hn⟩

/-- An open element that is closed is added to the draft around it. -/
theorem Nested.close {d : Draft} {o : OpenElement} {outer : List OpenElement} {next : Next}
    {endTag : Option EndTag} (hopened : OpenNested d.opened) (hd : d.opened = o :: outer)
    (hn : (Node.element o.tag d.done.reverse endTag).Nested (outer.map OpenElement.tag) next) :
    (d.close endTag).Nested next := by
  rw [hd] at hopened
  obtain ⟨-, hbefore, houter⟩ := hopened
  have hclose : d.close endTag = (Draft.mk outer o.before).add (.element o.tag d.done.reverse endTag) := by
    simp [Draft.close, hd, Draft.add]
  rw [hclose]
  exact Nested.add ⟨houter, hbefore⟩ hn

theorem Nested.close_none {d : Draft} {next : Next} (h : d.Nested next)
    (hleaves : ∀ o ∈ d.opened.head?, next.Leaves o.tag.name) : (d.close none).Nested next := by
  cases hd : d.opened with
  | nil =>
    have hclose : d.close none = d := by simp [Draft.close, hd]
    rwa [hclose]
  | cons o outer =>
    apply Nested.close h.opened hd
    have hopens := h.opened
    have hdone := h.done
    rw [hd] at hopens hdone
    rw [Node.Nested, if_pos hopens.1]
    exact ⟨hleaves o (by simp [hd]), hdone⟩

theorem Nested.close_some {d : Draft} {closer : EndTag} {o : OpenElement}
    {outer : List OpenElement} (h : d.Nested (.endTag closer.name)) (hd : d.opened = o :: outer)
    (hname : closer.name = none ∨ closer.name = o.tag.name) :
    (d.close (some closer)).Nested .sibling := by
  apply Nested.close h.opened hd
  have hopens := h.opened
  have hdone := h.done
  rw [hd] at hopens hdone
  exact ⟨hopens.1, hname, hdone⟩

theorem Nested.abandon {next : Next} (n : Nat) {d : Draft} (h : d.Nested next)
    (hleaves : ∀ o ∈ d.opened.take n, next.Leaves o.tag.name) : (d.abandon n).Nested next := by
  induction n generalizing d with
  | zero => exact h
  | succ n ih =>
    refine ih (h.close_none ?_) ?_
    · intro o ho
      apply hleaves o
      cases hd : d.opened with
      | nil => simp [hd] at ho
      | cons p outer =>
        have hop : p = o := by simpa [hd] using ho
        simp [hop]
    · intro o ho
      apply hleaves o
      rw [opened_close] at ho
      cases hd : d.opened with
      | nil => simp [hd] at ho
      | cons p outer =>
        rw [hd] at ho
        exact List.mem_cons_of_mem p ho

/-- **Taking in a piece keeps to the rules of nesting.** -/
theorem Nested.step {d : Draft} (h : d.Nested .sibling) (p : Piece) : (d.step p).Nested .sibling := by
  cases p with
  | run kind t => exact h.add trivial
  | start tag =>
    rw [Draft.step]
    split
    · next hopens => exact ⟨⟨hopens, h.done, h.opened⟩, trivial⟩
    · next hopens =>
      apply h.add
      rw [Node.Nested, if_neg hopens]
  | stop tag =>
    rw [Draft.step]
    split
    · next hdepth =>
      apply h.add
      intro a ha
      obtain ⟨o, ho, rfl⟩ := List.mem_map.1 ha
      exact depthOf_eq_none hdepth o ho
    · next depth hdepth =>
      obtain ⟨o, outer, hdrop, hname, hbefore⟩ := depthOf_eq_some hdepth
      -- For every element left behind, the end tag is what comes next.
      have habandon := (h.of_sibling (.endTag tag.name)).abandon depth hbefore
      exact habandon.close_some (by rw [opened_abandon, hdrop]) hname

theorem Nested.foldl {d : Draft} (h : d.Nested .sibling) (ps : List Piece) :
    (ps.foldl Draft.step d).Nested .sibling := by
  induction ps generalizing d with
  | nil => exact h
  | cons p ps ih => exact ih (h.step p)

theorem Nested.finish {d : Draft} (h : d.Nested .sibling) : Node.NestedAll [] .nothing d.finish := by
  -- What is still open at the end of the text has nothing after it.
  have hall := ((h.of_sibling .nothing).abandon d.opened.length fun _ _ => trivial).done
  rw [opened_abandon, List.drop_length] at hall
  exact hall

end Draft

/-- **The nodes of a document follow the rules of nesting.** -/
theorem Node.nestedAll_ofPieces (ps : List Piece) : NestedAll [] .nothing (ofPieces ps) :=
  (Draft.nested_empty.foldl ps).finish

end ProjectFile.Markup
