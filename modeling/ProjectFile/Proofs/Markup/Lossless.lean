import ProjectFile.Markup.Problem
import ProjectFile.Proofs.Markup.Nesting
import ProjectFile.Proofs.Markup.Site
import ProjectFile.Proofs.Text.Cuts

/-!
Nothing of a text is lost, and everything said about it stands somewhere in it.

What is proved of every text:

1. the leaves of its concrete tree, joined in order, are the text, and none of them is empty;
2. in the outline of the tree, the span of the document is the whole text, every leaf stands where
   its text does, and the lines one deeper than that of a branch, up to the next line that is not
   deeper, have spans that follow one another and together are the span of the branch;
3. every error has a span that starts before it stops, inside the text, with whole characters
   before both ends.

For the third, the errors are computed along the nodes with the text that is still to come
(`Node.allCut_errors`): an element that lacks its end tag is complained about at the end tag
that follows it, and by the rules of nesting there is one, unless the text is at its end.
-/

namespace ProjectFile

namespace Markup

open Concrete (leafUnlessEmpty)

/-! ## Leaves -/

namespace Concrete

mutual

theorem flatMap_leaves : ∀ c : Concrete, c.leaves.flatMap Prod.snd = c.text
  | .leaf kind t => by simp [leaves, text]
  | .branch kind children => by rw [leaves, text, flatMap_leavesOfAll children]

/-- The leaves of a tree, joined, are its text. -/
theorem flatMap_leavesOfAll : ∀ cs : List Concrete,
    (leavesOfAll cs).flatMap Prod.snd = textOfAll cs
  | [] => rfl
  | c :: cs => by
    rw [leavesOfAll, textOfAll, List.flatMap_append, flatMap_leaves c, flatMap_leavesOfAll cs]

end

/-- Whether no leaf of some trees is empty. -/
def Filled (cs : List Concrete) : Prop := ∀ l ∈ leavesOfAll cs, l.2 ≠ []

theorem filled_nil : Filled [] := by simp [Filled, leavesOfAll]

theorem filled_append {cs ds : List Concrete} : Filled (cs ++ ds) ↔ Filled cs ∧ Filled ds := by
  rw [Filled, leavesOfAll_append, List.forall_mem_append]
  rfl

theorem filled_cons {c : Concrete} {cs : List Concrete} :
    Filled (c :: cs) ↔ Filled [c] ∧ Filled cs := @filled_append [c] cs

theorem filled_leaf {kind : LeafKind} {t : Text} : Filled [.leaf kind t] ↔ t ≠ [] := by
  simp [Filled, leavesOfAll, leaves]

theorem filled_branch {kind : BranchKind} {cs : List Concrete} :
    Filled [.branch kind cs] ↔ Filled cs := by
  simp [Filled, leavesOfAll, leaves]

theorem filled_leafUnlessEmpty (kind : LeafKind) (t : Text) : Filled (leafUnlessEmpty kind t) := by
  unfold leafUnlessEmpty
  split
  · exact filled_nil
  · next h => exact filled_leaf.2 fun hnil => h (List.isEmpty_iff.2 hnil)

theorem filled_map {α : Type} {tree : α → Concrete} {as : List α}
    (h : ∀ a ∈ as, Filled [tree a]) : Filled (as.map tree) := by
  induction as with
  | nil => exact filled_nil
  | cons a as ih =>
    rw [List.forall_mem_cons] at h
    exact filled_cons.2 ⟨h.1, ih h.2⟩

end Concrete

open Concrete (Filled filled_append filled_cons filled_leaf filled_branch filled_nil)

theorem Assignment.filled_concrete (a : Assignment) : Filled a.concrete := by
  have hspace := Concrete.filled_leafUnlessEmpty .space
  cases a with
  | absent => exact filled_nil
  | bare before => exact filled_append.2 ⟨hspace before, filled_leaf.2 (by simp)⟩
  | value before after quoted =>
    have hquoted : Filled [quoted.concrete] := by
      refine filled_branch.2 (filled_cons.2 ⟨filled_leaf.2 (by simp), filled_append.2 ⟨?_, ?_⟩⟩)
      · exact Concrete.filled_leafUnlessEmpty _ _
      · split
        · exact filled_leaf.2 (by simp)
        · exact filled_nil
    exact filled_append.2 ⟨hspace before, filled_cons.2 ⟨filled_leaf.2 (by simp),
      filled_append.2 ⟨hspace after, hquoted⟩⟩⟩

theorem Filler.filled_concrete : ∀ {f : Filler}, f.text ≠ [] → Filled [f.concrete]
  | .space _, h => filled_leaf.2 h
  | .junk _, h => filled_branch.2 (filled_leaf.2 h)

theorem TagItem.filled_concrete : ∀ {i : TagItem}, i.Solid → Filled [i.concrete]
  | .attribute a, h => filled_branch.2 (filled_cons.2 ⟨filled_leaf.2 h, a.assignment.filled_concrete⟩)
  | .filler _, h => Filler.filled_concrete h

theorem filled_nameLeaf {name : Option Text} (h : name ≠ some []) : Filled (nameLeaf name) := by
  cases name with
  | none => exact filled_nil
  | some n => exact filled_leaf.2 fun hnil => h (congrArg some hnil)

theorem StartTag.filled_concrete {tag : StartTag} (h : tag.Solid) : Filled [tag.concrete] := by
  refine filled_branch.2 (filled_cons.2 ⟨filled_leaf.2 h.opener, ?_⟩)
  refine filled_append.2 ⟨filled_append.2 ⟨filled_nameLeaf h.name, ?_⟩, ?_⟩
  · exact Concrete.filled_map fun i hi => TagItem.filled_concrete (h.items i hi)
  · cases tag.ending with
    | content => exact filled_leaf.2 (by simp)
    | selfClosed => exact filled_leaf.2 (by simp)
    | missing => exact filled_nil

theorem EndTag.filled_concrete {tag : EndTag} (h : tag.Solid) : Filled [tag.concrete] := by
  refine filled_branch.2 (filled_cons.2 ⟨filled_leaf.2 (by simp [EndTag.opener]), ?_⟩)
  refine filled_append.2 ⟨filled_append.2 ⟨filled_nameLeaf h.name, ?_⟩, ?_⟩
  · exact Concrete.filled_map fun f hf => Filler.filled_concrete (h.fillers f hf)
  · split
    · exact filled_leaf.2 (by simp)
    · exact filled_nil

mutual

theorem Node.filled_concrete : ∀ n : Node, (∀ p ∈ n.pieces, p.Solid) → Filled [n.concrete]
  | .run kind t, h => filled_branch.2 (filled_leaf.2 (h _ List.mem_cons_self))
  | .strayEnd tag, h => filled_branch.2 (EndTag.filled_concrete (h _ List.mem_cons_self))
  | .element tag content endTag, h => by
    rw [pieces, List.forall_mem_cons, List.forall_mem_append] at h
    obtain ⟨htag, hcontent, hend⟩ := h
    refine filled_branch.2 (filled_cons.2 ⟨StartTag.filled_concrete htag, filled_append.2 ⟨?_, ?_⟩⟩)
    · exact Node.filled_concreteOfAll content hcontent
    · cases endTag with
      | none => exact filled_nil
      | some closer => exact EndTag.filled_concrete (hend _ List.mem_cons_self)

/-- The trees of nodes have no empty leaf if the pieces of the nodes have no empty token. -/
theorem Node.filled_concreteOfAll : ∀ ns : List Node, (∀ p ∈ piecesOfAll ns, p.Solid) →
    Filled (concreteOfAll ns)
  | [], _ => filled_nil
  | n :: ns, h => by
    rw [piecesOfAll, List.forall_mem_append] at h
    exact filled_cons.2 ⟨Node.filled_concrete n h.1, Node.filled_concreteOfAll ns h.2⟩

end

/-! ## The outline -/

namespace Concrete

/-- The lines of the trees right below the one of a line: those one deeper than it, up to the next
line that is not deeper. -/
def childLines (line : Line) (after : List Line) : List Line :=
  (after.takeWhile fun l => decide (line.depth < l.depth)).filter fun l =>
    decide (l.depth = line.depth + 1)

/-- Whether every branch of an outline spans what the lines right below it span. -/
def OutlineTiled : List Line → Prop
  | [] => True
  | line :: after =>
    (∀ kind, line.kind = .inr kind → line.span.TiledBy ((childLines line after).map Line.span)) ∧
      OutlineTiled after

/-- The first lines of trees that follow one another. -/
def topLines (depth offset : Nat) : List Concrete → List Line
  | [] => []
  | c :: cs => ⟨depth, c.kind, .ofSize offset c.width⟩ :: topLines depth (offset + c.width) cs

theorem outline_eq_cons (depth offset : Nat) (c : Concrete) :
    c.outline depth offset =
      ⟨depth, c.kind, .ofSize offset c.width⟩ :: outlineOfAll (depth + 1) offset c.children := by
  cases c <;> rfl

mutual

theorem depth_le_of_mem_outline (depth offset : Nat) : ∀ c : Concrete,
    ∀ l ∈ c.outline depth offset, depth ≤ l.depth
  | .leaf kind t => by simp [outline]
  | .branch kind children => by
    rw [outline, List.forall_mem_cons]
    refine ⟨Nat.le_refl depth, fun l hl => ?_⟩
    have := depth_le_of_mem_outlineOfAll (depth + 1) offset children l hl
    omega

theorem depth_le_of_mem_outlineOfAll (depth offset : Nat) : ∀ cs : List Concrete,
    ∀ l ∈ outlineOfAll depth offset cs, depth ≤ l.depth
  | [] => by simp [outlineOfAll]
  | c :: cs => by
    rw [outlineOfAll, List.forall_mem_append]
    exact ⟨depth_le_of_mem_outline depth offset c, depth_le_of_mem_outlineOfAll depth _ cs⟩

end

/-- The lines of least depth in an outline are the first lines of its trees. -/
theorem filter_outlineOfAll (depth offset : Nat) (cs : List Concrete) :
    (outlineOfAll depth offset cs).filter (fun l => decide (l.depth = depth)) =
      topLines depth offset cs := by
  induction cs generalizing offset with
  | nil => rfl
  | cons c cs ih =>
    have hbelow : (outlineOfAll (depth + 1) offset c.children).filter
        (fun l => decide (l.depth = depth)) = [] := by
      apply List.filter_eq_nil_iff.2
      intro l hl
      have := depth_le_of_mem_outlineOfAll (depth + 1) offset c.children l hl
      simp
      omega
    rw [outlineOfAll, List.filter_append, ih, outline_eq_cons, topLines]
    simp [hbelow]

theorem tiledBy_topLines (depth offset : Nat) (cs : List Concrete) :
    (Span.ofSize offset (widthOfAll cs)).TiledBy ((topLines depth offset cs).map Line.span) := by
  induction cs generalizing offset with
  | nil => rfl
  | cons c cs ih =>
    refine ⟨rfl, Nat.le_add_right _ _, ?_⟩
    have hstop : offset + widthOfAll (c :: cs) = offset + c.width + widthOfAll cs := by
      rw [widthOfAll, Nat.add_assoc]
    show Span.TiledBy ⟨offset + c.width, offset + widthOfAll (c :: cs)⟩ _
    rw [hstop]
    exact ih (offset + c.width)

/-- The lines below a branch end where lines that are not deeper follow. -/
theorem childLines_outlineOfAll {depth : Nat} {kind : LeafKind ⊕ BranchKind} {span : Span}
    (offset : Nat) (cs : List Concrete) {after : List Line}
    (hafter : ∀ l ∈ after.head?, l.depth ≤ depth) :
    childLines ⟨depth, kind, span⟩ (outlineOfAll (depth + 1) offset cs ++ after) =
      topLines (depth + 1) offset cs := by
  -- The lines below end at the first line after them, and no line below is as shallow as the branch.
  have hstop : after.takeWhile (fun l => decide (depth < l.depth)) = [] := by
    cases after with
    | nil => rfl
    | cons l after =>
      have := hafter l rfl
      rw [List.takeWhile_cons, if_neg]
      simpa using this
  have hall : ∀ l ∈ outlineOfAll (depth + 1) offset cs, decide (depth < l.depth) = true := by
    intro l hl
    exact decide_eq_true (depth_le_of_mem_outlineOfAll (depth + 1) offset cs l hl)
  rw [childLines, List.takeWhile_append_of_pos hall, hstop, List.append_nil, filter_outlineOfAll]

mutual

theorem outlineTiled_outline (depth offset : Nat) : ∀ (c : Concrete) {after : List Line},
    OutlineTiled after → (∀ l ∈ after.head?, l.depth ≤ depth) →
    OutlineTiled (c.outline depth offset ++ after)
  | .leaf kind t, after, htiled, _ => ⟨nofun, htiled⟩
  | .branch kind children, after, htiled, hafter => by
    rw [outline, List.cons_append]
    refine ⟨fun _ _ => ?_, ?_⟩
    · rw [childLines_outlineOfAll offset children hafter]
      exact tiledBy_topLines (depth + 1) offset children
    · apply outlineTiled_outlineOfAll (depth + 1) offset children htiled
      intro l hl
      exact Nat.le_succ_of_le (hafter l hl)

theorem outlineTiled_outlineOfAll (depth offset : Nat) : ∀ (cs : List Concrete) {after : List Line},
    OutlineTiled after → (∀ l ∈ after.head?, l.depth ≤ depth) →
    OutlineTiled (outlineOfAll depth offset cs ++ after)
  | [], after, htiled, _ => htiled
  | c :: cs, after, htiled, hafter => by
    rw [outlineOfAll, List.append_assoc]
    refine outlineTiled_outline depth offset c
      (outlineTiled_outlineOfAll depth _ cs htiled hafter) fun l hl => ?_
    cases cs with
    | nil => exact hafter l hl
    | cons d cs =>
      rw [outlineOfAll, outline_eq_cons] at hl
      cases hl
      exact Nat.le_refl depth

end

/-- Every split of a tiled outline at a branch shows its span tiled. -/
theorem OutlineTiled.tiledBy {before after : List Line} {line : Line}
    (h : OutlineTiled (before ++ line :: after)) {kind : BranchKind} (hkind : line.kind = .inr kind) :
    line.span.TiledBy ((childLines line after).map Line.span) := by
  induction before with
  | nil => exact h.1 kind hkind
  | cons l before ih => exact ih h.2

/-- The kind and the span on the line of a leaf. -/
def Line.leaf? (line : Line) : Option (LeafKind × Span) :=
  match line.kind with
  | .inl kind => some (kind, line.span)
  | .inr _ => none

/-- The kinds of leaves that follow one another from `offset` on, each with the span of its text. -/
def placeLeaves (offset : Nat) : List (LeafKind × Text) → List (LeafKind × Span)
  | [] => []
  | (kind, t) :: ls => (kind, .ofSize offset t.width) :: placeLeaves (offset + t.width) ls

theorem placeLeaves_append (offset : Nat) (ls ms : List (LeafKind × Text)) :
    placeLeaves offset (ls ++ ms) =
      placeLeaves offset ls ++ placeLeaves (offset + Text.width (ls.flatMap Prod.snd)) ms := by
  induction ls generalizing offset with
  | nil => rfl
  | cons l ls ih => simp [placeLeaves, ih, Nat.add_assoc]

mutual

theorem filterMap_outline (depth offset : Nat) : ∀ c : Concrete,
    (c.outline depth offset).filterMap Line.leaf? = placeLeaves offset c.leaves
  | .leaf _ _ => rfl
  | .branch _ children => filterMap_outlineOfAll (depth + 1) offset children

/-- The lines of leaves in an outline are those of the leaves, each where its text stands. -/
theorem filterMap_outlineOfAll (depth offset : Nat) : ∀ cs : List Concrete,
    (outlineOfAll depth offset cs).filterMap Line.leaf? = placeLeaves offset (leavesOfAll cs)
  | [] => rfl
  | c :: cs => by
    rw [outlineOfAll, List.filterMap_append, leavesOfAll, placeLeaves_append, flatMap_leaves,
      ← width_eq, filterMap_outline depth offset c, filterMap_outlineOfAll depth _ cs]

end

end Concrete

/-! ## The spans of errors -/

/-- Whether all errors have spans that cover parts of a text that starts at `offset`. -/
def AllCut (t : Text) (offset : Nat) (es : List SyntaxError) : Prop := ∀ e ∈ es, e.span.Cuts t offset

namespace AllCut

theorem nil (t : Text) (offset : Nat) : AllCut t offset [] := by simp [AllCut]

theorem append {t : Text} {offset : Nat} {es fs : List SyntaxError} (hes : AllCut t offset es)
    (hfs : AllCut t offset fs) : AllCut t offset (es ++ fs) :=
  List.forall_mem_append.2 ⟨hes, hfs⟩

theorem singleton {t : Text} {offset : Nat} {e : SyntaxError} (h : e.span.Cuts t offset) :
    AllCut t offset [e] := by
  simpa [AllCut] using h

theorem when {t : Text} {offset : Nat} {span : Span} (h : span.Cuts t offset) (condition : Bool)
    (problem : Problem) : AllCut t offset (SyntaxError.when condition problem span) := by
  cases condition with
  | false => exact nil t offset
  | true => exact singleton h

theorem append_left {t : Text} {offset : Nat} {es : List SyntaxError} (front : Text)
    (h : AllCut t (offset + front.width) es) : AllCut (front ++ t) offset es :=
  fun e he => (h e he).append_left front

theorem append_right {t : Text} {offset : Nat} {es : List SyntaxError} (h : AllCut t offset es)
    (back : Text) : AllCut (t ++ back) offset es :=
  fun e he => (h e he).append_right back

end AllCut

theorem Attribute.allCut_errors (seen : List Text) (offset : Nat) (a : Attribute) :
    AllCut a.text offset (a.errors seen offset) := by
  have hname := (Span.cuts_ofSize a.name offset).append_right a.assignment.text
  have hequals : '='.utf8Size = 1 := rfl
  refine .append (.append (.when hname _ _) (.when hname _ _)) ?_
  refine .append_left a.name ?_
  cases hassignment : a.assignment with
  | absent => exact .singleton (Span.cuts_empty _ _)
  | bare before =>
    have hstop := Span.cuts_empty_stop (before ++ ['=']) (offset + a.name.width)
    refine .singleton ?_
    simpa [Span.ofSize, Assignment.text, Nat.add_assoc, hequals] using hstop
  | value before space quoted =>
    have hquoted := Span.cuts_ofSize quoted.text
      (offset + a.name.width + (before ++ '=' :: space).width)
    refine .when ?_ _ _
    simpa [Span.ofSize, Assignment.text, Nat.add_assoc, hequals] using hquoted.append_left _

theorem TagItem.allCut_errors (items : List TagItem) (seen : List Text) (offset : Nat) :
    AllCut (items.flatMap TagItem.text) offset (TagItem.errors seen offset items) := by
  induction items generalizing seen offset with
  | nil => exact .nil _ _
  | cons i items ih =>
    rw [List.flatMap_cons]
    match i with
    | .attribute a =>
      exact .append ((a.allCut_errors seen offset).append_right _) (.append_left _ (ih _ _))
    | .filler f =>
      refine .append (.append_right (.when (Span.cuts_ofSize f.text offset) _ _) _) ?_
      exact .append_left f.text (ih seen _)

theorem StartTag.allCut_errors (offset : Nat) (tag : StartTag) :
    AllCut tag.text offset (tag.errors offset) := by
  refine .append (.append ?_ ?_) (.when (Span.cuts_empty_stop tag.text offset) _ _)
  · refine .append_left tag.opener ?_
    cases tag.name with
    | none => exact .singleton (Span.cuts_empty _ _)
    | some n => exact .when ((Span.cuts_ofSize n _).append_right _) _ _
  · refine .append_left tag.opener (.append_left (tag.name.getD []) (.append_right ?_ _))
    exact TagItem.allCut_errors tag.items [] _

theorem Filler.allCut_errors (fillers : List Filler) (offset : Nat) :
    AllCut (fillers.flatMap Filler.text) offset (Filler.errors offset fillers) := by
  induction fillers generalizing offset with
  | nil => exact .nil _ _
  | cons f fillers ih =>
    refine .append (.append_right (.when (Span.cuts_ofSize f.text offset) _ _) _) ?_
    exact .append_left f.text (ih _)

theorem EndTag.allCut_errors (expected : Option Text) (offset : Nat) (tag : EndTag) :
    AllCut tag.text offset (tag.errors expected offset) := by
  refine .append (.append ?_ ?_) (.when (Span.cuts_empty_stop tag.text offset) _ _)
  · refine .append_left EndTag.opener ?_
    cases tag.name with
    | some n => exact .nil _ _
    | none =>
      cases expected with
      | none => exact .nil _ _
      | some name => exact .singleton (Span.cuts_empty _ _)
  · refine .append_left EndTag.opener (.append_left (tag.name.getD []) (.append_right ?_ _))
    exact Filler.allCut_errors tag.fillers _

/-- Whether the text after a node begins as what comes after it does. -/
def Next.Begins (rest : Text) : Next → Prop
  | .sibling => True
  | .endTag _ => EndTag.opener <+: rest
  | .nothing => rest = []

/-- Where an element may lack its end tag, the place of the complaint is there. -/
theorem cuts_unclosedSpan {next : Next} {name : Option Text} (hleaves : next.Leaves name)
    {rest : Text} (hbegins : next.Begins rest) (offset : Nat) :
    (unclosedSpan (offset + rest.width) offset).Cuts rest offset := by
  unfold unclosedSpan
  split
  · next hlt =>
    cases next with
    | sibling => exact hleaves.elim
    | nothing =>
      rw [hbegins] at hlt
      exact absurd hlt (Nat.lt_irrefl offset)
    | endTag n =>
      obtain ⟨back, rfl⟩ := hbegins
      exact (Span.cuts_ofSize EndTag.opener offset).append_right back
  · exact Span.cuts_empty rest offset

mutual

theorem Node.allCut_errors {around : List StartTag} {next : Next} {rest : Text} {length : Nat}
    (hbegins : next.Begins rest) (offset : Nat) : ∀ n : Node, n.Nested around next →
    length = offset + n.text.width + rest.width →
    AllCut (n.text ++ rest) offset (n.errors length offset)
  | .run kind t, _, _ => .append_right (.when (Span.cuts_ofSize t offset) _ _) rest
  | .strayEnd tag, _, _ => by
    refine .append_right (.append (tag.allCut_errors none offset) ?_) rest
    exact .singleton (Span.cuts_ofSize tag.text offset)
  | .element tag content (some closer), hnested, hlength => by
    obtain ⟨-, -, hnested⟩ := hnested
    -- What comes after the content is the end tag of the element itself.
    have hrest : (Next.endTag closer.name).Begins (closer.text ++ rest) := by
      rw [Next.Begins, EndTag.text, List.append_assoc]
      exact List.prefix_append _ _
    have hcontent : AllCut (textOfAll content ++ (closer.text ++ rest)) (offset + tag.text.width)
        (errorsOfAll length (offset + tag.text.width) content) := by
      apply Node.allCut_errorsOfAll hrest _ content hnested
      simp [text] at hlength ⊢
      omega
    have hcloser := closer.allCut_errors tag.name (offset + tag.text.width + widthOfAll content)
    have htext : (Node.element tag content (some closer)).text ++ rest =
        tag.text ++ (textOfAll content ++ (closer.text ++ rest)) := by simp [text]
    rw [htext, errors]
    refine .append (.append ((tag.allCut_errors offset).append_right _) (hcontent.append_left _)) ?_
    rw [widthOfAll_eq] at hcloser ⊢
    exact ((hcloser.append_right rest).append_left _).append_left _
  | .element tag content none, hnested, hlength => by
    have htext : (Node.element tag content none).text ++ rest =
        tag.text ++ (textOfAll content ++ rest) := by simp [text]
    have hlength' : length = offset + tag.text.width + (textOfAll content).width + rest.width := by
      simp [text] at hlength
      omega
    rw [Nested] at hnested
    rw [htext, errors]
    refine .append (.append ((tag.allCut_errors offset).append_right _) ?_) ?_
    · refine .append_left _ ?_
      split at hnested
      · exact Node.allCut_errorsOfAll hbegins _ content hnested.2 hlength'
      · rw [hnested, errorsOfAll]
        exact .nil _ _
    · cases hopens : tag.opens with
      | false => exact .nil _ _
      | true =>
        -- The complaint stands at the end of the content, which is where `rest` starts.
        rw [if_pos hopens] at hnested
        have hspan := cuts_unclosedSpan hnested.1 hbegins
          (offset + tag.text.width + (textOfAll content).width)
        rw [← hlength'] at hspan
        rw [widthOfAll_eq]
        exact .when ((hspan.append_left _).append_left _) _ _

/-- The errors of nested nodes stand in the text of the nodes and the rest after it. -/
theorem Node.allCut_errorsOfAll {around : List StartTag} {next : Next} {rest : Text} {length : Nat}
    (hbegins : next.Begins rest) (offset : Nat) : ∀ ns : List Node, NestedAll around next ns →
    length = offset + (textOfAll ns).width + rest.width →
    AllCut (textOfAll ns ++ rest) offset (errorsOfAll length offset ns)
  | [], _, _ => .nil _ _
  | n :: ns, hnested, hlength => by
    rw [textOfAll, Text.width_append] at hlength
    rw [textOfAll, List.append_assoc, errorsOfAll]
    refine .append ?_ ?_
    · refine Node.allCut_errors ?_ offset n hnested.1 ?_
      · cases ns with
        | nil => exact hbegins
        | cons m ns => trivial
      · rw [Text.width_append]
        omega
    · rw [width_eq]
      refine .append_left _ (Node.allCut_errorsOfAll hbegins _ ns hnested.2 ?_)
      omega

end

/-- The errors of a whole document stand in its text. -/
theorem Document.allCut_topErrors {length : Nat} (ns : List Node) (roots offset : Nat)
    (hnested : Node.NestedAll [] .nothing ns)
    (hlength : length = offset + (Node.textOfAll ns).width) :
    AllCut (Node.textOfAll ns) offset (topErrors length roots offset ns) := by
  induction ns generalizing roots offset with
  | nil => exact .when (Span.cuts_empty _ offset) _ _
  | cons n ns ih =>
    rw [Node.textOfAll, Text.width_append] at hlength
    have hnode : AllCut (n.text ++ Node.textOfAll ns) offset (n.errors length offset) := by
      refine Node.allCut_errors ?_ offset n hnested.1 ?_
      · cases ns with
        | nil => rfl
        | cons m ns => trivial
      · omega
    have hrest := ih (if n.isElement then roots + 1 else roots) (offset + n.width) hnested.2
      (by rw [Node.width_eq]; omega)
    rw [Node.width_eq] at hrest
    rw [Node.textOfAll]
    unfold topErrors
    refine .append ?_ (by rw [Node.width_eq]; exact hrest.append_left _)
    split
    · next tag content endTag =>
      refine .append hnode (.when ?_ _ _)
      have hopener := Span.cuts_ofSize tag.opener offset
      simpa [Node.text, StartTag.text] using hopener.append_right _
    · exact .append_right (.singleton (Span.cuts_ofSize _ offset)) _
    · exact hnode

/-! ## Documents -/

theorem Document.text_concrete_parse (t : Text) : (parse t).concrete.text = t := by
  unfold parse
  split
  · rw [Document.concrete, Concrete.text, Concrete.textOfAll_leafUnlessEmpty]
  · rw [Document.concrete, Concrete.text, Node.text_concreteOfAll, Node.textOfAll_ofPieces_ofText]

theorem Document.filled_concrete_parse (t : Text) : Filled [(parse t).concrete] := by
  unfold parse
  split
  · exact filled_branch.2 (Concrete.filled_leafUnlessEmpty .junk t)
  · refine filled_branch.2 (Node.filled_concreteOfAll _ ?_)
    rw [Node.piecesOfAll_ofPieces]
    exact Piece.solid_ofText t

theorem Document.allCut_errors_parse (t : Text) : AllCut t 0 (parse t).errors := by
  unfold parse
  split
  · refine .singleton ?_
    simpa [Span.ofSize] using Span.cuts_ofSize t 0
  · have htext := Node.textOfAll_ofPieces_ofText t
    have hcut := allCut_topErrors (Node.ofPieces (Piece.ofText t)) 0 0 (Node.nestedAll_ofPieces _)
      (Nat.zero_add _).symm
    rw [htext] at hcut
    rwa [Document.errors, Node.widthOfAll_eq, htext]

/-- Every text is kept whole in its tree, and every error stands in it. -/
theorem Document.parse_isLossless (t : Text) :
    ((parse t).concrete.leaves.flatMap Prod.snd = t ∧ ∀ l ∈ (parse t).concrete.leaves, l.2 ≠ []) ∧
      ((∃ below, (parse t).concrete.outline 0 0 = ⟨0, .inr .document, ⟨0, t.width⟩⟩ :: below) ∧
        ((parse t).concrete.outline 0 0).filterMap Concrete.Line.leaf? =
          Concrete.placeLeaves 0 (parse t).concrete.leaves ∧
        ∀ before line after, (parse t).concrete.outline 0 0 = before ++ line :: after →
          ∀ kind, line.kind = .inr kind →
            line.span.TiledBy ((Concrete.childLines line after).map Concrete.Line.span)) ∧
      ∀ e ∈ (parse t).errors, e.span.start ≤ e.span.stop ∧ e.span.stop ≤ t.width ∧
        t.IsBoundary e.span.start ∧ t.IsBoundary e.span.stop := by
  have htext := text_concrete_parse t
  refine ⟨⟨?_, ?_⟩, ⟨?_, ?_, ?_⟩, ?_⟩
  · rw [Concrete.flatMap_leaves, htext]
  · intro l hl
    apply filled_concrete_parse t l
    simpa [Concrete.leavesOfAll] using hl
  · have hkind : (parse t).concrete.kind = .inr .document := by
      cases parse t <;> rfl
    refine ⟨Concrete.outlineOfAll 1 0 (parse t).concrete.children, ?_⟩
    rw [Concrete.outline_eq_cons, hkind, Concrete.width_eq, htext, Span.ofSize, Nat.zero_add]
  · exact Concrete.filterMap_outline 0 0 _
  · intro before line after houtline kind hkind
    have htiled : Concrete.OutlineTiled ((parse t).concrete.outline 0 0 ++ []) :=
      Concrete.outlineTiled_outline 0 0 _ trivial (by rintro l ⟨⟩)
    rw [List.append_nil, houtline] at htiled
    exact htiled.tiledBy hkind
  · intro e he
    exact (allCut_errors_parse t e he).isBoundary

end Markup

end ProjectFile
