import ProjectFile.Proofs.Editor.Recovery
import ProjectFile.Proofs.Evaluation.Secluded
import ProjectFile.Proofs.Markup.Survival

/-!
Comments do not change evaluation.

Of the content of most elements only the elements are looked at, so contents with the same elements
are evaluated alike (`sameOutcome_content_of_elements`), and so are the elements around them up to the
root (`sameOutcome_plug`). The content of a property and that of the metadata of an item is taken as
it is written, markup included (`Valued`): there a comment is part of a value
(`sameOutcome_comment_fails`).

Anywhere else in the root a comment may be inserted between nodes or in blank character data, and the
outcome is the same but for positions (`sameOutcome_insert_comment`).
-/

namespace ProjectFile.Evaluation

open Markup Editor

/-! ## Contents with the same elements -/

section

variable (s : Source)

/-- What is between the elements of a content is not looked at. -/
theorem sameOutcome_content_filter {p q : EvaluatedProject} (hpq : p.unplaced = q.unplaced)
    (a b : Nat) (ns : List Node) : SameOutcome (evaluateContent s a p ns)
      (evaluateContent s b q (ns.filter Node.isElement)) := by
  induction ns generalizing p q a b with
  | nil =>
    rw [List.filter_nil, evaluateContent, evaluateContent]
    exact congrArg Except.ok hpq
  | cons n ns ih =>
    cases n with
    | element tag content endTag =>
      let c : Element := ⟨a, tag, content, endTag⟩
      let d : Element := ⟨b, tag, content, endTag⟩
      change SameOutcome (evaluateContent s a p (c.node :: ns))
        (evaluateContent s b q (d.node :: ns.filter Node.isElement))
      rw [evaluateContent_element s a p c rfl, evaluateContent_element s b q d rfl]
      exact erase_bind_congr (sameOutcome_evaluateElement_of_node s (show c.node = d.node from rfl)
        hpq) fun _ _ _ hnext => ih hnext _ _
    | strayEnd tag =>
      rw [evaluateContent_skip s a p rfl]
      exact ih hpq _ _
    | run kind t =>
      rw [evaluateContent_skip s a p rfl]
      exact ih hpq _ _

theorem sameOutcome_branches_filter (p : EvaluatedProject) (a b : Nat) (ns : List Node) :
    SameOutcome (evaluateBranches s a p ns) (evaluateBranches s b p (ns.filter Node.isElement)) := by
  induction ns generalizing a b with
  | nil =>
    rw [List.filter_nil, evaluateBranches, evaluateBranches]
    rfl
  | cons n ns ih =>
    cases n with
    | element tag content endTag =>
      let c : Element := ⟨a, tag, content, endTag⟩
      let d : Element := ⟨b, tag, content, endTag⟩
      change SameOutcome (evaluateBranches s a p (c.node :: ns))
        (evaluateBranches s b p (d.node :: ns.filter Node.isElement))
      rw [evaluateBranches_element s a p c rfl, evaluateBranches_element s b p d rfl]
      have halike : c.Alike d := alike_of_node (show c.node = d.node from rfl)
      refine erase_bind_congr (erase_branchApplies_congr s p halike) fun x y _ hxy => ?_
      obtain rfl : x = y := hxy
      cases x with
      | true => exact sameOutcome_evaluateContent rfl rfl _ _ _
      | false => exact ih _ _
    | strayEnd tag =>
      rw [evaluateBranches_skip s a p rfl]
      exact ih _ _
    | run kind t =>
      rw [evaluateBranches_skip s a p rfl]
      exact ih _ _

variable {ms ns : List Node} (h : ms.filter Node.isElement = ns.filter Node.isElement)

include h

/-- **Contents with the same elements are evaluated alike.** -/
theorem sameOutcome_content_of_elements (p : EvaluatedProject) (a : Nat) :
    SameOutcome (evaluateContent s a p ms) (evaluateContent s a p ns) :=
  (sameOutcome_content_filter s rfl a a ms).trans
    (h ▸ (sameOutcome_content_filter s rfl a a ns).symm)

theorem sameOutcome_branches_of_elements (p : EvaluatedProject) (a : Nat) :
    SameOutcome (evaluateBranches s a p ms) (evaluateBranches s a p ns) :=
  (sameOutcome_branches_filter s p a a ms).trans
    (h ▸ (sameOutcome_branches_filter s p a a ns).symm)

end

/-- Children that are the same, but for one of them that has the same elements in it. -/
theorem forall₂_around {cs ds : List Element} {c d : Element} (h : SameElements c d)
    (before after : List Node) (hcs : cs.map Element.node = before ++ c.node :: after)
    (hds : ds.map Element.node = before ++ d.node :: after) : List.Forall₂ SameElements cs ds := by
  induction before generalizing cs ds with
  | nil =>
    obtain ⟨c', cs, rfl, hc, hcs⟩ := List.map_eq_cons_iff.1 hcs
    obtain ⟨d', ds, rfl, hd, hds⟩ := List.map_eq_cons_iff.1 hds
    refine .cons ?_ ((forall₂_of_map_node (hcs.trans hds.symm)).imp fun _ _ => .of_node)
    have hfirst : SameElements c' c := .of_node hc
    have hlast : SameElements d d' := .of_node hd.symm
    exact ⟨hfirst.tag.trans (h.tag.trans hlast.tag), hfirst.inside.trans (h.inside.trans hlast.inside)⟩
  | cons n before ih =>
    obtain ⟨c', cs, rfl, hc, hcs⟩ := List.map_eq_cons_iff.1 hcs
    obtain ⟨d', ds, rfl, hd, hds⟩ := List.map_eq_cons_iff.1 hds
    exact .cons (.of_node (hc.trans hd.symm)) (ih hcs hds)

/-! ## Places in elements -/

/-- Whether elements around another one, innermost first, make its content a value as it is written:
it is a property, or metadata of an item. -/
inductive Valued : List Element → Prop
  | property {group : Element} {around : List Element} (hname : group.name = "PropertyGroup".toList)
    (haround : Entered around) : Valued (group :: around)
  | metadata {item group : Element} {around : List Element}
    (hname : group.name = "ItemGroup".toList) (haround : Entered around) :
    Valued (item :: group :: around)

/-- Whether no element of some frames has a value for its content. -/
def Uncovered (offset : Nat) (inner : List Node) (fs : List Frame) (around : List Element) : Prop :=
  ∀ pre f post, fs = pre ++ f :: post →
    ¬ Valued ((Frame.elements offset (Frame.plug (f :: post) inner) pre).reverse ++ around)

namespace Uncovered

variable {offset : Nat} {inner : List Node} {f g : Frame} {fs : List Frame} {around : List Element}

theorem head (h : Uncovered offset inner (f :: fs) around) : ¬ Valued around := h [] f fs rfl

theorem tail (h : Uncovered offset inner (f :: fs) around) :
    let here := offset + Node.widthOfAll f.before
    Uncovered (here + f.tag.text.width) inner fs
      (⟨here, f.tag, Frame.plug fs inner, some f.closer⟩ :: around) := by
  rintro here pre g post rfl
  have hnot := h (f :: pre) g post rfl
  rw [Frame.elements, List.reverse_cons, List.append_assoc, ← Frame.plug_append] at hnot
  exact hnot

end Uncovered

section

variable {s : Source} {ms ns : List Node}

/-- A child of a root or a branch is evaluated alike if it has other nodes in some frames, none of
which is of an element with a value. -/
theorem sameOutcome_evaluateChild_plug
    (h : ms.filter Node.isElement = ns.filter Node.isElement) {e : Element} {offset : Nat}
    {fs : List Frame} {around : List Element} (hentered : Entered around)
    (hcontent : e.content = Frame.plug fs ms) (hfree : Uncovered offset ms fs (e :: around))
    (p : EvaluatedProject) :
    SameOutcome (evaluateChild s p e)
      (evaluateChild s p { e with content := Frame.plug fs ns }) := by
  let d : Element := { e with content := Frame.plug fs ns }
  have halike : e.Alike d := ⟨rfl, rfl⟩
  have hdirect (hfs : fs = []) : SameElements e d := by
    subst hfs
    exact ⟨rfl, by rw [hcontent]; exact h⟩
  have hproperties (hname : e.name = "PropertyGroup".toList) :
      List.Forall₂ SameNode e.childElements d.childElements := by
    cases fs with
    | nil => exact (hdirect rfl).children
    | cons f fs => exact absurd (.property hname hentered) hfree.head
  have hitems (hname : e.name = "ItemGroup".toList) :
      List.Forall₂ SameElements e.childElements d.childElements := by
    cases fs with
    | nil => exact (hdirect rfl).children.imp fun _ _ => .of_node
    | cons f fs =>
    cases fs with
    | nil =>
      let c (inner : List Node) : Element := ⟨0, f.tag, inner, some f.closer⟩
      refine forall₂_around (show SameElements (c ms) (c ns) from ⟨rfl, h⟩)
        (f.before.filter Node.isElement) (f.after.filter Node.isElement) ?_ ?_
      · rw [map_node_childElements, hcontent, Frame.plug, List.filter_append]
        rfl
      · rw [map_node_childElements, show d.content = Frame.plug [f] ns from rfl, Frame.plug,
          List.filter_append]
        rfl
    | cons g fs => exact absurd (.metadata hname hentered) hfree.tail.head
  rw [SameOutcome, ← erase_evaluateChild s p halike hproperties hitems,
    ← erase_evaluateChild_of_elements s p (.of_node (show d.node = d.node from rfl))]

/-- **What is in frames of elements without values is looked at for its elements only**: so it is in
the content of a root or a branch, and in that of a choice. -/
theorem sameOutcome_plug (h : ms.filter Node.isElement = ns.filter Node.isElement)
    (fs : List Frame) : ∀ (offset : Nat) (around : List Element), Entered around →
    (Uncovered offset ms fs around → ∀ p a,
      SameOutcome (evaluateContent s a p (Frame.plug fs ms))
        (evaluateContent s a p (Frame.plug fs ns))) ∧
    (∀ choice : Element, choice.name = "Choose".toList → Uncovered offset ms fs (choice :: around) →
      ∀ p a, SameOutcome (evaluateBranches s a p (Frame.plug fs ms))
        (evaluateBranches s a p (Frame.plug fs ns))) := by
  induction fs with
  | nil =>
    intro offset around _
    exact ⟨fun _ => sameOutcome_content_of_elements s h,
      fun _ _ _ => sameOutcome_branches_of_elements s h⟩
  | cons f fs ih =>
    intro offset around hentered
    let e : Element := ⟨offset + Node.widthOfAll f.before, f.tag, Frame.plug fs ms, some f.closer⟩
    let d : Element := { e with content := Frame.plug fs ns }
    constructor
    · intro hfree p a
      refine @sameOutcome_content_around s e d (fun _ => True) (fun p _ => ?_) f.before
        (fun _ _ _ _ _ _ => trivial) f.after p trivial a
      rw [evaluateElement, evaluateElement, show d.name = e.name from rfl]
      split
      · next hname => exact (ih _ around hentered).2 e hname hfree.tail p _
      · exact sameOutcome_evaluateChild_plug h hentered rfl hfree.tail p
    · intro choice hchoice hfree p a
      refine sameOutcome_branches_around (e := e) (f := d) ⟨rfl, rfl⟩ (fun hname a => ?_) f.before
        f.after a
      exact (ih _ _ (.branch hname hchoice hentered)).1 hfree.tail p a

end

/-! ## Free places -/

/-- Whether an offset is in the content of an element, or at an end of it. -/
def InContent (e : Element) (offset : Nat) : Prop :=
  ∃ span, e.contentSpan = some span ∧ span.touches offset = true

/-- Whether an offset is between nodes or in blank character data. -/
def IsFree (t : Text) (offset : Nat) : Prop :=
  let place := inspect (Document.parse t) offset
  place.kind = .gap .content ∨ place.kind = .elementContent ∧
    ∃ v ∈ place.node, ∃ start w, v.item = .content .blank start w

theorem InContent.within {e : Element} {offset : Nat} (h : InContent e offset) :
    e.tag.ending = .content ∧ e.startTagSpan.stop ≤ offset ∧ offset ≤ e.contentStop := by
  obtain ⟨span, hspan, htouches⟩ := h
  rw [Element.contentSpan] at hspan
  split at hspan
  · next hending =>
    cases hspan
    exact ⟨hending, Span.touches_iff.1 htouches⟩
  · cases hspan

/-- The content of an element does not reach to its ends. -/
theorem InContent.inside {e : Element} {offset : Nat} (h : InContent e offset)
    (hsound : e.node.Sound) : e.start < offset ∧ offset < e.start + e.node.width := by
  obtain ⟨hending, hafter, hbefore⟩ := h.within
  obtain ⟨start, tag, content, endTag⟩ := e
  have hpos := (Node.Sound.inside hsound).1.width_pos
  dsimp only at hending hpos
  cases endTag with
  | none =>
    have hself : tag.ending = .selfClosed := hsound.2.1
    rw [hending] at hself
    cases hself
  | some closer =>
    have hcloser := closer.width_pos
    dsimp only [Element.startTagSpan, Element.contentStop, Span.ofSize] at hafter hbefore
    rw [Element.node, Node.width]
    dsimp only [Option.map_some, Option.getD_some]
    omega

section

variable {t : Text} {offset : Nat} {root : Element}
  (hroot : (Document.parse t).root? = some root)

include hroot

/-- What is at the top beside the root does not reach into it. -/
theorem apart_of_root {front back : List Node} {n : Node}
    (hnodes : (Document.parse t).nodes = front ++ n :: back) (hne : n.isElement = false) :
    Node.widthOfAll front + n.width ≤ root.start ∨
      root.start + root.node.width ≤ Node.widthOfAll front := by
  obtain ⟨pre, post, hsplit, hstart⟩ := Document.exists_of_root? hroot
  rw [hnodes] at hsplit
  rcases List.append_eq_append_iff.1 hsplit with ⟨mid, rfl, hmid⟩ | ⟨mid, rfl, hmid⟩
  · cases mid with
    | nil =>
      obtain ⟨rfl, -⟩ := List.cons.inj hmid
      cases hne
    | cons m mid =>
      obtain ⟨rfl, -⟩ := List.cons.inj hmid
      rw [hstart, Node.widthOfAll_append, Node.widthOfAll]
      omega
  · cases mid with
    | nil =>
      obtain ⟨rfl, -⟩ := List.cons.inj hmid
      cases hne
    | cons m mid =>
      obtain ⟨rfl, -⟩ := List.cons.inj hmid
      rw [hstart, Node.widthOfAll_append, Node.widthOfAll]
      omega

/-- Blank character data that reaches into the root has an element around it. -/
theorem exists_parent_of_blank {ns : List Node} (hreading : Document.Reading t ns) {v : View}
    (hv : v ∈ (Document.parse t).views) {start : Nat} {w : Text}
    (hitem : v.item = .content .blank start w) (hafter : root.start < start + w.width)
    (hbefore : start < root.start + root.node.width) : ∃ p, v.parent? = some p := by
  rw [hreading.parse_eq] at hv
  obtain ⟨fs, pre, m, post, hns, hshown, haround⟩ := Node.standsIn_viewsOfAll
    (by rw [hitem]; rfl) [] [] _ 0 0 [] rfl ns hreading.sound hv
  rw [View.parent?]
  cases henclosing : v.enclosing with
  | cons c cs => exact ⟨_, rfl⟩
  | nil =>
    -- It would be at the top, beside the root.
    obtain rfl : fs = [] := by
      cases fs with
      | nil => rfl
      | cons f fs =>
        rw [henclosing] at haround
        simp [Frame.elements] at haround
    rw [hitem] at hshown
    obtain ⟨kind, -, rfl, hat⟩ := Item.ofNode?_eq_content hshown
    have hnodes : (Document.parse t).nodes = pre ++ .run kind w :: post := by
      rw [hreading.parse_eq, Document.nodes]
      exact hns
    have hapart := apart_of_root hroot hnodes rfl
    rw [Node.width] at hapart
    dsimp only [Frame.start] at hat
    omega

/-- In the content of the root a free place is a slot. -/
theorem exists_slot_of_free (herrors : (Document.parse t).errors = [])
    (hin : InContent root offset) (hfree : IsFree t offset) : ∃ s : Slot t, s.offset = offset := by
  obtain ⟨ns, hreading⟩ := Document.exists_reading herrors
  obtain ⟨pre, post, hnodes, hstart⟩ := Document.exists_of_root? hroot
  rw [hreading.parse_eq, Document.nodes] at hnodes
  have hsound : root.node.Sound := by
    have hall := hreading.sound
    rw [hnodes] at hall
    exact (Node.soundAll_cons.1 (Node.soundAll_append.1 hall).2).1
  obtain ⟨hafter, hbefore⟩ := hin.inside hsound
  have hplace : (inspect (Document.parse t) offset).offset = offset := by
    have hwidth := Document.width_parse t
    rw [hreading.parse_eq, Document.width, hnodes, Node.widthOfAll_append, Node.widthOfAll] at hwidth
    rw [offset_inspect]
    omega
  have hlocated := located_inspect t offset
  rcases hfree with hkind | ⟨hkind, v, hnode, start, w, hitem⟩
  · have hseam := hlocated.seam hkind
    cases hnode : (inspect (Document.parse t) offset).node with
    | none =>
      -- A gap at the top is not inside the root.
      rw [hnode, hplace] at hseam
      obtain ⟨i, hi, hshown⟩ := List.exists_of_findSome?_eq_some hroot
      obtain rfl := Item.element?_eq_some hshown
      have hapart := Node.SeamOfAll.divides hseam _ hi
      dsimp only [Item.span, Element.span, Span.ofSize] at hapart
      omega
    | some p =>
      rw [hnode] at hseam
      obtain ⟨-, e, hitem, -⟩ := hseam
      obtain ⟨s, -, hs, -⟩ := exists_slot_of_gap herrors hkind hnode hitem
      exact ⟨s, hs⟩
  · have hfits := hlocated.fits
    rw [hnode, Option.map_some, hitem, hkind, hplace] at hfits
    obtain ⟨hfrom, hto⟩ := Span.touches_iff.1 hfits
    dsimp only [Span.ofSize] at hfrom hto
    have hv := hlocated.node v hnode
    obtain ⟨p, hparent⟩ := exists_parent_of_blank hroot hreading hv hitem (by omega) (by omega)
    obtain ⟨s, hs, -⟩ := hreading.exists_slot_blank hv hitem hparent (n := offset - start) (by omega)
    exact ⟨s, by omega⟩

end

/-! ## Comments in slots -/

/-- The elements whose content a slot is in are those of its frames. -/
theorem uncovered_of_slot {t : Text} (s : Slot t)
    (h : ∀ v ∈ (Document.parse t).views, ∀ e, v.item = .element e → InContent e s.offset →
      ¬ Valued (v.enclosing.map Enclosure.element)) : Uncovered 0 s.inner s.frames [] := by
  intro pre f post hframes
  let e : Element := ⟨Frame.start 0 pre + Node.widthOfAll f.before, f.tag, Frame.plug post s.inner,
    some f.closer⟩
  have hreading := s.reading
  rw [← Slot.frames, hframes, Frame.plug_append] at hreading
  obtain ⟨v, hv, hitem, haround⟩ := @Frame.exists_view [] [] (Item.ofNodes 0 _) 0 pre f.before f.after
    e.node (.element e) rfl
  rw [hreading.parse_eq] at h
  have hnot := h v hv e hitem ?_
  · rwa [haround] at hnot
  · have hopens := (s.sound_frames f (by rw [hframes]; simp)).opens
    rw [StartTag.opens, Bool.and_eq_true, beq_iff_eq] at hopens
    refine ⟨_, if_pos hopens.2, Span.touches_iff.2 ?_⟩
    have hfront := s.cut.widthOfAll_le
    have hinside := Frame.start_add_le (Frame.start 0 pre + Node.widthOfAll f.before + f.tag.text.width)
      post s.inner
    have hbehind := Frame.offset_le_start
      (Frame.start 0 pre + Node.widthOfAll f.before + f.tag.text.width) post
    rw [Slot.offset, hframes, Frame.start_append, Frame.start]
    dsimp only [Element.startTagSpan, Element.contentStop, Span.ofSize, e]
    omega

/-- Files whose roots have one name, and contents that are evaluated alike, have the same outcome. -/
theorem sameOutcome_of_roots (exists? : FilePath → Bool) (path : FilePath)
    (globals : GlobalProperties) {t t' : Text} {e e' : Element}
    (herrors : (Document.parse t).errors = []) (herrors' : (Document.parse t').errors = [])
    (hroot : (Document.parse t).root? = some e) (hroot' : (Document.parse t').root? = some e')
    (hname : e.name = e'.name)
    (hcontent : e.name = "Project".toList → ∀ p a,
      SameOutcome (evaluateContent ⟨path, .ofText t, exists?⟩ a p e.content)
        (evaluateContent ⟨path, .ofText t, exists?⟩ a p e'.content)) :
    SameOutcome (evaluate exists? path t globals) (evaluate exists? path t' globals) := by
  by_cases hproject : e.name = "Project".toList
  · let s : Source := ⟨path, .ofText t, exists?⟩
    let s' : Source := ⟨path, .ofText t', exists?⟩
    rw [evaluate_eq exists? path globals herrors hroot hproject,
      evaluate_eq exists? path globals herrors' hroot' (hname ▸ hproject)]
    exact (hcontent hproject _ _).trans
      (sameOutcome_evaluateContent (show s.unplaced = s'.unplaced from rfl) rfl _ _ _)
  · rw [evaluate, evaluate, herrors, herrors', hroot, hroot']
    dsimp only
    rw [if_neg hproject, if_neg (hname ▸ hproject), hname]
    rfl

/-- **A comment does not change the outcome of an evaluation**, but for positions, wherever in the
root it is put between nodes or in blank character data, outside of contents that are values. -/
theorem sameOutcome_insert_comment (exists? : FilePath → Bool) (path : FilePath)
    (globals : GlobalProperties) {t : Text} {root : Element} {offset : Nat} {body : Text}
    (herrors : (Document.parse t).errors = []) (hroot : (Document.parse t).root? = some root)
    (hin : InContent root offset) (hfree : IsFree t offset)
    (hvalue : ∀ v ∈ (Document.parse t).views, ∀ e, v.item = .element e → InContent e offset →
      ¬ Valued (v.enclosing.map Enclosure.element))
    (hbody : (Written.comment body).WellFormed) :
    SameOutcome (evaluate exists? path t globals)
      (evaluate exists? path (t.insertAt offset (Written.comment body).print) globals) := by
  obtain ⟨s, rfl⟩ := exists_slot_of_free hroot herrors hin hfree
  obtain ⟨hparse, herrors'⟩ := s.insert_comment hbody
  obtain ⟨ns', hreading'⟩ := Document.exists_reading herrors'
  rw [hreading'.parse_eq, Document.markup.injEq] at hparse
  have huncovered := uncovered_of_slot s hvalue
  -- The outermost frame is that of the root.
  cases hframes : s.frames with
  | nil => simp [Slot.frames] at hframes
  | cons f fs =>
    rw [hframes] at hparse huncovered
    have hold := root?_plug s.reading (show _ = Frame.plug (f :: fs) s.inner from hframes ▸ rfl)
    have hnew := root?_plug hreading' hparse
    refine sameOutcome_of_roots exists? path globals herrors herrors' hold hnew rfl ?_
    intro hproject p a
    have hinside := huncovered.tail
    rw [Nat.zero_add] at hinside
    exact (sameOutcome_plug (s.cut.filter_run .comment _) fs _ _ (.root hproject)).1 hinside p a

/-- Elements that make a content a value are known by their names. -/
theorem Valued.names {around : List Element} (h : Valued around) :
    (around.map Element.name)[0]? = some "PropertyGroup".toList ∨
      (around.map Element.name)[1]? = some "ItemGroup".toList := by
  cases h with
  | property hname => exact .inl (congrArg some hname)
  | metadata hname => exact .inr (congrArg some hname)

theorem inContent_iff {e : Element} {offset : Nat} :
    InContent e offset ↔ e.contentSpan.any (fun span => span.touches offset) = true :=
  Option.any_eq_true _ _ |>.symm

/-- Whether an item is blank character data. -/
def isBlank : Item → Bool
  | .content .blank .. => true
  | _ => false

theorem exists_of_isBlank {i : Item} (h : isBlank i = true) :
    ∃ start w, i = .content .blank start w := by
  unfold isBlank at h
  split at h
  · exact ⟨_, _, rfl⟩
  · cases h

/-- An item with metadata behind a space. -/
def spacedItem : Text :=
  "<Project><ItemGroup><A Include='a'> <M>1</M></A></ItemGroup></Project>".toList

/-- More metadata in a comment, behind the space. -/
theorem sameOutcome_insert_comment_spacedItem :
    SameOutcome (evaluate (fun _ => false) ⟨"/p".toList⟩ spacedItem [])
      (evaluate (fun _ => false) ⟨"/p".toList⟩
        (spacedItem.insertAt 36 (Written.comment "<N>2</N>".toList).print) []) := by
  obtain ⟨root, hroot, hin⟩ : ∃ root, (Document.parse spacedItem).root? = some root ∧
      root.contentSpan.any (fun span => span.touches 36) = true := by
    rw [← Option.any_eq_true]
    decide +kernel
  have hnames : ∀ v ∈ (Document.parse spacedItem).views,
      (v.item.element?.bind Element.contentSpan).any (fun span => span.touches 36) = true →
        (v.enclosing.map fun c => c.element.name)[0]? ≠ some "PropertyGroup".toList ∧
          (v.enclosing.map fun c => c.element.name)[1]? ≠ some "ItemGroup".toList := by
    decide +kernel
  obtain ⟨v, hnode, hblank⟩ : ∃ v, (inspect (Document.parse spacedItem) 36).node = some v ∧
      isBlank v.item = true := by
    rw [← Option.any_eq_true]
    decide +kernel
  refine sameOutcome_insert_comment (fun _ => false) ⟨"/p".toList⟩ [] (by decide +kernel) hroot
    (inContent_iff.2 hin) (.inr ⟨by decide +kernel, v, hnode, exists_of_isBlank hblank⟩)
    (fun w hw e hitem he hvalued => ?_) (by decide +kernel)
  have hnot := hnames w hw (by rw [hitem]; exact inContent_iff.1 he)
  have hvalue := hvalued.names
  rw [List.map_map] at hvalue
  exact hvalue.elim hnot.1 hnot.2

/-- A property without a value. -/
def blankProperty : Text := "<Project><PropertyGroup><P></P></PropertyGroup></Project>".toList

/-- The value of a property in an outcome. -/
def outcomeValue? (x : Except EvaluationError EvaluatedProject) (name : Text) : Option Text :=
  x.toOption.bind fun p => p.propertyValue? name

/-- Outcomes that are the same have the same values. -/
theorem SameOutcome.outcomeValue?_eq {x y : Except EvaluationError EvaluatedProject}
    (h : SameOutcome x y) (name : Text) : outcomeValue? x name = outcomeValue? y name := by
  have hforget (z : Except EvaluationError EvaluatedProject) :
      outcomeValue? (erase EvaluatedProject.unplaced z) name = outcomeValue? z name := by
    cases z with
    | error e => rfl
    | ok p => exact p.propertyValue?_unplaced name
  rw [← hforget x, ← hforget y, h]

/-- In a property a comment is part of the value. -/
theorem sameOutcome_comment_fails : ¬ ∀ (exists? : FilePath → Bool) (path : FilePath)
    (globals : GlobalProperties) (t : Text) (root : Element) (offset : Nat) (body : Text),
    (Document.parse t).errors = [] → (Document.parse t).root? = some root →
    InContent root offset → IsFree t offset → (Written.comment body).WellFormed →
    SameOutcome (evaluate exists? path t globals)
      (evaluate exists? path (t.insertAt offset (Written.comment body).print) globals) := by
  intro hall
  obtain ⟨root, hroot, hin⟩ : ∃ root, (Document.parse blankProperty).root? = some root ∧
      root.contentSpan.any (fun span => span.touches 27) = true := by
    rw [← Option.any_eq_true]
    decide +kernel
  have hsame := hall (fun _ => false) ⟨"/p".toList⟩ [] blankProperty root 27 ['c'] (by decide +kernel)
    hroot (inContent_iff.2 hin) (.inl (by decide +kernel)) (by decide +kernel)
  have hvalues := hsame.outcomeValue?_eq ['P']
  have hbefore : outcomeValue? (evaluate (fun _ => false) ⟨"/p".toList⟩ blankProperty []) ['P'] =
      some [] := by decide +kernel
  have hafter : outcomeValue? (evaluate (fun _ => false) ⟨"/p".toList⟩
      (blankProperty.insertAt 27 (Written.comment ['c']).print) []) ['P'] =
        some "<!--c-->".toList := by decide +kernel
  rw [hbefore, hafter] at hvalues
  cases hvalues

end ProjectFile.Evaluation
