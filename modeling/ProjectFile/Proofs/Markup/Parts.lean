import ProjectFile.Proofs.Markup.Site

/-!
Statements about all trees in a tag.

1. What holds of every leaf but junk, and of the branches that stand in tags, holds throughout a tag
   if it holds of the junk in it (`StartTag.forall_concrete`, `EndTag.forall_children`).
2. So nothing in a tag is an element or an end tag (`StartTag.plain_concrete`,
   `EndTag.plain_children`), whatever the tag is made of.
-/

namespace ProjectFile.Markup

open Concrete (leafUnlessEmpty Forall ForallOfAll)

namespace Concrete

/-- Whether `p` holds of all that tags are made of, junk apart. -/
structure HoldsInTags (p : Concrete → Prop) : Prop where
  leaf : ∀ kind t, kind ≠ .junk → p (.leaf kind t)
  branch : ∀ kind children, kind = .startTag ∨ kind = .attribute ∨ kind = .attributeValue →
    p (.branch kind children)

variable {p : Concrete → Prop}

theorem HoldsInTags.leafUnlessEmpty (hp : HoldsInTags p) {kind : LeafKind} (hkind : kind ≠ .junk)
    (t : Text) : ForallOfAll p (leafUnlessEmpty kind t) := by
  unfold Concrete.leafUnlessEmpty
  split
  · trivial
  · exact ⟨hp.leaf kind t hkind, trivial⟩

theorem HoldsInTags.nameLeaf (hp : HoldsInTags p) (name : Option Text) :
    ForallOfAll p (nameLeaf name) := by
  cases name with
  | none => trivial
  | some n => exact ⟨hp.leaf .name n nofun, trivial⟩

theorem HoldsInTags.quoted (hp : HoldsInTags p) (q : Quoted) : q.concrete.Forall p := by
  refine ⟨hp.branch .attributeValue _ (by decide), hp.leaf .quote _ nofun, ?_⟩
  refine forallOfAll_append.2 ⟨?_, ?_⟩
  · have hvalue : LeafKind.valueText ≠ .junk := nofun
    exact hp.leafUnlessEmpty hvalue q.body
  · split
    · exact ⟨hp.leaf .quote _ nofun, trivial⟩
    · trivial

theorem HoldsInTags.assignment (hp : HoldsInTags p) (a : Assignment) : ForallOfAll p a.concrete := by
  have hspace : LeafKind.space ≠ .junk := nofun
  have hequals : p (.leaf .equals ['=']) := hp.leaf .equals _ nofun
  cases a with
  | absent => trivial
  | bare before =>
    exact forallOfAll_append.2 ⟨hp.leafUnlessEmpty hspace before, hequals, trivial⟩
  | value before after quoted =>
    refine forallOfAll_append.2 ⟨hp.leafUnlessEmpty hspace before, hequals, ?_⟩
    exact forallOfAll_append.2 ⟨hp.leafUnlessEmpty hspace after, hp.quoted quoted, trivial⟩

end Concrete

open Concrete (HoldsInTags)

theorem Filler.forall_concrete {p : Concrete → Prop} (hp : HoldsInTags p) {f : Filler} :
    f.concrete.Forall p ↔ (f.isJunk = true → f.concrete.Forall p) := by
  cases f with
  | space t => exact iff_of_true (hp.leaf .space t nofun) nofun
  | junk t => exact ⟨fun h _ => h, fun h => h rfl⟩

theorem TagItem.forall_concrete {p : Concrete → Prop} (hp : HoldsInTags p) : ∀ {i : TagItem},
    i.concrete.Forall p ↔ (i.isJunk = true → i.concrete.Forall p)
  | .attribute a => by
    refine iff_of_true ⟨hp.branch .attribute _ (by decide), hp.leaf .name _ nofun, ?_⟩ nofun
    exact hp.assignment a.assignment
  | .filler _ => Filler.forall_concrete hp

/-- A statement about tags holds throughout a start tag if it does of the junk in it. -/
theorem StartTag.forall_concrete {p : Concrete → Prop} (hp : HoldsInTags p) {tag : StartTag} :
    tag.concrete.Forall p ↔ ∀ i ∈ tag.items, i.isJunk = true → i.concrete.Forall p := by
  have hitems : ForallOfAll p (tag.items.map TagItem.concrete) ↔
      ∀ i ∈ tag.items, i.isJunk = true → i.concrete.Forall p := by
    rw [Concrete.forallOfAll_iff, List.forall_mem_map]
    exact forall₂_congr fun i _ => TagItem.forall_concrete hp
  have hending : ForallOfAll p tag.ending.concrete := by
    cases tag.ending with
    | content => exact ⟨hp.leaf .rightAngle _ nofun, trivial⟩
    | selfClosed => exact ⟨hp.leaf .slashRightAngle _ nofun, trivial⟩
    | missing => trivial
  rw [← hitems]
  constructor
  · intro h
    obtain ⟨-, -, hchildren⟩ := h
    exact (Concrete.forallOfAll_append.1 (Concrete.forallOfAll_append.1 hchildren).1).2
  · intro h
    refine ⟨hp.branch .startTag _ (by decide), hp.leaf .leftAngle _ nofun, ?_⟩
    refine Concrete.forallOfAll_append.2 ⟨Concrete.forallOfAll_append.2 ⟨?_, h⟩, hending⟩
    exact hp.nameLeaf tag.name

/-- A statement about tags holds inside an end tag if it does of the junk in it. -/
theorem EndTag.forall_children {p : Concrete → Prop} (hp : HoldsInTags p) {tag : EndTag} :
    ForallOfAll p tag.concrete.children ↔
      ∀ f ∈ tag.fillers, f.isJunk = true → f.concrete.Forall p := by
  have hfillers : ForallOfAll p (tag.fillers.map Filler.concrete) ↔
      ∀ f ∈ tag.fillers, f.isJunk = true → f.concrete.Forall p := by
    rw [Concrete.forallOfAll_iff, List.forall_mem_map]
    exact forall₂_congr fun f _ => Filler.forall_concrete hp
  have hclosed : ForallOfAll p (if tag.closed then [.leaf .rightAngle ['>']] else []) := by
    split
    · exact ⟨hp.leaf .rightAngle _ nofun, trivial⟩
    · trivial
  rw [← hfillers]
  constructor
  · intro h
    obtain ⟨-, hchildren⟩ := h
    exact (Concrete.forallOfAll_append.1 (Concrete.forallOfAll_append.1 hchildren).1).2
  · intro h
    refine ⟨hp.leaf .leftAngleSlash _ nofun, ?_⟩
    refine Concrete.forallOfAll_append.2 ⟨Concrete.forallOfAll_append.2 ⟨?_, h⟩, hclosed⟩
    exact hp.nameLeaf tag.name

/-! ## Trees that are neither elements nor end tags -/

namespace Concrete

/-- Whether a tree is neither an element nor an end tag. -/
def Plain (c : Concrete) : Prop := c.kind ≠ .inr .element ∧ c.kind ≠ .inr .endTag

theorem plain_leaf (kind : LeafKind) (t : Text) : (leaf kind t).Plain := ⟨nofun, nofun⟩

theorem holdsInTags_plain : HoldsInTags Plain where
  leaf kind t _ := plain_leaf kind t
  branch kind children hkind := by
    obtain rfl | rfl | rfl := hkind <;> exact ⟨nofun, nofun⟩

end Concrete

open Concrete (Plain)

theorem Filler.plain_concrete (f : Filler) : f.concrete.Forall Plain := by
  cases f with
  | space t => exact Concrete.plain_leaf _ _
  | junk t => exact ⟨⟨nofun, nofun⟩, Concrete.plain_leaf _ _, trivial⟩

theorem StartTag.plain_concrete (tag : StartTag) : tag.concrete.Forall Plain := by
  refine (StartTag.forall_concrete Concrete.holdsInTags_plain).2 fun i _ hjunk => ?_
  match i with
  | .attribute a => cases hjunk
  | .filler f => exact f.plain_concrete

/-- An end tag holds no element and no other end tag. -/
theorem EndTag.plain_children (tag : EndTag) : ForallOfAll Plain tag.concrete.children :=
  (EndTag.forall_children Concrete.holdsInTags_plain).2 fun f _ _ => f.plain_concrete

/-- The sites of an end tag: itself, and some that are neither elements nor end tags. -/
theorem EndTag.sites_concrete (around : List Placed) (offset : Nat) (tag : EndTag) :
    ∃ inner, tag.concrete.sites around offset = ⟨⟨offset, tag.concrete⟩, around⟩ :: inner ∧
      ∀ s ∈ inner, s.here.tree.Plain :=
  ⟨_, rfl, (Concrete.forall_sitesOfAll _ _ _).2 tag.plain_children⟩

theorem StartTag.plain_of_mem_sites {tag : StartTag} {around : List Placed} {offset : Nat} {s : Site}
    (h : s ∈ tag.concrete.sites around offset) : s.here.tree.Plain :=
  (Concrete.forall_sites around offset _).2 tag.plain_concrete s h

theorem Node.plain_concrete_run (kind : RunKind) (t : Text) :
    (Node.run kind t).concrete.Forall Plain :=
  ⟨⟨nofun, nofun⟩, Concrete.plain_leaf _ _, trivial⟩

theorem Document.plain_binary (t : Text) : (Document.binary t).concrete.Forall Plain := by
  refine ⟨⟨nofun, nofun⟩, ?_⟩
  unfold Concrete.leafUnlessEmpty
  split
  · trivial
  · exact ⟨Concrete.plain_leaf .junk t, trivial⟩

end ProjectFile.Markup
