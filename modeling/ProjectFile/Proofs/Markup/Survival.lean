import ProjectFile.Proofs.Markup.Slot

/-!
What an insertion does to the trees of a document.

A tree is `Placed.Kept` if it stands in the new document as the insertion of a text leaves it: where
it was if it ends before the place, moved if it starts behind the place, and with the text in it if
the place is inside it. Trees that only have others put in between are all kept, and so are those
around them: `Concrete.Grows` is closed under what stands beside (`Grows.beside`) and under branches
(`Grows.branch`), hence under frames (`Frame.grows_plug`). So an insertion into a slot that is read
as nodes of its own keeps every tree of the document (`Slot.allKept`).
-/

namespace ProjectFile.Markup

/-! ## Trees that are kept -/

/-- Whether a tree of a text stands, as the second one, in the text with `w` inserted at `gap`. -/
inductive Placed.Kept (gap : Nat) (w : Text) : Placed → Placed → Prop
  | before {p : Placed} (hstop : p.stop ≤ gap) : Kept gap w p p
  | behind {p : Placed} (hstart : gap ≤ p.start) : Kept gap w p ⟨p.start + w.width, p.tree⟩
  | inside {p q : Placed} (hstart : p.start < gap) (hstop : gap < p.stop)
    (hplace : q.start = p.start) (hkind : q.tree.kind = p.tree.kind)
    (htext : q.tree.text = p.tree.text.insertAt (gap - p.start) w) : Kept gap w p q

/-- Whether the trees at all of some sites are kept at some of others. -/
def Site.AllKept (gap : Nat) (w : Text) (old new : List Site) : Prop :=
  ∀ s ∈ old, ∃ s' ∈ new, s.here.Kept gap w s'.here

open Site (AllKept)

section

variable {gap : Nat} {w : Text}

theorem Site.AllKept.append {as bs as' bs' : List Site} (has : AllKept gap w as as')
    (hbs : AllKept gap w bs bs') : AllKept gap w (as ++ bs) (as' ++ bs') := by
  intro s hs
  rcases List.mem_append.1 hs with hs | hs
  · obtain ⟨s', hs', hkept⟩ := has s hs
    exact ⟨s', List.mem_append_left _ hs', hkept⟩
  · obtain ⟨s', hs', hkept⟩ := hbs s hs
    exact ⟨s', List.mem_append_right _ hs', hkept⟩

theorem Site.AllKept.cons {s s' : Site} {ss ss' : List Site} (hs : s.here.Kept gap w s'.here)
    (hss : AllKept gap w ss ss') : AllKept gap w (s :: ss) (s' :: ss') := by
  intro r hr
  rcases List.mem_cons.1 hr with rfl | hr
  · exact ⟨s', List.mem_cons_self, hs⟩
  · obtain ⟨r', hr', hkept⟩ := hss r hr
    exact ⟨r', List.mem_cons_of_mem _ hr', hkept⟩

/-- Sites that are new do no harm. -/
theorem Site.AllKept.append_right {as bs : List Site} (h : AllKept gap w as bs) (new : List Site) :
    AllKept gap w as (new ++ bs) := by
  intro s hs
  obtain ⟨s', hs', hkept⟩ := h s hs
  exact ⟨s', List.mem_append_right _ hs', hkept⟩

end

namespace Concrete

theorem widthOfAll_append (cs ds : List Concrete) :
    widthOfAll (cs ++ ds) = widthOfAll cs + widthOfAll ds := by
  rw [widthOfAll_eq, textOfAll_append, Text.width_append, ← widthOfAll_eq, ← widthOfAll_eq]

mutual

theorem bounds_of_mem_sites (around : List Placed) (offset : Nat) : ∀ c : Concrete,
    ∀ s ∈ c.sites around offset, offset ≤ s.here.start ∧ s.here.stop ≤ offset + c.width
  | .leaf kind t => by
    rw [sites, List.forall_mem_singleton]
    exact ⟨Nat.le_refl _, Nat.le_refl _⟩
  | .branch kind children => by
    rw [sites, List.forall_mem_cons]
    exact ⟨⟨Nat.le_refl _, Nat.le_refl _⟩, bounds_of_mem_sitesOfAll _ offset children⟩

/-- The sites in some trees stand where the trees do. -/
theorem bounds_of_mem_sitesOfAll (around : List Placed) (offset : Nat) : ∀ cs : List Concrete,
    ∀ s ∈ sitesOfAll around offset cs,
      offset ≤ s.here.start ∧ s.here.stop ≤ offset + widthOfAll cs
  | [] => nofun
  | c :: cs => by
    rw [sitesOfAll, widthOfAll]
    intro s hs
    rcases List.mem_append.1 hs with hs | hs
    · have hc := bounds_of_mem_sites around offset c s hs
      omega
    · have hcs := bounds_of_mem_sitesOfAll around (offset + c.width) cs s hs
      omega

end

mutual

theorem exists_moved_site (around around' : List Placed) (offset size : Nat) : ∀ c : Concrete,
    ∀ s ∈ c.sites around offset, ∃ s' ∈ c.sites around' (offset + size),
      s'.here = ⟨s.here.start + size, s.here.tree⟩
  | .leaf kind t => by
    rw [sites, List.forall_mem_singleton]
    exact ⟨_, List.mem_cons_self, rfl⟩
  | .branch kind children => by
    rw [sites, List.forall_mem_cons]
    refine ⟨⟨_, List.mem_cons_self, rfl⟩, fun s hs => ?_⟩
    obtain ⟨s', hs', hhere⟩ := exists_moved_siteOfAll _ (⟨offset + size, .branch kind children⟩ :: around')
      offset size children s hs
    exact ⟨s', List.mem_cons_of_mem _ hs', hhere⟩

/-- **Trees that are moved have their sites moved**, whatever is around them. -/
theorem exists_moved_siteOfAll (around around' : List Placed) (offset size : Nat) :
    ∀ cs : List Concrete, ∀ s ∈ sitesOfAll around offset cs,
      ∃ s' ∈ sitesOfAll around' (offset + size) cs, s'.here = ⟨s.here.start + size, s.here.tree⟩
  | [] => nofun
  | c :: cs => by
    rw [sitesOfAll, sitesOfAll]
    intro s hs
    rcases List.mem_append.1 hs with hs | hs
    · obtain ⟨s', hs', hhere⟩ := exists_moved_site around around' offset size c s hs
      exact ⟨s', List.mem_append_left _ hs', hhere⟩
    · obtain ⟨s', hs', hhere⟩ :=
        exists_moved_siteOfAll around around' (offset + c.width) size cs s hs
      rw [Nat.add_right_comm] at hs'
      exact ⟨s', List.mem_append_right _ hs', hhere⟩

end

theorem allKept_before {gap offset : Nat} {cs : List Concrete} (h : offset + widthOfAll cs ≤ gap)
    (w : Text) (around around' : List Placed) :
    AllKept gap w (sitesOfAll around offset cs) (sitesOfAll around' offset cs) := by
  intro s hs
  have hbounds := bounds_of_mem_sitesOfAll around offset cs s hs
  obtain ⟨s', hs', hhere⟩ := exists_moved_siteOfAll around around' offset 0 cs s hs
  refine ⟨s', hs', ?_⟩
  rw [hhere]
  exact .before (by omega)

theorem allKept_behind {gap offset : Nat} (h : gap ≤ offset) (w : Text) (cs : List Concrete)
    (around around' : List Placed) :
    AllKept gap w (sitesOfAll around offset cs) (sitesOfAll around' (offset + w.width) cs) := by
  intro s hs
  have hbounds := bounds_of_mem_sitesOfAll around offset cs s hs
  obtain ⟨s', hs', hhere⟩ := exists_moved_siteOfAll around around' offset w.width cs s hs
  refine ⟨s', hs', ?_⟩
  rw [hhere]
  exact .behind (by omega)

/-! ## Trees that grow -/

/-- Whether trees from `offset` on become others when `w` is inserted at `gap`, among them or inside
them, and every tree is kept. -/
structure Grows (gap : Nat) (w : Text) (offset : Nat) (cs ds : List Concrete) : Prop where
  text : ∃ a b, textOfAll cs = a ++ b ∧ textOfAll ds = a ++ (w ++ b) ∧ gap = offset + Text.width a
  kept : ∀ around around',
    AllKept gap w (sitesOfAll around offset cs) (sitesOfAll around' offset ds)

section

variable {gap : Nat} {w : Text} {offset : Nat} {cs ds : List Concrete}

theorem Grows.width (h : Grows gap w offset cs ds) :
    offset ≤ gap ∧ gap ≤ offset + widthOfAll cs ∧ widthOfAll ds = widthOfAll cs + w.width := by
  obtain ⟨a, b, hcs, hds, hgap⟩ := h.text
  rw [widthOfAll_eq, widthOfAll_eq, hcs, hds]
  simp only [Text.width_append]
  omega

/-- Trees grow by what is put between them. -/
theorem grows_of_insert (front back : List Concrete) {new : List Concrete} (hnew : textOfAll new = w)
    (hgap : gap = offset + widthOfAll front) :
    Grows gap w offset (front ++ back) (front ++ (new ++ back)) where
  text := by
    refine ⟨textOfAll front, textOfAll back, textOfAll_append _ _, ?_, ?_⟩
    · rw [textOfAll_append, textOfAll_append, hnew]
    · rw [hgap, widthOfAll_eq]
  kept := by
    intro around around'
    have hwidth : widthOfAll new = w.width := by rw [widthOfAll_eq, hnew]
    rw [sitesOfAll_append, sitesOfAll_append, sitesOfAll_append, hwidth]
    have hbehind := allKept_behind (Nat.le_of_eq hgap) w back around around'
    exact (allKept_before (Nat.le_of_eq hgap.symm) w around around').append (hbehind.append_right _)

/-- Trees beside those that grow are kept. -/
theorem Grows.beside {front : List Concrete}
    (h : Grows gap w (offset + widthOfAll front) cs ds) (back : List Concrete) :
    Grows gap w offset (front ++ (cs ++ back)) (front ++ (ds ++ back)) where
  text := by
    obtain ⟨a, b, hcs, hds, hgap⟩ := h.text
    refine ⟨textOfAll front ++ a, b ++ textOfAll back, ?_, ?_, ?_⟩
    · simp [textOfAll_append, hcs]
    · simp [textOfAll_append, hds]
    · rw [hgap, Text.width_append, widthOfAll_eq, Nat.add_assoc]
  kept := by
    intro around around'
    obtain ⟨hstart, hstop, hwidth⟩ := h.width
    rw [sitesOfAll_append, sitesOfAll_append, sitesOfAll_append, sitesOfAll_append, hwidth,
      ← Nat.add_assoc (offset + widthOfAll front)]
    refine (allKept_before hstart w around around').append ?_
    exact (h.kept around around').append (allKept_behind hstop w back around around')

/-- A branch grows with what is below it. -/
theorem Grows.branch (h : Grows gap w offset cs ds) (kind : BranchKind) (hstart : offset < gap)
    (hstop : gap < offset + widthOfAll cs) :
    Grows gap w offset [.branch kind cs] [.branch kind ds] where
  text := by simpa [textOfAll, Concrete.text] using h.text
  kept := by
    intro around around'
    simp only [sitesOfAll, sites, List.append_nil]
    refine .cons (.inside hstart hstop rfl rfl ?_) (h.kept _ _)
    obtain ⟨a, b, hcs, hds, hgap⟩ := h.text
    have hplace : gap - offset = Text.width a := by omega
    simp only [Concrete.text]
    rw [hcs, hds, hplace, Text.insertAt_append]

end

end Concrete

open Concrete (Grows)

/-! ## Frames and slots -/

theorem EndTag.width_pos (tag : EndTag) : 0 < tag.text.width := by
  have hopener : EndTag.opener.width = 2 := rfl
  simp only [text, Text.width_append]
  omega

theorem Node.concreteOfAll_append (ms ns : List Node) :
    concreteOfAll (ms ++ ns) = concreteOfAll ms ++ concreteOfAll ns := by
  induction ms with
  | nil => rfl
  | cons m ms ih => rw [List.cons_append, concreteOfAll, concreteOfAll, ih, List.cons_append]

/-- **Frames grow with what is plugged in.** -/
theorem Frame.grows_plug {fs : List Frame} (hfs : ∀ f ∈ fs, f.Sound) {gap : Nat} {w : Text}
    {offset : Nat} {inner inner' : List Node}
    (h : Grows gap w (start offset fs) (Node.concreteOfAll inner) (Node.concreteOfAll inner')) :
    Grows gap w offset (Node.concreteOfAll (plug fs inner)) (Node.concreteOfAll (plug fs inner')) := by
  induction fs generalizing offset with
  | nil => exact h
  | cons f fs ih =>
    obtain ⟨hf, hfs⟩ := List.forall_mem_cons.1 hfs
    have htag := hf.tag.width_pos
    let here := offset + Node.widthOfAll f.before
    have hchildren (content : List Node) :
        (Node.element f.tag content (some f.closer)).concrete =
          .branch .element ([f.tag.concrete] ++ (Node.concreteOfAll content ++ [f.closer.concrete])) :=
      rfl
    have hopener : Concrete.widthOfAll [f.tag.concrete] = f.tag.text.width := f.tag.width_concrete
    have hinner : Grows gap w (here + Concrete.widthOfAll [f.tag.concrete])
        (Node.concreteOfAll (plug fs inner)) (Node.concreteOfAll (plug fs inner')) := by
      rw [hopener]
      exact ih hfs h
    obtain ⟨hstart, hstop, -⟩ := hinner.width
    have hcloser : Concrete.widthOfAll [f.closer.concrete] = f.closer.text.width :=
      f.closer.width_concrete
    have hpos := f.closer.width_pos
    have helement := (hinner.beside [f.closer.concrete]).branch .element (by omega) (by
      rw [Concrete.widthOfAll_append, Concrete.widthOfAll_append]
      omega)
    rw [← hchildren, ← hchildren] at helement
    have hbefore : Grows gap w (offset + Concrete.widthOfAll (Node.concreteOfAll f.before))
        [(Node.element f.tag (plug fs inner) (some f.closer)).concrete]
        [(Node.element f.tag (plug fs inner') (some f.closer)).concrete] := by
      rw [Node.width_concreteOfAll]
      exact helement
    have hframe := hbefore.beside (Node.concreteOfAll f.after)
    simpa only [plug, Node.concreteOfAll_append, Node.concreteOfAll, List.singleton_append] using hframe

/-- **An insertion into a slot that is read as nodes of its own keeps every tree.** -/
theorem Slot.allKept {t : Text} (s : Slot t) (hbetween : s.inner = s.front ++ s.back) {w : Text}
    {new : List Node} (hnew : Node.textOfAll new = w)
    (hparse : Document.parse (t.insertAt s.offset w) =
      .markup (Frame.plug s.frames (s.front ++ (new ++ s.back)))) :
    AllKept s.offset w (Document.parse t).sites (Document.parse (t.insertAt s.offset w)).sites := by
  have hinner : Grows s.offset w (Frame.start 0 s.frames) (Node.concreteOfAll s.inner)
      (Node.concreteOfAll (s.front ++ (new ++ s.back))) := by
    rw [hbetween]
    simp only [Node.concreteOfAll_append]
    refine Concrete.grows_of_insert _ _ ?_ ?_
    · rw [Node.text_concreteOfAll, hnew]
    · rw [Node.width_concreteOfAll, Slot.offset]
  have hall := Frame.grows_plug s.sound_frames hinner
  have hwidth : Concrete.widthOfAll (Node.concreteOfAll (Frame.plug s.frames s.inner)) = t.width := by
    rw [Node.width_concreteOfAll, Node.widthOfAll_eq]
    exact congrArg Text.width s.reading.text_eq
  have hdocument := hall.branch .document (Nat.lt_of_le_of_lt (Nat.zero_le _) (s.start_element_lt []))
    (by rw [hwidth, Nat.zero_add]; exact s.offset_lt)
  have hkept := hdocument.kept [] []
  simp only [Concrete.sitesOfAll, List.append_nil] at hkept
  rw [s.reading.parse_eq, hparse]
  exact hkept

end ProjectFile.Markup
