import Mathlib.Data.List.Induction
import Mathlib.Data.List.Sort
import ProjectFile.Evaluation.Locator
import ProjectFile.Proofs.Evaluation.Changes

/-!
What an object locator is made of.

A site is a reported declaration with the element that is found where it stands. A locator is built
by adding one site after the other, so the module says once what adding a site does
(`Gathers.add`): a site whose element has no entry yet makes an entry of its own, and another item
of an element joins the entry of that element. From it, by induction, `gathers_build` says what a
whole locator holds, provided that no two sites but items of one element have an element in common
(`Site.Apart`).

In the order of their elements, the entries of some sites are these sites again (`Gathers.filter_eq`),
and the items of the entries are the items of the project (`Gathers.flatMap_items`).
-/

namespace ProjectFile.Evaluation

open Markup

/-! ## Sites -/

/-- A reported declaration with the element that makes it. -/
structure Site where
  declaration : ReportedDeclaration
  element : Element

namespace Site

/-- The object that is declared. -/
def object (s : Site) : EvaluatedObject := s.declaration.object

/-- The kind of the declaration. -/
def kind (s : Site) : ObjectKind := s.declaration.kind

/-- The entry of a site that has its element to itself. -/
def entry (s : Site) : LocatedObject :=
  ⟨s.kind, s.object.name, s.element.span, s.declaration.provenance, s.declaration.value,
    [s.object]⟩

/-- Whether two sites have different elements, or are items that one element includes. -/
def Apart (a b : Site) : Prop :=
  a.element.start ≠ b.element.start ∨
    a.kind = .item ∧ b.kind = .item ∧ b.object.name = a.object.name ∧ b.element = a.element

end Site

/-- The site of a declaration, if there is an element where it stands. -/
def site? (leaves : List Leaf) (width : Nat) (index : LineIndex) (d : ReportedDeclaration) :
    Option Site :=
  (elementOf? leaves width index d.provenance).map fun e => ⟨d, e⟩

/-- The objects of the sites whose element starts at an offset. -/
def objectsAt (sites : List Site) (start : Nat) : List EvaluatedObject :=
  (sites.filter fun s => s.element.start == start).map Site.object

/-- The entry of a site with the objects of all the sites of its element. -/
def Site.gathered (sites : List Site) (s : Site) : LocatedObject :=
  { s.entry with objects := objectsAt sites s.element.start }

theorem Site.gathered_concat_of_eq {s f : Site} (h : f.element.start = s.element.start)
    (sites : List Site) :
    f.gathered (sites ++ [s]) =
      { f.gathered sites with objects := (f.gathered sites).objects ++ [s.object] } := by
  simp [gathered, objectsAt, h]

theorem Site.gathered_concat_of_ne {s f : Site} (h : f.element.start ≠ s.element.start)
    (sites : List Site) : f.gathered (sites ++ [s]) = f.gathered sites := by
  simp [gathered, objectsAt, h.symm]

/-- A site that has its element to itself is gathered alone. -/
theorem Site.gathered_concat_of_fresh {s : Site} {sites : List Site}
    (h : ∀ r ∈ sites, r.element.start ≠ s.element.start) :
    s.gathered (sites ++ [s]) = s.entry := by
  have hnone : (sites.filter fun r => r.element.start == s.element.start) = [] := by
    rw [List.filter_eq_nil_iff]
    simpa using h
  rw [gathered, objectsAt, List.filter_append, hnone]
  simp [entry]

/-! ## Adding a site -/

namespace ObjectLocator

/-- Adds a site to the entries. -/
def addSite (entries : List LocatedObject) (s : Site) : List LocatedObject :=
  add s.declaration s.element.span entries

/-- An entry of another element is passed over. -/
theorem addSite_cons_of_ne {s f : Site} (h : f.element.start ≠ s.element.start) (sites : List Site)
    (entries : List LocatedObject) :
    addSite (f.gathered sites :: entries) s = f.gathered (sites ++ [s]) :: addSite entries s := by
  rw [addSite, add, if_neg fun hsame => h (congrArg Span.start hsame.1),
    Site.gathered_concat_of_ne h]
  rfl

/-- Another item of an element joins the entry of the element. -/
theorem addSite_cons_of_item {s f : Site} (hitem : f.kind = .item) (hkind : s.kind = .item)
    (hname : s.object.name = f.object.name) (helement : s.element = f.element)
    (sites : List Site) (entries : List LocatedObject) :
    addSite (f.gathered sites :: entries) s = f.gathered (sites ++ [s]) :: entries := by
  have hsame : (f.gathered sites).span = s.element.span ∧
      (f.gathered sites).kind = s.declaration.kind ∧
      Text.sameName (f.gathered sites).name s.declaration.object.name = true :=
    ⟨by rw [helement]; rfl, hitem.trans hkind.symm,
      Text.sameName_iff.2 (congrArg Text.fold hname.symm)⟩
  have hnew : ¬ holds (f.gathered sites) s.declaration.object = true := by
    rw [holds, show (f.gathered sites).kind = f.kind from rfl, hitem]
    exact Bool.false_ne_true
  rw [addSite, add, if_pos hsame, if_neg hnew,
    Site.gathered_concat_of_eq (congrArg Element.start helement.symm)]
  rfl

end ObjectLocator

/-- Whether some of the sites are the first ones of their elements: they have different elements,
and together all of them. -/
structure Leaders (sites leaders : List Site) : Prop where
  apart : leaders.Pairwise fun a b => a.element.start ≠ b.element.start
  subset : leaders ⊆ sites
  held : ∀ s ∈ sites, ∃ f ∈ leaders, f.element.start = s.element.start

/-- A site of an element that has an entry is gathered there. -/
theorem addSite_of_held {sites leaders : List Site} {s : Site}
    (hapart : leaders.Pairwise fun a b => a.element.start ≠ b.element.start)
    (hs : ∀ f ∈ leaders, f.Apart s)
    (hheld : ∃ f ∈ leaders, f.element.start = s.element.start) :
    ObjectLocator.addSite (leaders.map (Site.gathered sites)) s =
      leaders.map (Site.gathered (sites ++ [s])) := by
  induction leaders with
  | nil => simp at hheld
  | cons f leaders ih =>
    obtain ⟨hfirst, hapart⟩ := List.pairwise_cons.1 hapart
    obtain ⟨hf, hs⟩ := List.forall_mem_cons.1 hs
    by_cases hstart : f.element.start = s.element.start
    · obtain ⟨hitem, hkind, hname, helement⟩ := hf.resolve_left fun hne => hne hstart
      rw [List.map_cons, ObjectLocator.addSite_cons_of_item hitem hkind hname helement,
        List.map_cons]
      congr 1
      apply List.map_congr_left
      intro r hr
      exact (Site.gathered_concat_of_ne (fun hr' => hfirst r hr (hstart.trans hr'.symm)) sites).symm
    · have hheld : ∃ f ∈ leaders, f.element.start = s.element.start := by
        obtain ⟨r, hr, hrstart⟩ := hheld
        rcases List.mem_cons.1 hr with rfl | hr
        · exact absurd hrstart hstart
        · exact ⟨r, hr, hrstart⟩
      rw [List.map_cons, ObjectLocator.addSite_cons_of_ne hstart, ih hapart hs hheld, List.map_cons]

/-- A site of an element that has no entry makes one. -/
theorem addSite_of_fresh {sites leaders : List Site} {s : Site}
    (hfresh : ∀ f ∈ leaders, f.element.start ≠ s.element.start) :
    ObjectLocator.addSite (leaders.map (Site.gathered sites)) s =
      leaders.map (Site.gathered (sites ++ [s])) ++ [s.entry] := by
  induction leaders with
  | nil => rfl
  | cons f leaders ih =>
    obtain ⟨hf, hfresh⟩ := List.forall_mem_cons.1 hfresh
    rw [List.map_cons, ObjectLocator.addSite_cons_of_ne hf, ih hfresh]
    rfl

/-- **What adding a site does:** the entries gather the site as well. -/
theorem Leaders.addSite {sites leaders : List Site} (h : Leaders sites leaders) {s : Site}
    (hs : ∀ r ∈ sites, r.Apart s) : ∃ leaders', Leaders (sites ++ [s]) leaders' ∧
      ObjectLocator.addSite (leaders.map (Site.gathered sites)) s =
        leaders'.map (Site.gathered (sites ++ [s])) := by
  have hsubset : leaders ⊆ sites ++ [s] := fun f hf => List.mem_append_left _ (h.subset hf)
  by_cases hheld : ∃ f ∈ leaders, f.element.start = s.element.start
  · refine ⟨leaders, ⟨h.apart, hsubset, ?_⟩,
      addSite_of_held h.apart (fun f hf => hs f (h.subset hf)) hheld⟩
    exact List.forall_mem_append.2 ⟨h.held, List.forall_mem_singleton.2 hheld⟩
  · have hfresh : ∀ f ∈ leaders, f.element.start ≠ s.element.start :=
      fun f hf hstart => hheld ⟨f, hf, hstart⟩
    have hnew : ∀ r ∈ sites, r.element.start ≠ s.element.start := by
      intro r hr hstart
      obtain ⟨f, hf, hfstart⟩ := h.held r hr
      exact hfresh f hf (hfstart.trans hstart)
    refine ⟨leaders ++ [s], ⟨?_, ?_, ?_⟩, ?_⟩
    · refine List.pairwise_append.2 ⟨h.apart, List.pairwise_singleton _ _, fun f hf r hr => ?_⟩
      rw [List.mem_singleton.1 hr]
      exact hfresh f hf
    · exact List.append_subset.2 ⟨hsubset, List.subset_append_right _ _⟩
    · intro r hr
      rcases List.mem_append.1 hr with hr | hr
      · obtain ⟨f, hf, hstart⟩ := h.held r hr
        exact ⟨f, List.mem_append_left _ hf, hstart⟩
      · exact ⟨r, List.mem_append_right _ hr, rfl⟩
    · rw [addSite_of_fresh hfresh, List.map_append, List.map_singleton,
        Site.gathered_concat_of_fresh hnew]

/-- Sites that are added one after the other are gathered. -/
theorem exists_leaders {sites : List Site} (h : sites.Pairwise Site.Apart) :
    ∃ leaders, Leaders sites leaders ∧
      sites.foldl ObjectLocator.addSite [] = leaders.map (Site.gathered sites) := by
  induction sites using List.reverseRecOn with
  | nil => exact ⟨[], ⟨.nil, List.Subset.refl _, by simp⟩, rfl⟩
  | append_singleton sites s ih =>
    obtain ⟨hsites, -, hs⟩ := List.pairwise_append.1 h
    obtain ⟨leaders, hleaders, hfold⟩ := ih hsites
    obtain ⟨leaders', hleaders', hadd⟩ :=
      hleaders.addSite fun r hr => hs r hr s (List.mem_singleton.2 rfl)
    refine ⟨leaders', hleaders', ?_⟩
    rw [List.foldl_append, hfold]
    exact hadd

/-! ## Lists by number -/

/-- In a list that comes in the order of a number, those of the least number are in front. -/
theorem filter_append_filter {α : Type} {f : α → Nat} {least : Nat} {xs : List α}
    (hxs : xs.Pairwise fun x y => f x ≤ f y) (hleast : ∀ x ∈ xs, least ≤ f x) :
    (xs.filter fun x => f x == least) ++ (xs.filter fun x => f x != least) = xs := by
  induction xs with
  | nil => rfl
  | cons x xs ih =>
    obtain ⟨hx, hxs⟩ := List.pairwise_cons.1 hxs
    obtain ⟨hle, hleast⟩ := List.forall_mem_cons.1 hleast
    by_cases heq : f x = least
    · simp [heq, ih hxs hleast]
    · have hnone : (xs.filter fun x => f x == least) = [] := by
        rw [List.filter_eq_nil_iff]
        intro y hy
        have hxy := hx y hy
        simp only [beq_iff_eq]
        omega
      have hall := ih hxs hleast
      rw [hnone, List.nil_append] at hall
      simp [heq, hnone, hall]

/-- A list that comes in the order of a number is the lists of its members of each number, one after
the other. -/
theorem flatMap_filter_eq {α : Type} {f : α → Nat} {ks : List Nat} (hks : ks.Pairwise (· < ·))
    {xs : List α} (hxs : xs.Pairwise fun x y => f x ≤ f y) (hmem : ∀ x ∈ xs, f x ∈ ks) :
    (ks.flatMap fun k => xs.filter fun x => f x == k) = xs := by
  induction ks generalizing xs with
  | nil =>
    cases xs with
    | nil => rfl
    | cons x xs => exact absurd (hmem x List.mem_cons_self) List.not_mem_nil
  | cons k ks ih =>
    obtain ⟨hk, hks⟩ := List.pairwise_cons.1 hks
    let rest := xs.filter fun x => f x != k
    have hrest : (ks.flatMap fun k => rest.filter fun x => f x == k) = rest := by
      refine ih hks (hxs.sublist List.filter_sublist) fun x hx => ?_
      obtain ⟨hx, hne⟩ := List.mem_filter.1 hx
      exact (List.mem_cons.1 (hmem x hx)).resolve_left (by simpa using hne)
    have hsame : ∀ k' ∈ ks, (rest.filter fun x => f x == k') = xs.filter fun x => f x == k' := by
      intro k' hk'
      have hlt := hk k' hk'
      rw [List.filter_filter]
      apply List.filter_congr
      intro x _
      by_cases heq : f x = k'
      · simp [heq, show k' ≠ k by omega]
      · simp [heq]
    have hleast : ∀ x ∈ xs, k ≤ f x := by
      intro x hx
      rcases List.mem_cons.1 (hmem x hx) with heq | hin
      · exact Nat.le_of_eq heq.symm
      · exact Nat.le_of_lt (hk _ hin)
    rw [List.flatMap_cons, ← List.flatMap_congr hsame, hrest]
    exact filter_append_filter hxs hleast

/-! ## Whole locators -/

/-- Only declarations that stand at an element are located. -/
theorem foldl_locate (leaves : List Leaf) (width : Nat) (index : LineIndex)
    (ds : List ReportedDeclaration) : ds.foldl (ObjectLocator.locate leaves width index) [] =
      (ds.filterMap (site? leaves width index)).foldl ObjectLocator.addSite [] := by
  rw [List.foldl_filterMap]
  congr 1
  funext entries d
  rw [ObjectLocator.locate, site?]
  cases elementOf? leaves width index d.provenance <;> rfl

theorem ObjectLocator.precedes_iff {a b : LocatedObject} : precedes a b = true ↔
    a.span.start < b.span.start ∨ a.span.start = b.span.start ∧ b.span.stop ≤ a.span.stop := by
  simp [precedes]

theorem ObjectLocator.pairwise_precedes_mergeSort (entries : List LocatedObject) :
    (entries.mergeSort precedes).Pairwise fun a b => precedes a b = true := by
  refine List.pairwise_mergeSort (fun a b c => ?_) (fun a b => ?_) entries
  · simp only [precedes_iff]
    omega
  · rw [Bool.or_eq_true, precedes_iff, precedes_iff]
    omega

/-- Sorted entries of different elements stand one behind the other. -/
theorem increasing_mergeSort {entries : List LocatedObject}
    (h : entries.Pairwise fun a b => a.span.start ≠ b.span.start) :
    (entries.mergeSort ObjectLocator.precedes).Pairwise fun a b => a.span.start < b.span.start := by
  have hsorted := ObjectLocator.pairwise_precedes_mergeSort entries
  have hapart := (List.mergeSort_perm entries ObjectLocator.precedes).symm.pairwise h
    fun hne => hne.symm
  refine (hsorted.and hapart).imp ?_
  intro a b hab
  rw [ObjectLocator.precedes_iff] at hab
  omega

/-- What the entries of a locator hold of the sites they were made of: one entry for each element,
in the order of the text. -/
structure Gathers (sites : List Site) (entries : List LocatedObject) : Prop where
  increasing : entries.Pairwise fun a b => a.span.start < b.span.start
  entry : ∀ o ∈ entries, ∃ s ∈ sites, o = s.gathered sites
  held : ∀ s ∈ sites, ∃ o ∈ entries, o.span.start = s.element.start

/-- **A locator gathers the sites of the declarations that are reported.** -/
theorem gathers_build (p : EvaluatedProject) (d : Document) (index : LineIndex) {sites : List Site}
    (hsites : (ReportedDeclaration.ofProject p).filterMap (site? d.leaves d.width index) =
      sites)
    (hapart : sites.Pairwise Site.Apart) : Gathers sites (ObjectLocator.build p d index).entries := by
  obtain ⟨leaders, hleaders, hfold⟩ := exists_leaders hapart
  have hentries : (ObjectLocator.build p d index).entries =
      (leaders.map (Site.gathered sites)).mergeSort ObjectLocator.precedes := by
    rw [ObjectLocator.build, foldl_locate, hsites, hfold]
  have hmem : ∀ o, o ∈ (ObjectLocator.build p d index).entries ↔
      o ∈ leaders.map (Site.gathered sites) := by
    intro o
    rw [hentries]
    exact (List.mergeSort_perm _ _).mem_iff
  refine ⟨?_, ?_, ?_⟩
  · rw [hentries]
    exact increasing_mergeSort (List.pairwise_map.2 hleaders.apart)
  · intro o ho
    obtain ⟨f, hf, rfl⟩ := List.mem_map.1 ((hmem o).1 ho)
    exact ⟨f, hleaders.subset hf, rfl⟩
  · intro s hs
    obtain ⟨f, hf, hstart⟩ := hleaders.held s hs
    exact ⟨_, (hmem _).2 (List.mem_map_of_mem hf), hstart⟩

/-- Only the items of one element share it. -/
theorem exists_append_of_mem {sites : List Site} (hapart : sites.Pairwise Site.Apart) {s : Site}
    (hs : s ∈ sites) (hkind : s.kind ≠ .item) : ∃ pre post, sites = pre ++ s :: post ∧
      (∀ r ∈ pre, r.element.start ≠ s.element.start) ∧
      ∀ r ∈ post, r.element.start ≠ s.element.start := by
  obtain ⟨pre, post, rfl⟩ := List.append_of_mem hs
  obtain ⟨-, hpost, hacross⟩ := List.pairwise_append.1 hapart
  refine ⟨pre, post, rfl, ?_, ?_⟩
  · intro r hr
    rcases hacross r hr s List.mem_cons_self with hne | ⟨-, hitem, -⟩
    · exact hne
    · exact absurd hitem hkind
  · intro r hr
    rcases (List.pairwise_cons.1 hpost).1 r hr with hne | ⟨hitem, -⟩
    · exact hne.symm
    · exact absurd hitem hkind

theorem eq_of_start {sites : List Site} (hapart : sites.Pairwise Site.Apart) {s r : Site}
    (hs : s ∈ sites) (hr : r ∈ sites) (hstart : r.element.start = s.element.start)
    (hkind : s.kind ≠ .item) : r = s := by
  obtain ⟨pre, post, rfl, hpre, hpost⟩ := exists_append_of_mem hapart hs hkind
  rcases List.mem_append.1 hr with hr | hr
  · exact absurd hstart (hpre r hr)
  rcases List.mem_cons.1 hr with rfl | hr
  · rfl
  · exact absurd hstart (hpost r hr)

/-- A site that is not of an item is gathered alone. -/
theorem Site.gathered_eq_entry {sites : List Site} (hapart : sites.Pairwise Site.Apart) {s : Site}
    (hs : s ∈ sites) (hkind : s.kind ≠ .item) : s.gathered sites = s.entry := by
  obtain ⟨pre, post, rfl, hpre, hpost⟩ := exists_append_of_mem hapart hs hkind
  have hnone (rs : List Site) (hrs : ∀ r ∈ rs, r.element.start ≠ s.element.start) :
      (rs.filter fun r => r.element.start == s.element.start) = [] := by
    rw [List.filter_eq_nil_iff]
    simpa using hrs
  rw [gathered, objectsAt, List.filter_append, List.filter_cons, hnone pre hpre, hnone post hpost]
  simp [entry]

namespace Gathers

variable {sites : List Site} {entries : List LocatedObject}

/-! ## Entries of one site -/

/-- **The entries that are not of items are those of their sites, in the order of the text.** -/
theorem filter_eq (h : Gathers sites entries) (hapart : sites.Pairwise Site.Apart)
    {chosen : LocatedObject → Bool} (hchosen : ∀ o, chosen o = true → o.kind ≠ .item)
    {sites' : List Site} (hordered : sites'.Pairwise fun a b => a.element.start < b.element.start)
    (hmem : ∀ s, s ∈ sites' ↔ s ∈ sites ∧ chosen s.entry = true) :
    entries.filter chosen = sites'.map Site.entry := by
  have hirrefl : Std.Irrefl fun a b : LocatedObject => a.span.start < b.span.start :=
    ⟨fun _ => Nat.lt_irrefl _⟩
  have hantisymm : Std.Antisymm fun a b : LocatedObject => a.span.start < b.span.start :=
    ⟨fun _ _ hab hba => absurd hab (Nat.lt_asymm hba)⟩
  refine (h.increasing.sublist List.filter_sublist).eq_of_mem_iff (List.pairwise_map.2 hordered) ?_
  intro o
  rw [List.mem_filter, List.mem_map]
  constructor
  · rintro ⟨ho, hchosen'⟩
    obtain ⟨s, hs, rfl⟩ := h.entry o ho
    have hentry := Site.gathered_eq_entry hapart hs (hchosen _ hchosen')
    exact ⟨s, (hmem s).2 ⟨hs, hentry ▸ hchosen'⟩, hentry.symm⟩
  · rintro ⟨s, hs, rfl⟩
    obtain ⟨hs, hchosen'⟩ := (hmem s).1 hs
    obtain ⟨o, ho, hstart⟩ := h.held s hs
    obtain ⟨r, hr, rfl⟩ := h.entry o ho
    have hkind : s.kind ≠ .item := hchosen _ hchosen'
    obtain rfl : r = s := eq_of_start hapart hs hr hstart hkind
    rw [Site.gathered_eq_entry hapart hs hkind] at ho
    exact ⟨ho, hchosen'⟩

/-- The objects of the entries of such a kind are the objects of its sites. -/
theorem flatMap_objects (h : Gathers sites entries) (hapart : sites.Pairwise Site.Apart)
    {kind : ObjectKind} (hkind : kind ≠ .item) {sites' : List Site}
    (hsites : (sites.filter fun s => s.kind == kind) = sites')
    (hordered : sites'.Pairwise fun a b => a.element.start < b.element.start) :
    (entries.filter fun o => o.kind == kind).flatMap LocatedObject.objects =
      sites'.map Site.object := by
  have hentries : (entries.filter fun o => o.kind == kind) = sites'.map Site.entry := by
    refine h.filter_eq hapart ?_ hordered ?_
    · intro o ho
      rw [beq_iff_eq.1 ho]
      exact hkind
    · intro s
      rw [← hsites, List.mem_filter]
      rfl
  rw [hentries, List.flatMap_map, List.map_eq_flatMap]
  rfl

/-! ## Entries of items -/

/-- **The items of the entries are the items of the sites.** -/
theorem flatMap_items (h : Gathers sites entries) (hapart : sites.Pairwise Site.Apart)
    {items : List Site} (hitems : (sites.filter fun s => s.kind == .item) = items)
    (hordered : items.Pairwise fun a b => a.element.start ≤ b.element.start) :
    (entries.filter fun o => o.kind == .item).flatMap LocatedObject.objects =
      items.map Site.object := by
  have halone : ∀ s ∈ sites, s.kind = .item → ∀ r ∈ sites,
      r.element.start = s.element.start → r.kind = .item := by
    intro s hs hitem r hr hstart
    by_contra hkind
    exact hkind (eq_of_start hapart hr hs hstart.symm hkind ▸ hitem)
  let starts := (entries.filter fun o => o.kind == .item).map fun o => o.span.start
  have hstarts : starts.Pairwise (· < ·) :=
    List.pairwise_map.2 (h.increasing.sublist List.filter_sublist)
  have hmem : ∀ s ∈ items, s.element.start ∈ starts := by
    intro s hs
    rw [← hitems, List.mem_filter] at hs
    obtain ⟨o, ho, hstart⟩ := h.held s hs.1
    obtain ⟨r, hr, rfl⟩ := h.entry o ho
    have hitem : r.kind = .item := halone s hs.1 (by simpa using hs.2) r hr hstart
    exact List.mem_map.2 ⟨_, List.mem_filter.2 ⟨ho, by simpa [Site.gathered, Site.entry] using hitem⟩,
      hstart⟩
  have hobjects : ∀ o ∈ entries.filter fun o => o.kind == .item,
      o.objects = (items.filter fun s => s.element.start == o.span.start).map Site.object := by
    intro o ho
    obtain ⟨ho, hkind⟩ := List.mem_filter.1 ho
    obtain ⟨r, hr, rfl⟩ := h.entry o ho
    have hitem : r.kind = .item := by simpa [Site.gathered, Site.entry] using hkind
    rw [← hitems, List.filter_filter]
    change (sites.filter _).map Site.object = _
    congr 1
    apply List.filter_congr
    intro s hs
    by_cases heq : s.element.start = r.element.start
    · have hsitem := halone r hr hitem s hs heq
      simp [heq, hsitem, Site.gathered, Site.entry, Element.span, Span.ofSize]
    · simp [heq, Site.gathered, Site.entry, Element.span, Span.ofSize]
  rw [List.flatMap_congr hobjects, ← List.map_flatMap]
  congr 1
  have hall := flatMap_filter_eq hstarts hordered hmem
  rw [List.flatMap_map] at hall
  exact hall

end Gathers

end ProjectFile.Evaluation
