import Mathlib.Data.List.Forall2
import ProjectFile.Proofs.Evaluation.Declared

/-!
The entries of the object locator of an evaluated project.

Every declaration of a property or target has an entry of its own, with the span of the element that
makes it and the value right after it (`History.LocatedBy`); and the entries of items and of imports
hold the items and the imports of the project, in their order. `complete_build` says so of every
project file.

The module puts two others together: what a locator holds of sites that are apart
(`Gathers.filter_eq`, `Gathers.flatMap_items`), and that the sites of a project are
(`Account.apart_sites`).
-/

namespace ProjectFile.Evaluation

open Markup
open ReportedDeclaration (ofRegister ofObjects)

/-! ## What a locator holds -/

/-- Whether entries are those of the declarations of a name, oldest first: each with its own
declaration and the winning object, and only that of the winner as the winning one. -/
structure History.LocatedBy (h : History) (path : FilePath) (t : Text) (kind : ObjectKind)
    (declares : Element → Prop) (entries : List LocatedObject) : Prop where
  located : List.Forall₂
    (fun o d => ∃ e, d.provenance.Marks path t e ∧ declares e ∧
      o = ⟨kind, h.name, e.span, d.provenance, d.value, [h.object]⟩)
    entries h.declarations
  winning : entries.map LocatedObject.isWinning =
    h.predecessors.map (fun _ => false) ++ h.object.provenance.toList.map fun _ => true

namespace History.LocatedBy

variable {h : History} {path : FilePath} {t : Text} {kind : ObjectKind} {declares : Element → Prop}
  {entries : List LocatedObject}

theorem eq_false_of_mem_map {os : List LocatedObject} {ds : List Declaration}
    (hos : os.map LocatedObject.isWinning = ds.map fun _ => false) :
    os.filter LocatedObject.isWinning = [] := by
  rw [List.filter_eq_nil_iff]
  intro o ho
  have hmem : o.isWinning ∈ ds.map fun _ => false := hos ▸ List.mem_map_of_mem ho
  obtain ⟨-, -, hfalse⟩ := List.mem_map.1 hmem
  rw [← hfalse]
  exact Bool.false_ne_true

/-- Nothing that is declared nowhere has a winning entry. -/
theorem filter_isWinning_of_none (hl : h.LocatedBy path t kind declares entries)
    (hwinner : h.object.provenance = none) : entries.filter LocatedObject.isWinning = [] := by
  have hwinning := hl.winning
  rw [hwinner, Option.toList_none, List.map_nil, List.append_nil] at hwinning
  exact eq_false_of_mem_map hwinning

/-- **The one winning entry is that of the winner.** -/
theorem exists_winning (hl : h.LocatedBy path t kind declares entries) {winner : Provenance}
    (hwinner : h.object.provenance = some winner) : ∃ e, winner.Marks path t e ∧ declares e ∧
      entries.filter LocatedObject.isWinning =
        [⟨kind, h.name, e.span, winner, h.object.value, [h.object]⟩] := by
  obtain ⟨hlocated, hwinning⟩ := hl
  rw [declarations, hwinner, Option.map_some, Option.toList_some] at hlocated
  have hlast := List.forall₂_drop_append _ _ _ hlocated
  rw [List.forall₂_cons_right_iff] at hlast
  obtain ⟨o, rest, ⟨e, hmarks, hdeclares, ho⟩, hrest, hdrop⟩ := hlast
  rw [List.forall₂_nil_right_iff] at hrest
  rw [hrest] at hdrop
  have hentries := List.take_append_drop h.predecessors.length entries
  rw [hdrop] at hentries
  rw [hwinner, Option.toList_some, ← hentries, List.map_append] at hwinning
  obtain ⟨hbefore, hwins⟩ := List.append_inj' hwinning rfl
  have hwins : o.isWinning = true := List.singleton_inj.1 hwins
  refine ⟨e, hmarks, hdeclares, ?_⟩
  rw [← hentries, List.filter_append, eq_false_of_mem_map hbefore, List.nil_append,
    List.filter_singleton, hwins, ho]
  rfl

end History.LocatedBy

/-- Whether the entries of every name of a kind are those of its history, if it has one. -/
structure ObjectLocator.Traces (l : ObjectLocator) (r : Register) (path : FilePath) (t : Text)
    (kind : ObjectKind) (declares : Text → Element → Prop) : Prop where
  declared : ∀ name h, r.get? name = some h →
    h.LocatedBy path t kind (declares name) (l.declarations kind name)
  undeclared : ∀ name, r.get? name = none → l.declarations kind name = []

/-- Whether a locator has the declarations of a project, each of them once. -/
structure ObjectLocator.Complete (l : ObjectLocator) (p : EvaluatedProject) (path : FilePath)
    (t : Text) : Prop where
  increasing : l.entries.Pairwise fun a b => a.span.start < b.span.start
  elements : ∀ o ∈ l.entries, ∃ e, o.declaration.Marks path t e ∧ o.span = e.span
  properties : l.Traces p.properties path t .property (DeclaresProperty t)
  targets : l.Traces p.targets path t .target DeclaresTarget
  items : (l.entries.filter fun o => o.kind == .item).flatMap LocatedObject.objects = p.items
  imports : (l.entries.filter fun o => o.kind == .importedProject).flatMap LocatedObject.objects =
    p.imports

/-! ## Sites by kind -/

theorem SitesOf.filter_kind {visits : List Visit} {kind : ObjectKind} {sites : List Site}
    (h : SitesOf visits kind sites) (k : ObjectKind) :
    (sites.filter fun a => a.kind == k) = if kind = k then sites else [] := by
  split
  · next heq =>
    rw [List.filter_eq_self]
    intro a ha
    rw [h.of_kind a ha, heq]
    exact beq_self_eq_true k
  · next hne =>
    rw [List.filter_eq_nil_iff]
    intro a ha
    rw [h.of_kind a ha]
    simpa using hne

/-! ## Winners -/

theorem Provenance.same_self (o : Provenance) : o.same o = true := by
  simp [same, FilePath.same, Position.same]

/-- The place of a winner is none of those that it overrode. -/
theorem History.map_same_declarations {h : History}
    (hincreasing : h.provenances.Pairwise fun a b => a.position.place < b.position.place) :
    (h.declarations.map fun d => h.object.provenance.any fun w => w.same d.provenance) =
      h.predecessors.map (fun _ => false) ++ h.object.provenance.toList.map fun _ => true := by
  rw [provenances] at hincreasing
  rw [declarations, List.map_append]
  cases hwinner : h.object.provenance with
  | none => simp
  | some w =>
    rw [hwinner] at hincreasing
    obtain ⟨-, -, hbefore⟩ := List.pairwise_append.1 hincreasing
    have hold : ∀ d ∈ h.predecessors, w.same d.provenance = false := by
      intro d hd
      have hlt := hbefore d.provenance (List.mem_map_of_mem hd) w (List.mem_singleton.2 rfl)
      have hne : ¬ w.position.place = d.provenance.position.place := by
        intro heq
        rw [heq, Place.lt_iff] at hlt
        omega
      simp [Provenance.same, Position.same, hne]
    simp only [Option.any_some, Option.map_some, Option.toList_some, List.map_singleton,
      Provenance.same_self]
    congr 1
    exact List.map_congr_left hold

namespace Account

variable {exists? : FilePath → Bool} {path : FilePath} {t : Text} {p q : EvaluatedProject}
  {visits : List Visit}

variable (h : Walk ⟨path, .ofText t, exists?⟩ (Document.parse t).views 0 t.width p visits q)

include h

/-! ## Entries of a history -/

section

variable (kind : ObjectKind) {g : History} {declares : Visit → Bool} {declares' : Element → Prop}
  (hdeclares : ∀ v ∈ visits, declares v = true → declares' v.element)
  (hg : g.provenances = (visits.filter declares).map fun v =>
    Source.provenance ⟨path, .ofText t, exists?⟩ v.element)

include hdeclares hg

/-- The sites of a history are elements that declare, and mark its declarations. -/
theorem marks_ofHistory {a : Site} (ha : a ∈ sitesIn t (ReportedDeclaration.ofHistory kind g)) :
    a.declaration.provenance.Marks path t a.element ∧ declares' a.element := by
  obtain ⟨helements, hdeclarations⟩ := h.sitesIn_ofHistory kind hg
  have hprovenances := Walk.map_provenance_ofHistory kind hg
  rw [← hdeclarations, ← helements, List.map_map, List.map_map] at hprovenances
  obtain ⟨v, hv, hdeclares', helement⟩ := h.exists_visit_ofHistory hg ha
  have hprovenance : a.declaration.provenance =
      Source.provenance ⟨path, .ofText t, exists?⟩ a.element :=
    List.map_inj_left.1 hprovenances a ha
  rw [hprovenance, helement]
  exact ⟨h.marks hv, hdeclares v hv hdeclares'⟩

/-- Of its entries only that of the winner is a winning one. -/
theorem map_isWinning_ofHistory :
    ((sitesIn t (ReportedDeclaration.ofHistory kind g)).map Site.entry).map LocatedObject.isWinning =
      g.predecessors.map (fun _ => false) ++ g.object.provenance.toList.map fun _ => true := by
  have hincreasing : g.provenances.Pairwise fun a b => a.position.place < b.position.place := by
    rw [hg]
    exact (h.ascend hdeclares).increasing
  rw [← History.map_same_declarations hincreasing, List.map_map]
  have hwinning : ∀ a ∈ sitesIn t (ReportedDeclaration.ofHistory kind g),
      (LocatedObject.isWinning ∘ Site.entry) a =
        g.object.provenance.any fun w => w.same a.declaration.provenance := by
    intro a ha
    rw [← (History.of_mem_ofHistory (declaration_mem_of_mem_sitesIn ha)).2]
    simp [LocatedObject.isWinning, Site.entry, Site.object]
  have hdeclared := congrArg (List.map fun d : ReportedDeclaration =>
    g.object.provenance.any fun w => w.same d.provenance) (h.sitesIn_ofHistory kind hg).2
  rw [List.map_map, History.ofHistory_eq, List.map_map] at hdeclared
  rw [List.map_congr_left hwinning, History.ofHistory_eq]
  exact hdeclared

/-- **The entries of the sites of a history are those of its declarations.** -/
theorem locatedBy_ofHistory :
    g.LocatedBy path t kind declares'
      ((sitesIn t (ReportedDeclaration.ofHistory kind g)).map Site.entry) := by
  refine ⟨?_, map_isWinning_ofHistory h kind hdeclares hg⟩
  have hpairs : List.Forall₂ (fun (a : Site) (d : Declaration) =>
      a.declaration = ⟨kind, g.object, d.provenance, d.value⟩)
      (sitesIn t (ReportedDeclaration.ofHistory kind g)) g.declarations := by
    have hequal : List.Forall₂ Eq ((sitesIn t (ReportedDeclaration.ofHistory kind g)).map
        Site.declaration) (ReportedDeclaration.ofHistory kind g) := by
      rw [List.forall₂_eq_eq_eq, (h.sitesIn_ofHistory kind hg).2]
    rw [History.ofHistory_eq, List.forall₂_map_left_iff, List.forall₂_map_right_iff] at hequal
    rwa [← History.ofHistory_eq] at hequal
  rw [List.forall₂_map_left_iff]
  refine ((List.forall₂_and_left _ _).2
    ⟨fun a => marks_ofHistory h kind hdeclares hg, hpairs⟩).imp ?_
  rintro a d ⟨⟨hmarks, hdeclares⟩, hpair⟩
  rw [hpair] at hmarks
  refine ⟨a.element, hmarks, hdeclares, ?_⟩
  rw [Site.entry, Site.kind, Site.object, hpair]
  rfl

end

/-- The entries of a name are those of its history, if it has one. -/
theorem declarations_eq {sites : List Site} {l : ObjectLocator} (hl : Gathers sites l.entries)
    (hapart : sites.Pairwise Site.Apart) {r : Register} (hr : r.Distinct) {kind : ObjectKind}
    (hitem : kind ≠ .item)
    (hsites : (sites.filter fun a => a.kind == kind) = sitesIn t (ofRegister kind r))
    {declares : Text → Visit → Bool}
    (hdeclares : ∀ g ∈ r, g.provenances = (visits.filter (declares g.name)).map fun v =>
      Source.provenance ⟨path, .ofText t, exists?⟩ v.element) (name : Text) :
    l.declarations kind name =
      (sitesIn t (((r.get? name).map (ReportedDeclaration.ofHistory kind)).getD [])).map
        Site.entry := by
  refine hl.filter_eq hapart ?_ ?_ ?_
  · intro o ho
    rw [Bool.and_eq_true, beq_iff_eq] at ho
    rw [ho.1]
    exact hitem
  · cases hget : r.get? name with
    | none => exact .nil
    | some g => exact h.increasing_ofHistory kind (hdeclares g (List.mem_of_find?_eq_some hget))
  · intro a
    rw [Bool.and_eq_true, ← and_assoc]
    change _ ↔ (a ∈ sites ∧ (a.kind == kind) = true) ∧ Text.sameName a.object.name name = true
    rw [← List.mem_filter (p := fun a : Site => a.kind == kind), hsites, sitesIn_ofRegister,
      List.mem_flatMap]
    constructor
    · intro ha
      cases hget : r.get? name with
      | none => rw [hget] at ha; cases ha
      | some g =>
        rw [hget] at ha
        refine ⟨⟨g, List.mem_of_find?_eq_some hget, ha⟩, ?_⟩
        rw [Site.object, (History.of_mem_ofHistory (declaration_mem_of_mem_sitesIn ha)).2]
        exact Register.sameName_of_get? hget
    · rintro ⟨⟨g, hg, ha⟩, hname⟩
      rw [Site.object, (History.of_mem_ofHistory (declaration_mem_of_mem_sitesIn ha)).2] at hname
      rw [← Register.get?_congr (s := g.name) hname, hr.get?_eq hg]
      exact ha

/-- **The entries of a register are its declarations.** -/
theorem traces {sites : List Site} {l : ObjectLocator} (hl : Gathers sites l.entries)
    (hapart : sites.Pairwise Site.Apart) {r : Register} (hr : r.Distinct) {kind : ObjectKind}
    (hitem : kind ≠ .item)
    (hsites : (sites.filter fun a => a.kind == kind) = sitesIn t (ofRegister kind r))
    {declares : Text → Visit → Bool} {declares' : Text → Element → Prop}
    (hg : ∀ g ∈ r, g.provenances = (visits.filter (declares g.name)).map fun v =>
      Source.provenance ⟨path, .ofText t, exists?⟩ v.element)
    (hdeclares : ∀ {m n : Text}, Text.sameName m n = true → ∀ v ∈ visits, declares m v = true →
      declares' n v.element) :
    l.Traces r path t kind declares' where
  declared name g hget := by
    have hmem : g ∈ r := List.mem_of_find?_eq_some hget
    rw [declarations_eq h hl hapart hr hitem hsites hg, hget]
    exact locatedBy_ofHistory h kind (hdeclares (Register.sameName_of_get? hget)) (hg g hmem)
  undeclared name hget := by
    rw [declarations_eq h hl hapart hr hitem hsites hg, hget]
    rfl

end Account

/-! ## Project files -/

theorem DeclaresProperty.congr {t m n : Text} (hmn : Text.sameName m n = true) {e : Element}
    (h : DeclaresProperty t m e) : DeclaresProperty t n e := by
  obtain ⟨v, hv, hitem, hgroup, hsame⟩ := h
  exact ⟨v, hv, hitem, hgroup,
    Text.sameName_iff.2 ((Text.sameName_iff.1 hsame).trans (Text.sameName_iff.1 hmn))⟩

theorem DeclaresTarget.congr {m n : Text} (hmn : Text.sameName m n = true) {e : Element}
    (h : DeclaresTarget m e) : DeclaresTarget n e := by
  obtain ⟨hname, written, hwritten, hsame⟩ := h
  exact ⟨hname, written, hwritten,
    Text.sameName_iff.2 ((Text.sameName_iff.1 hsame).trans (Text.sameName_iff.1 hmn))⟩

/-- **The locator of an evaluated project has all its declarations.** -/
theorem complete_build {exists? : FilePath → Bool} {path : FilePath} {t : Text}
    {globals : GlobalProperties} {p : EvaluatedProject}
    (h : evaluate exists? path t globals = .ok p) :
    (ObjectLocator.build p (Document.parse t) (.ofText t)).Complete p path t := by
  obtain ⟨visits, hwalk⟩ := exists_walk h
  have hp := hwalk.account
  have hapart := Account.apart_sites hwalk hp
  have hgathers : Gathers (sitesIn t (ReportedDeclaration.ofProject p))
      (ObjectLocator.build p (Document.parse t) (.ofText t)).entries :=
    gathers_build p (Document.parse t) (.ofText t) rfl hapart
  have hkinds (k : ObjectKind) :=
    congrArg (List.filter fun a : Site => a.kind == k) (Account.sitesIn_ofProject hp)
  simp only [List.filter_append, (Account.sitesOf_properties hwalk hp).filter_kind,
    (Account.sitesOf_targets hwalk hp).filter_kind, (Account.sitesOf_items hwalk hp).filter_kind,
    (Account.sitesOf_imports hwalk hp).filter_kind] at hkinds
  obtain ⟨hobjects, hordered, -⟩ := Account.sitesIn_items hwalk hp
  exact {
    increasing := hgathers.increasing
    elements := by
      intro o ho
      obtain ⟨a, ha, rfl⟩ := hgathers.entry o ho
      exact ⟨a.element, Account.marks_of_mem_sites hwalk hp ha, rfl⟩
    properties := Account.traces hwalk hgathers hapart hp.distinct.properties (by decide)
      (by simpa using hkinds .property) hp.properties
      fun hname v hv hdeclares => (hwalk.declaresProperty hv hdeclares).congr hname
    targets := Account.traces hwalk hgathers hapart hp.distinct.targets (by decide)
      (by simpa using hkinds .target) hp.targets
      fun hname v hv hdeclares => (hwalk.declaresTarget hv hdeclares).congr hname
    items := by
      rw [hgathers.flatMap_items hapart (by simpa using hkinds .item) hordered, hobjects]
    imports := by
      rw [hgathers.flatMap_objects hapart (by decide) (by simpa using hkinds .importedProject)
        (Account.increasing_imports hwalk hp), (Account.sitesIn_imports hwalk hp).2] }

end ProjectFile.Evaluation
